import Mathlib.Tactic.Linarith
import Mathlib.Topology.Algebra.Order.Field

/-!
# Piecewise linear functions

The function through a list of points with increasing coordinates that is linear between
them and constant behind the last one. It is continuous (`continuous_polyline`) and
non-decreasing (`monotone_polyline`).
-/

namespace CLanguage.Lib

variable {α : Type*} {a b : α × α} {ps : List (α × α)} {q q' : α}

section Points

variable [LinearOrder α]

/-- Both coordinates increase from a point to the later ones. -/
def Below (a b : α × α) : Prop := a.1 < b.1 ∧ a.2 < b.2

/-- Both coordinates of the points increase. -/
def Rising (ps : List (α × α)) : Prop := ps.Pairwise Below

theorem Rising.head (h : Rising (a :: b :: ps)) : Below a b :=
  (List.pairwise_cons.mp h).1 b List.mem_cons_self

theorem Rising.tail (h : Rising (a :: ps)) : Rising ps := (List.pairwise_cons.mp h).2

end Points

section Line

variable [Field α]

/-- The line through two points. -/
def line (a b : α × α) (q : α) : α := a.2 + (b.2 - a.2) / (b.1 - a.1) * (q - a.1)

theorem line_left (a b : α × α) : line a b a.1 = a.2 := by
  rw [line, sub_self, mul_zero, add_zero]

theorem line_right (h : a.1 ≠ b.1) : line a b b.1 = b.2 := by
  have hne : b.1 - a.1 ≠ 0 := sub_ne_zero.mpr h.symm
  rw [line, div_mul_cancel₀ _ hne, add_sub_cancel]

end Line

variable [Field α] [LinearOrder α]

/-- The function through the points from `a` on, constant behind the last one. -/
def polyline (a : α × α) : List (α × α) → α → α
  | [], _ => a.2
  | b :: ps, q => if q ≤ b.1 then line a b q else polyline b ps q

/-- Between the first two points. -/
theorem polyline_of_le (h : q ≤ b.1) : polyline a (b :: ps) q = line a b q := if_pos h

theorem polyline_left (h : Rising (a :: ps)) : polyline a ps a.1 = a.2 := by
  cases ps with
  | nil => rfl
  | cons b ps => rw [polyline_of_le h.head.1.le, line_left]

/-- Behind the second point. -/
theorem polyline_of_ge (h : Rising (a :: b :: ps)) (hq : b.1 ≤ q) :
    polyline a (b :: ps) q = polyline b ps q := by
  obtain heq | hlt := hq.eq_or_lt
  · subst heq
    rw [polyline_of_le le_rfl, line_right h.head.1.ne, polyline_left h.tail]
  · exact if_neg (not_le.mpr hlt)

variable [IsStrictOrderedRing α]

theorem line_strictMono (h : Below a b) (hq : q < q') : line a b q < line a b q' := by
  have hslope : 0 < (b.2 - a.2) / (b.1 - a.1) := div_pos (sub_pos.mpr h.2) (sub_pos.mpr h.1)
  have hstep := mul_lt_mul_of_pos_left (sub_lt_sub_right hq a.1) hslope
  rw [line, line]
  exact add_lt_add_right hstep a.2

/-- The function is not below its first value on the right of the first point. -/
theorem le_polyline (h : Rising (a :: ps)) (hq : a.1 ≤ q) : a.2 ≤ polyline a ps q := by
  induction ps generalizing a with
  | nil => exact le_rfl
  | cons b ps ih =>
    obtain hle | hle := le_total q b.1
    · rw [polyline_of_le hle]
      obtain heq | hlt := hq.eq_or_lt
      · rw [← heq, line_left]
      · rw [← line_left a b]
        exact (line_strictMono h.head hlt).le
    · rw [polyline_of_ge h hle]
      exact h.head.2.le.trans (ih h.tail hle)

theorem monotone_polyline (h : Rising (a :: ps)) : Monotone (polyline a ps) := by
  induction ps generalizing a with
  | nil => exact fun _ _ _ => le_rfl
  | cons b ps ih =>
    have hline : Monotone (line a b) := fun q q' hq => by
      obtain heq | hlt := hq.eq_or_lt
      · rw [heq]
      · exact (line_strictMono h.head hlt).le
    intro q q' hq
    obtain hle | hle := le_total q' b.1
    · rw [polyline_of_le (hq.trans hle), polyline_of_le hle]
      exact hline hq
    · rw [polyline_of_ge h hle]
      obtain hle' | hle' := le_total q b.1
      · -- the second point lies between
        rw [polyline_of_le hle']
        calc line a b q ≤ line a b b.1 := hline hle'
          _ = b.2 := line_right h.head.1.ne
          _ ≤ polyline b ps q' := le_polyline h.tail hle
      · rw [polyline_of_ge h hle']
        exact ih h.tail hq

theorem continuous_polyline [TopologicalSpace α] [OrderTopology α] (h : Rising (a :: ps)) :
    Continuous (polyline a ps) := by
  induction ps generalizing a with
  | nil => exact continuous_const
  | cons b ps ih =>
    have hline : Continuous (line a b) :=
      continuous_const.add (continuous_const.mul (continuous_id.sub continuous_const))
    refine hline.if_le (ih h.tail) continuous_id continuous_const fun q hq => ?_
    rw [hq, line_right h.head.1.ne, polyline_left h.tail]

end CLanguage.Lib
