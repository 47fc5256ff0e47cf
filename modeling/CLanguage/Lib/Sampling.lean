import Mathlib.Algebra.Order.Group.Nat
import Mathlib.Tactic.Ring

/-!
# Every n-th element of a list

`keepEvery f i l` keeps the elements of `l` whose position, counted from `i`, is a
multiple of `f`. Keeping twice is keeping every `a * b`-th element
(`keepEvery_keepEvery`).
-/

namespace CLanguage.Lib

universe u v

variable {α : Type u} {β : Type v} {f i : ℕ}

/-- The elements at the multiples of `f`, where the first element has position `i`. -/
def keepEvery (f : ℕ) : ℕ → List α → List α
  | _, [] => []
  | i, a :: l => (if i % f = 0 then [a] else []) ++ keepEvery f (i + 1) l

@[simp] theorem keepEvery_nil (f i : ℕ) : keepEvery f i ([] : List α) = [] := rfl

theorem keepEvery_cons (f i : ℕ) (a : α) (l : List α) :
    keepEvery f i (a :: l) = (if i % f = 0 then [a] else []) ++ keepEvery f (i + 1) l := rfl

theorem keepEvery_append (f i : ℕ) (l m : List α) :
    keepEvery f i (l ++ m) = keepEvery f i l ++ keepEvery f (i + l.length) m := by
  induction l generalizing i with
  | nil => rfl
  | cons a l ih =>
    have hposition : i + 1 + l.length = i + (l.length + 1) := by ring
    rw [List.cons_append, keepEvery_cons, keepEvery_cons, ih, List.length_cons, hposition,
      List.append_assoc]

theorem keepEvery_sublist (f i : ℕ) (l : List α) : (keepEvery f i l).Sublist l := by
  induction l generalizing i with
  | nil => exact List.Sublist.refl _
  | cons a l ih =>
    rw [keepEvery_cons]
    split
    · exact (ih (i + 1)).cons_cons a
    · exact (ih (i + 1)).cons a

theorem map_keepEvery (g : α → β) (f i : ℕ) (l : List α) :
    (keepEvery f i l).map g = keepEvery f i (l.map g) := by
  induction l generalizing i with
  | nil => rfl
  | cons a l ih =>
    rw [List.map_cons, keepEvery_cons, keepEvery_cons, List.map_append, ih]
    split <;> rfl

/-- Nothing is kept between two multiples. -/
theorem keepEvery_between {q : ℕ} {l : List α} (h : l.length ≤ f - i)
    (hi : 0 < i) : keepEvery f (q * f + i) l = [] := by
  induction l generalizing i with
  | nil => rfl
  | cons a l ih =>
    rw [List.length_cons] at h
    have hmod : (q * f + i) % f = i := by
      rw [Nat.mul_comm, Nat.mul_add_mod, Nat.mod_eq_of_lt (by omega)]
    have hrest : keepEvery f (q * f + (i + 1)) l = [] := ih (by omega) (Nat.succ_pos i)
    rw [keepEvery_cons, hmod, if_neg (Nat.pos_iff_ne_zero.mp hi), List.nil_append, Nat.add_assoc,
      hrest]

/-- The second pass sees at position `⌈i / a⌉` what the first one sees from position `i` on. -/
theorem keepEvery_keepEvery {a : ℕ} (ha : 0 < a) (b i : ℕ) (l : List α) :
    keepEvery b ((i + (a - 1)) / a) (keepEvery a i l) = keepEvery (a * b) i l := by
  induction l generalizing i with
  | nil => rfl
  | cons x l ih =>
    have hsplit := Nat.div_add_mod i a
    have hlt := Nat.mod_lt i ha
    by_cases hmod : i % a = 0
    · -- `x` is kept by the first pass, at position `i / a` of the second
      have hposition : (i + (a - 1)) / a = i / a := by
        rw [Nat.div_eq_iff ha]
        have := Nat.mul_comm a (i / a)
        constructor <;> omega
      have hnext : (i + 1 + (a - 1)) / a = i / a + 1 := by
        rw [show i + 1 + (a - 1) = i + a by omega, Nat.add_div_right _ ha]
      have hkept : i / a % b = 0 ↔ i % (a * b) = 0 := by
        rw [Nat.mod_mul, hmod, Nat.zero_add, Nat.mul_eq_zero]
        exact ⟨.inr, fun h => h.resolve_left ha.ne'⟩
      have htail := ih (i + 1)
      rw [hnext] at htail
      rw [keepEvery_cons, if_pos hmod, List.singleton_append, hposition, keepEvery_cons, htail,
        keepEvery_cons]
      simp only [hkept]
    · have hnext : (i + 1 + (a - 1)) / a = (i + (a - 1)) / a := by
        rw [show i + 1 + (a - 1) = i + (a - 1) + 1 by omega, Nat.succ_div, if_neg]
        · rfl
        · rw [show i + (a - 1) + 1 = i + a by omega, Nat.dvd_add_self_right]
          exact fun h => hmod (Nat.mod_eq_zero_of_dvd h)
      have hdropped : i % (a * b) ≠ 0 := by
        intro h
        rw [Nat.mod_mul] at h
        omega
      have htail := ih (i + 1)
      rw [hnext] at htail
      rw [keepEvery_cons, if_neg hmod, List.nil_append, htail, keepEvery_cons, if_neg hdropped,
        List.nil_append]

end CLanguage.Lib
