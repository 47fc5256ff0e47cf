import CLanguage.Lib.Segment
import Mathlib.Algebra.Order.Ring.Int
import Mathlib.Data.List.Chain

/-!
# Sorted arrangements

The orders in which a three-way comparison can put a list. Two of them differ only in the
order of entries that the comparison finds equal (`getElem_sorted`). Whether any entries
are equal can be seen at the neighbours (`pairwise_of_neighbours`).
-/

namespace CLanguage.Lib

variable {α : Type*} {compare : α → α → ℤ} {l l' : List α} {a a' b b' c : α} {i : ℕ}

namespace Preorder3

/-- Whether the comparison is positive or zero does not change with arguments that are equal to the
given ones. -/
theorem sign_congr (order : Preorder3 compare) (ha : compare a a' = 0) (hb : compare b b' = 0) :
    (0 < compare a b ↔ 0 < compare a' b') ∧ (compare a b = 0 ↔ compare a' b' = 0) := by
  have hle : ∀ {x x' y y' : α}, compare x x' = 0 → compare y y' = 0 → compare x y ≤ 0 →
      compare x' y' ≤ 0 := by
    intro x x' y y' hx hy h
    have hx' : compare x' x ≤ 0 := order.le_of_nonneg hx.ge
    exact order.trans _ _ _ hx' (order.trans _ _ _ h hy.le)
  have hzero : ∀ {x x' : α}, compare x x' = 0 → compare x' x = 0 := by
    intro x x' h
    have h₁ := order.swap x x'
    have h₂ := order.swap x' x
    omega
  have hab : compare a b ≤ 0 ↔ compare a' b' ≤ 0 := ⟨hle ha hb, hle (hzero ha) (hzero hb)⟩
  have hba : compare b a ≤ 0 ↔ compare b' a' ≤ 0 := ⟨hle hb ha, hle (hzero hb) (hzero ha)⟩
  have h₁ := order.swap a b
  have h₂ := order.swap b a
  have h₃ := order.swap a' b'
  have h₄ := order.swap b' a'
  omega

/-- The entries that are not above `c` come first. -/
theorem lt_countP_iff (order : Preorder3 compare)
    (sorted : l.Pairwise fun a b => compare a b ≤ 0) (hi : i < l.length) :
    i < l.countP (fun a => compare a c ≤ 0) ↔ compare l[i] c ≤ 0 := by
  induction l generalizing i with
  | nil => exact absurd hi (Nat.not_lt_zero i)
  | cons a l ih =>
    obtain ⟨hfirst, hrest⟩ := List.pairwise_cons.mp sorted
    by_cases ha : compare a c ≤ 0
    · rw [List.countP_cons_of_pos (by simpa using ha)]
      cases i with
      | zero => exact iff_of_true (Nat.succ_pos _) ha
      | succ i => exact Nat.succ_lt_succ_iff.trans (ih hrest (Nat.lt_of_succ_lt_succ hi))
    · -- nothing behind an entry above `c` is not above it
      have hnone : ∀ b ∈ a :: l, ¬ compare b c ≤ 0 := by
        intro b hb hbc
        obtain rfl | hb := List.mem_cons.mp hb
        · exact ha hbc
        · exact ha (order.trans _ _ _ (hfirst b hb) hbc)
      rw [List.countP_eq_zero.mpr (by simpa using hnone)]
      exact iff_of_false (Nat.not_lt_zero i) (hnone _ (List.getElem_mem hi))

/-- Two sorted arrangements have equal entries at equal places. -/
theorem getElem_sorted (order : Preorder3 compare) (perm : l.Perm l')
    (sorted : l.Pairwise fun a b => compare a b ≤ 0)
    (sorted' : l'.Pairwise fun a b => compare a b ≤ 0) (hi : i < l.length) (hi' : i < l'.length) :
    compare l[i] l'[i] = 0 := by
  have hle : compare l[i] l'[i] ≤ 0 := by
    rw [← order.lt_countP_iff sorted hi, perm.countP_eq, order.lt_countP_iff sorted' hi']
    exact (order.refl _).le
  have hge : compare l'[i] l[i] ≤ 0 := by
    rw [← order.lt_countP_iff sorted' hi', ← perm.countP_eq, order.lt_countP_iff sorted hi]
    exact (order.refl _).le
  have hswap := order.swap l'[i] l[i]
  omega

/-- If no neighbours in a sorted list are equal, no entries are. -/
theorem pairwise_of_neighbours (order : Preorder3 compare)
    (sorted : l.Pairwise fun a b => compare a b ≤ 0)
    (neighbours : l.IsChain fun a b => compare a b ≠ 0) :
    l.Pairwise fun a b => compare a b ≠ 0 := by
  induction l with
  | nil => exact .nil
  | cons a l ih =>
    obtain ⟨hfirst, hrest⟩ := List.pairwise_cons.mp sorted
    refine List.pairwise_cons.mpr ⟨fun b hb hab => ?_, ih hrest neighbours.tail⟩
    cases l with
    | nil => exact absurd hb List.not_mem_nil
    | cons d l =>
      -- the second entry lies between two equal ones
      have hdb : compare d b ≤ 0 := by
        obtain rfl | hb := List.mem_cons.mp hb
        · exact (order.refl _).le
        · exact List.rel_of_pairwise_cons hrest hb
      have had := hfirst d List.mem_cons_self
      have hba : compare b a ≤ 0 := order.le_of_nonneg hab.ge
      have hda := order.trans _ _ _ hdb hba
      have hswap := order.swap d a
      have hne := (List.isChain_cons_cons.mp neighbours).1
      have hswap' := order.swap a d
      omega

end Preorder3

end CLanguage.Lib
