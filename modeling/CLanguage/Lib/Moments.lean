import Mathlib.Algebra.BigOperators.Ring.List
import Mathlib.Algebra.CharZero.Defs
import Mathlib.Algebra.Order.BigOperators.Group.List
import Mathlib.Algebra.Order.Field.Basic
import Mathlib.Tactic.FieldSimp
import Mathlib.Tactic.Positivity
import Mathlib.Tactic.Ring

/-!
# Mean and variance of a sample

The mean of a list, and its variance with one degree of freedom less than its length. The
squared deviations from the mean can be computed from the sum and the sum of squares alone
(`sumSquaredDev_eq`), and both moments follow an affine map (`mean_affine`,
`sampleVariance_affine`).
-/

namespace CLanguage.Lib

variable {α : Type*} [Field α] {xs : List α} {a b : α}

/-- The mean. -/
def mean (xs : List α) : α := xs.sum / xs.length

/-- The sum of the squared deviations from `m`. -/
def sumSquaredDev (m : α) (xs : List α) : α := (xs.map fun x => (x - m) ^ 2).sum

/-- The variance of a sample. -/
def sampleVariance (xs : List α) : α := sumSquaredDev (mean xs) xs / (xs.length - 1)

theorem sumSquaredDev_expand (m : α) (xs : List α) :
    sumSquaredDev m xs = (xs.map fun x => x * x).sum - 2 * m * xs.sum + xs.length * m ^ 2 := by
  induction xs with
  | nil => simp [sumSquaredDev]
  | cons x xs ih =>
    rw [sumSquaredDev] at ih
    rw [sumSquaredDev, List.map_cons, List.sum_cons, ih, List.map_cons, List.sum_cons,
      List.sum_cons, List.length_cons, Nat.cast_succ]
    ring

theorem sum_affine (a b : α) (xs : List α) :
    (xs.map fun x => a * x + b).sum = a * xs.sum + xs.length * b := by
  induction xs with
  | nil => simp
  | cons x xs ih =>
    rw [List.map_cons, List.sum_cons, ih, List.sum_cons, List.length_cons, Nat.cast_succ]
    ring

theorem sumSquaredDev_affine (a b m : α) (xs : List α) :
    sumSquaredDev (a * m + b) (xs.map fun x => a * x + b) = a ^ 2 * sumSquaredDev m xs := by
  rw [sumSquaredDev, sumSquaredDev, List.map_map, ← List.sum_map_mul_left]
  congr 1
  apply List.map_congr_left
  intro x _
  rw [Function.comp_apply]
  ring

section CharZero

variable [CharZero α]

theorem length_ne_zero (h : xs ≠ []) : (xs.length : α) ≠ 0 :=
  Nat.cast_ne_zero.mpr fun hzero => h (List.length_eq_zero_iff.mp hzero)

/-- The deviations from the mean, by the two sums. -/
theorem sumSquaredDev_eq (xs : List α) :
    sumSquaredDev (mean xs) xs = (xs.map fun x => x * x).sum - xs.sum * xs.sum / xs.length := by
  by_cases h : xs = []
  · subst h
    simp [sumSquaredDev]
  · have hn := length_ne_zero h
    rw [sumSquaredDev_expand, mean]
    field_simp
    ring

theorem mean_affine (h : xs ≠ []) (a b : α) :
    mean (xs.map fun x => a * x + b) = a * mean xs + b := by
  have hn := length_ne_zero h
  rw [mean, mean, sum_affine, List.length_map]
  field_simp

theorem sampleVariance_affine (h : xs ≠ []) (a b : α) :
    sampleVariance (xs.map fun x => a * x + b) = a ^ 2 * sampleVariance xs := by
  rw [sampleVariance, sampleVariance, mean_affine h, sumSquaredDev_affine, List.length_map,
    mul_div_assoc]

end CharZero

section Order

variable [LinearOrder α] [IsStrictOrderedRing α]

theorem sampleVariance_nonneg (xs : List α) : 0 ≤ sampleVariance xs := by
  by_cases h : xs = []
  · subst h
    simp [sampleVariance, sumSquaredDev]
  · have hsum : 0 ≤ sumSquaredDev (mean xs) xs := by
      apply List.sum_nonneg
      intro y hy
      obtain ⟨x, -, rfl⟩ := List.mem_map.mp hy
      positivity
    have hlength : (1 : α) ≤ xs.length := Nat.one_le_cast.mpr (List.length_pos_iff.mpr h)
    exact div_nonneg hsum (sub_nonneg.mpr hlength)

end Order

end CLanguage.Lib
