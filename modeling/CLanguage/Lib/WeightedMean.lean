import Mathlib.Algebra.BigOperators.Ring.List
import Mathlib.Algebra.Order.BigOperators.Group.List
import Mathlib.Algebra.Order.Field.Basic

/-!
# Weighted means

The mean of the values of a list with positive weights lies between any bounds of the
values. With equal weights it is the plain mean.
-/

namespace CLanguage.Lib

variable {ι α : Type*} [Field α] {l : List ι} {w f : ι → α} {b : α}

/-- The mean of the values `f` with the weights `w`. -/
def weightedMean (w f : ι → α) (l : List ι) : α := (l.map fun i => f i * w i).sum / (l.map w).sum

/-- With the weight 1 for all it is the plain mean. -/
theorem weightedMean_one (h : ∀ i ∈ l, w i = 1) :
    weightedMean w f l = (l.map f).sum / l.length := by
  have hvalues : (l.map fun i => f i * w i) = l.map f :=
    List.map_congr_left fun i hi => by rw [h i hi, mul_one]
  have hweights : l.map w = List.replicate l.length 1 :=
    List.map_eq_replicate_iff.mpr h
  rw [weightedMean, hvalues, hweights, List.sum_replicate, nsmul_one]

variable [LinearOrder α] [IsStrictOrderedRing α]

theorem sum_weights_pos (hl : l ≠ []) (hw : ∀ i ∈ l, 0 < w i) : 0 < (l.map w).sum := by
  refine List.sum_pos _ (fun x hx => ?_) fun h => hl (List.map_eq_nil_iff.mp h)
  obtain ⟨i, hi, rfl⟩ := List.mem_map.mp hx
  exact hw i hi

theorem le_weightedMean (hl : l ≠ []) (hw : ∀ i ∈ l, 0 < w i) (hb : ∀ i ∈ l, b ≤ f i) :
    b ≤ weightedMean w f l := by
  rw [weightedMean, le_div_iff₀ (sum_weights_pos hl hw), ← List.sum_map_mul_left]
  exact List.sum_le_sum fun i hi => mul_le_mul_of_nonneg_right (hb i hi) (hw i hi).le

theorem weightedMean_le (hl : l ≠ []) (hw : ∀ i ∈ l, 0 < w i) (hb : ∀ i ∈ l, f i ≤ b) :
    weightedMean w f l ≤ b := by
  rw [weightedMean, div_le_iff₀ (sum_weights_pos hl hw), ← List.sum_map_mul_left]
  exact List.sum_le_sum fun i hi => mul_le_mul_of_nonneg_right (hb i hi) (hw i hi).le

end CLanguage.Lib
