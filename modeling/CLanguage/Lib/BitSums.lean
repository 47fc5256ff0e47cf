import Mathlib.Data.List.Dedup
import Mathlib.Data.List.Sort
import Mathlib.Data.Nat.BitIndices

/-!
# Sums of powers of two

A set of small numbers is often kept as a word with one bit for each of them. Adding
the powers of two of a list gives the word of its set exactly if the list repeats
nothing: a power that is added twice is carried to the next bit.
-/

namespace CLanguage.Lib

variable {ids : List ℕ} {i n : ℕ}

/-- The sum of the powers of two of a list. -/
def bitSum (ids : List ℕ) : ℕ := (ids.map (2 ^ ·)).sum

@[simp] theorem bitSum_nil : bitSum [] = 0 := rfl

@[simp] theorem bitSum_cons (i : ℕ) (ids : List ℕ) : bitSum (i :: ids) = 2 ^ i + bitSum ids := by
  simp [bitSum]

theorem bitSum_perm {ids ids' : List ℕ} (h : ids.Perm ids') : bitSum ids = bitSum ids' :=
  (h.map _).sum_eq

theorem testBit_bitSum (nodup : ids.Nodup) : (bitSum ids).testBit i = true ↔ i ∈ ids := by
  -- the indices of the bits of a sum are known for an increasing list
  have hperm := List.mergeSort_perm ids (· ≤ ·)
  have hsorted : (ids.mergeSort (· ≤ ·)).SortedLT :=
    List.sortedLE_mergeSort.sortedLT_of_nodup (hperm.nodup_iff.mpr nodup)
  rw [← bitSum_perm hperm, ← Nat.mem_bitIndices, bitSum, Nat.bitIndices_sum_map_two_pow hsorted,
    hperm.mem_iff]

theorem bitSum_dedup_le (ids : List ℕ) : bitSum ids.dedup ≤ bitSum ids := by
  induction ids with
  | nil => exact Nat.le_refl 0
  | cons i ids ih =>
    by_cases hi : i ∈ ids
    · rw [List.dedup_cons_of_mem hi, bitSum_cons]
      exact ih.trans (Nat.le_add_left _ _)
    · rw [List.dedup_cons_of_notMem hi, bitSum_cons, bitSum_cons]
      exact Nat.add_le_add_left ih _

/-- A repeated number makes the sum larger. -/
theorem bitSum_dedup_lt (h : ¬ ids.Nodup) : bitSum ids.dedup < bitSum ids := by
  induction ids with
  | nil => exact absurd List.nodup_nil h
  | cons i ids ih =>
    by_cases hi : i ∈ ids
    · have hle := bitSum_dedup_le ids
      have hpos := Nat.two_pow_pos i
      rw [List.dedup_cons_of_mem hi, bitSum_cons]
      omega
    · have hlt := ih fun hids => h (List.nodup_cons.mpr ⟨hi, hids⟩)
      rw [List.dedup_cons_of_notMem hi, bitSum_cons, bitSum_cons]
      omega

/-- The bits of the sum are the numbers of the list exactly if the list repeats nothing. -/
theorem testBit_bitSum_iff :
    (∀ i, (bitSum ids).testBit i = true ↔ i ∈ ids) ↔ ids.Nodup := by
  refine ⟨fun h => ?_, fun nodup i => testBit_bitSum nodup⟩
  by_contra hdup
  have hsame : bitSum ids = bitSum ids.dedup := by
    refine Nat.eq_of_testBit_eq fun i => Bool.eq_iff_iff.mpr ?_
    rw [h i, testBit_bitSum (List.nodup_dedup ids), List.mem_dedup]
  exact (bitSum_dedup_lt hdup).ne hsame.symm

theorem bitSum_lt (nodup : ids.Nodup) (h : ∀ i ∈ ids, i < n) : bitSum ids < 2 ^ n := by
  refine Nat.lt_pow_two_of_testBit _ fun i hi => ?_
  by_contra hbit
  have hmem := (testBit_bitSum nodup).mp (Bool.not_eq_false _ ▸ hbit)
  exact Nat.not_lt_of_le hi (h i hmem)

end CLanguage.Lib
