import Mathlib.Algebra.Order.Group.Nat
import Mathlib.Data.List.Basic

/-!
# Blocks of a list

`chunks n l` are the complete blocks of length `n` at the start of `l`, in order.
A list of blocks is determined by its concatenation (`chunks_flatten_append`),
and a list whose length is a multiple of `n` is the concatenation of its blocks
(`flatten_chunks`).
-/

namespace CLanguage.Lib

universe u

variable {α : Type u} {n : ℕ} {l tail : List α} {ls : List (List α)}

/-- The first `k` blocks of length `n`. -/
def chunksFrom (n : ℕ) : ℕ → List α → List (List α)
  | 0, _ => []
  | k + 1, l => l.take n :: chunksFrom n k (l.drop n)

/-- The complete blocks of length `n`. -/
def chunks (n : ℕ) (l : List α) : List (List α) := chunksFrom n (l.length / n) l

@[simp] theorem length_chunksFrom (k : ℕ) (l : List α) : (chunksFrom n k l).length = k := by
  induction k generalizing l with
  | zero => rfl
  | succ k ih => rw [chunksFrom, List.length_cons, ih]

theorem length_chunks (n : ℕ) (l : List α) : (chunks n l).length = l.length / n :=
  length_chunksFrom _ _

theorem chunks_of_length_lt (h : l.length < n) : chunks n l = [] := by
  rw [chunks, Nat.div_eq_of_lt h, chunksFrom]

/-- The first block and the blocks of what follows it. -/
theorem chunks_of_length_le (hn : 0 < n) (h : n ≤ l.length) :
    chunks n l = l.take n :: chunks n (l.drop n) := by
  have hdiv : l.length / n = (l.length - n) / n + 1 := Nat.div_eq_sub_div hn h
  rw [chunks, hdiv, chunksFrom, chunks, List.length_drop]

theorem length_of_mem_chunks (hn : 0 < n) {b : List α} (h : b ∈ chunks n l) : b.length = n := by
  induction hk : l.length / n generalizing l with
  | zero =>
    rw [chunks, hk, chunksFrom] at h
    exact absurd h List.not_mem_nil
  | succ k ih =>
    have hle : n ≤ l.length := (Nat.div_pos_iff.mp (hk ▸ Nat.succ_pos k)).2
    rw [chunks_of_length_le hn hle] at h
    rcases List.mem_cons.mp h with rfl | h
    · exact List.length_take_of_le hle
    · apply ih h
      rw [List.length_drop]
      have hdiv := Nat.div_eq_sub_div hn hle
      omega

theorem chunks_append (hn : 0 < n) {b : List α} (h : b.length = n) (l : List α) :
    chunks n (b ++ l) = b :: chunks n l := by
  have hle : n ≤ (b ++ l).length := by
    rw [List.length_append]
    omega
  rw [chunks_of_length_le hn hle, List.take_left' h, List.drop_left' h]

theorem chunks_blocks_append (hn : 0 < n) (hls : ∀ b ∈ ls, b.length = n) (l : List α) :
    chunks n (ls.flatten ++ l) = ls ++ chunks n l := by
  induction ls with
  | nil => rfl
  | cons b ls ih =>
    have hb : b.length = n := hls b List.mem_cons_self
    rw [List.flatten_cons, List.append_assoc, chunks_append hn hb,
      ih fun c hc => hls c (List.mem_cons_of_mem b hc), List.cons_append]

/-- Concatenating blocks and cutting the result into blocks changes nothing. -/
theorem chunks_flatten_append (hn : 0 < n) (hls : ∀ b ∈ ls, b.length = n)
    (htail : tail.length < n) : chunks n (ls.flatten ++ tail) = ls := by
  rw [chunks_blocks_append hn hls, chunks_of_length_lt htail, List.append_nil]

theorem chunks_flatten (hn : 0 < n) (hls : ∀ b ∈ ls, b.length = n) :
    chunks n ls.flatten = ls := by
  have htail : ([] : List α).length < n := hn
  have h := chunks_flatten_append hn hls htail
  rwa [List.append_nil] at h

theorem flatten_chunks (hn : 0 < n) (h : n ∣ l.length) : (chunks n l).flatten = l := by
  induction hk : l.length / n generalizing l with
  | zero =>
    have hnil : l.length = 0 := by
      rw [← Nat.div_mul_cancel h, hk, Nat.zero_mul]
    rw [List.length_eq_zero_iff.mp hnil, chunks_of_length_lt hn, List.flatten_nil]
  | succ k ih =>
    have hle : n ≤ l.length := (Nat.div_pos_iff.mp (hk ▸ Nat.succ_pos k)).2
    have hdiv := Nat.div_eq_sub_div hn hle
    have hrest : (chunks n (l.drop n)).flatten = l.drop n := by
      apply ih
      · rw [List.length_drop]
        exact Nat.dvd_sub h (Nat.dvd_refl n)
      · rw [List.length_drop]
        omega
    rw [chunks_of_length_le hn hle, List.flatten_cons, hrest, List.take_append_drop]

/-- The blocks of two lists, where the first one is made of blocks. -/
theorem chunks_append_of_dvd (hn : 0 < n) (h : n ∣ l.length) (m : List α) :
    chunks n (l ++ m) = chunks n l ++ chunks n m := by
  have hlength : ∀ b ∈ chunks n l, b.length = n := fun _ hb => length_of_mem_chunks hn hb
  have hblocks := chunks_blocks_append hn hlength m
  rwa [flatten_chunks hn h] at hblocks

end CLanguage.Lib
