import Mathlib.Data.Nat.Digits.Lemmas
import Mathlib.Tactic.Ring

/-!
# Numerals

A numeral is a list of digits, the most significant one first. `numeral n` is the
decimal numeral of `n` without leading zeros, `fixedNumeral k n` has exactly `k`
digits. `numeralValue` reads a numeral back.
-/

namespace CLanguage.Lib

/-- The value of a numeral. -/
def numeralValue (base : ℕ) (ds : List ℕ) : ℕ := ds.foldl (fun v d => v * base + d) 0

/-- The decimal numeral of a number. -/
def numeral (n : ℕ) : List ℕ := if n = 0 then [0] else (Nat.digits 10 n).reverse

/-- The last `k` digits of a number. -/
def fixedNumeral : ℕ → ℕ → List ℕ
  | 0, _ => []
  | k + 1, n => fixedNumeral k (n / 10) ++ [n % 10]

variable (base : ℕ)

theorem numeralValue_append_singleton (ds : List ℕ) (d : ℕ) :
    numeralValue base (ds ++ [d]) = numeralValue base ds * base + d := by
  rw [numeralValue, List.foldl_append]
  rfl

theorem numeralValue_append (ds es : List ℕ) :
    numeralValue base (ds ++ es) = numeralValue base ds * base ^ es.length + numeralValue base es := by
  induction es using List.reverseRecOn with
  | nil => simp [numeralValue]
  | append_singleton es e ih =>
    rw [← List.append_assoc, numeralValue_append_singleton, ih, numeralValue_append_singleton,
      List.length_append, List.length_singleton, pow_succ]
    ring

theorem numeralValue_reverse (ds : List ℕ) :
    numeralValue base ds.reverse = Nat.ofDigits base ds := by
  induction ds with
  | nil => rfl
  | cons d ds ih =>
    rw [List.reverse_cons, numeralValue_append_singleton, ih, Nat.ofDigits_cons]
    ring

theorem numeralValue_numeral (n : ℕ) : numeralValue 10 (numeral n) = n := by
  rw [numeral]
  split
  · next h => rw [h]; rfl
  · rw [numeralValue_reverse, Nat.ofDigits_digits]

theorem numeral_ne_nil (n : ℕ) : numeral n ≠ [] := by
  rw [numeral]
  split
  · simp
  · next h => simpa [Nat.digits_ne_nil_iff_ne_zero] using h

theorem lt_of_mem_numeral {n d : ℕ} (h : d ∈ numeral n) : d < 10 := by
  rw [numeral] at h
  split at h
  · rw [List.mem_singleton.mp h]
    decide
  · exact Nat.digits_lt_base (by decide) (List.mem_reverse.mp h)

@[simp] theorem length_fixedNumeral (k n : ℕ) : (fixedNumeral k n).length = k := by
  induction k generalizing n with
  | zero => rfl
  | succ k ih => rw [fixedNumeral, List.length_append, ih, List.length_singleton]

theorem lt_of_mem_fixedNumeral {k n d : ℕ} (h : d ∈ fixedNumeral k n) : d < 10 := by
  induction k generalizing n with
  | zero => exact absurd h List.not_mem_nil
  | succ k ih =>
    rcases List.mem_append.mp h with h | h
    · exact ih h
    · rw [List.mem_singleton.mp h]
      exact Nat.mod_lt n (by decide)

theorem numeralValue_fixedNumeral (k n : ℕ) :
    numeralValue 10 (fixedNumeral k n) = n % 10 ^ k := by
  induction k generalizing n with
  | zero => rw [pow_zero, Nat.mod_one]; rfl
  | succ k ih =>
    have hsplit : n % 10 ^ (k + 1) = n / 10 % 10 ^ k * 10 + n % 10 := by
      rw [pow_succ, mul_comm, Nat.mod_mul]
      omega
    rw [fixedNumeral, numeralValue_append_singleton, ih, hsplit]

/-! ### One digit -/

/-- The digit `j` of `n` in base `b`. -/
def digitAt (b n j : ℕ) : ℕ := n / b ^ j % b

/-- Replacing digit `k` changes no other digit. -/
theorem digitAt_replace {b n v j k : ℕ} (hv : v < b) :
    digitAt b (n - digitAt b n k * b ^ k + v * b ^ k) j = if j = k then v else digitAt b n j := by
  have hb : 0 < b := Nat.zero_lt_of_lt hv
  have hpow : 0 < b ^ k := Nat.pow_pos hb
  -- `n` is split into the digits above `k`, digit `k` and those below
  have hsplit : n = (n / b ^ k / b * b + digitAt b n k) * b ^ k + n % b ^ k := by
    rw [digitAt, Nat.div_add_mod', Nat.div_add_mod']
  have hnew : n - digitAt b n k * b ^ k + v * b ^ k =
      (n / b ^ k / b * b + v) * b ^ k + n % b ^ k := by
    have hsum : n = n / b ^ k / b * b * b ^ k + n % b ^ k + digitAt b n k * b ^ k := by
      rw [Nat.add_right_comm, ← Nat.add_mul]
      exact hsplit
    have hsub : n - digitAt b n k * b ^ k = n / b ^ k / b * b * b ^ k + n % b ^ k :=
      Nat.sub_eq_of_eq_add hsum
    rw [hsub, Nat.add_mul, Nat.add_right_comm]
  have hlow : n % b ^ k < b ^ k := Nat.mod_lt _ hpow
  generalize hm : n - digitAt b n k * b ^ k + v * b ^ k = m at *
  have hdiv : m / b ^ k = n / b ^ k / b * b + v := by
    rw [hnew, Nat.add_comm, Nat.add_mul_div_right _ _ hpow, Nat.div_eq_of_lt hlow, Nat.zero_add]
  have hmod : m % b ^ k = n % b ^ k := by
    rw [hnew, Nat.mul_add_mod_of_lt hlow]
  rcases lt_trichotomy j k with hjk | rfl | hjk
  · -- digit `j` is a digit of the remainder
    have hdvd : b ^ j * b ∣ b ^ k := by
      rw [← pow_succ]
      exact pow_dvd_pow b hjk
    rw [if_neg hjk.ne, digitAt, digitAt, ← Nat.mod_mul_right_div_self, ← Nat.mod_mul_right_div_self,
      ← Nat.mod_mod_of_dvd m hdvd, hmod, Nat.mod_mod_of_dvd n hdvd]
  · rw [if_pos rfl, digitAt, hdiv, Nat.mul_add_mod_of_lt hv]
  · -- digit `j` is a digit of the quotient
    obtain ⟨i, rfl⟩ : ∃ i, j = k + 1 + i := ⟨j - (k + 1), by omega⟩
    have hhigh : m / b ^ k / b = n / b ^ k / b := by
      rw [hdiv, Nat.add_comm, Nat.add_mul_div_right _ _ hb, Nat.div_eq_of_lt hv, Nat.zero_add]
    have hpow : ∀ x, x / b ^ (k + 1 + i) = x / b ^ k / b / b ^ i := fun x => by
      rw [pow_add, pow_succ, ← Nat.div_div_eq_div_mul, ← Nat.div_div_eq_div_mul]
    rw [if_neg hjk.ne', digitAt, digitAt, hpow, hpow, hhigh]
end CLanguage.Lib
