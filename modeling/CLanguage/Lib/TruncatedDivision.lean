import Mathlib.Algebra.Order.Ring.Int
import Mathlib.Tactic.Linarith
import Mathlib.Tactic.Ring

/-!
# Truncated division modulo a number

Division of integers that truncates towards zero, and when two quotients agree modulo `m`:
numbers that differ by fewer multiples of `m` than the divisor have quotients that agree only
if they are equal (`dvd_tdiv_sub_iff`), and numbers of opposite signs only if both quotients
are 0 (`dvd_tdiv_sub_iff_of_sign`).
-/

namespace CLanguage.Lib

variable {m f n n' q u : ℤ}

/-- Truncated division leaves a remainder of the sign of the dividend. -/
theorem tdiv_remainder (n : ℤ) (hf : 0 < f) :
    ∃ r, n = f * n.tdiv f + r ∧ -f < r ∧ r < f ∧ (0 ≤ n → 0 ≤ r ∧ 0 ≤ n.tdiv f) ∧
      (n ≤ 0 → r ≤ 0 ∧ n.tdiv f ≤ 0) := by
  refine ⟨n.tmod f, (Int.mul_tdiv_add_tmod n f).symm, Int.lt_tmod_of_pos n hf,
    Int.tmod_lt_of_pos n hf, ?_, ?_⟩
  · intro h
    exact ⟨Int.tmod_nonneg f h, Int.tdiv_nonneg h hf.le⟩
  · intro h
    have hr : 0 ≤ (-n).tmod f := Int.tmod_nonneg f (by omega)
    have hq : 0 ≤ (-n).tdiv f := Int.tdiv_nonneg (by omega) hf.le
    rw [Int.neg_tmod] at hr
    rw [Int.neg_tdiv] at hq
    exact ⟨by omega, by omega⟩

/-- The multiples of `f` are as far apart as `f`. -/
theorem mul_eq_zero_or_far (hf : 0 < f) (q : ℤ) :
    q = 0 ∧ f * q = 0 ∨ f ≤ f * q ∨ f * q ≤ -f := by
  rcases lt_trichotomy q 0 with h | rfl | h
  · exact .inr (.inr (by nlinarith))
  · exact .inl ⟨rfl, mul_zero f⟩
  · exact .inr (.inl (by nlinarith))

/-- The quotient is 0 where the dividend is smaller than the divisor. -/
theorem tdiv_eq_zero_iff (hf : 0 < f) : n.tdiv f = 0 ↔ -f < n ∧ n < f := by
  obtain ⟨r, hn, hlow, hhigh, hpos, hneg⟩ := tdiv_remainder n hf
  have hfar := mul_eq_zero_or_far hf (n.tdiv f)
  constructor
  · intro h
    rw [h, mul_zero, zero_add] at hn
    omega
  · rintro ⟨hlow', hhigh'⟩
    omega

/-- When a quotient is one of the numbers below `m`. -/
theorem tdiv_mem_range_iff (hf : 0 < f) (hm : 0 < m) :
    0 ≤ n.tdiv f ∧ n.tdiv f < m ↔ -f < n ∧ n < f * m := by
  obtain ⟨r, hn, hlow, hhigh, hpos, hneg⟩ := tdiv_remainder n hf
  constructor
  · rintro ⟨hq, hqm⟩
    have hlo : 0 ≤ f * n.tdiv f := mul_nonneg hf.le hq
    have hhi : f * n.tdiv f ≤ f * (m - 1) := mul_le_mul_of_nonneg_left (by omega) hf.le
    rw [mul_sub, mul_one] at hhi
    omega
  · rintro ⟨hlow', hhigh'⟩
    obtain hn' | hn' := le_total 0 n
    · obtain ⟨hr, hq⟩ := hpos hn'
      refine ⟨hq, lt_of_mul_lt_mul_left ?_ hf.le⟩
      omega
    · obtain ⟨hr, hq⟩ := hneg hn'
      have hzero := (tdiv_eq_zero_iff hf).mpr ⟨hlow', hn'.trans_lt hf⟩
      omega

/-- Quotients that agree modulo `m`, of numbers that differ by fewer than `f` multiples of it. -/
theorem eq_of_dvd_tdiv_sub (hf : 0 < f) (hm : 2 * f ≤ m) (hdiff : n - n' = m * u) (hlow : -f < u)
    (hhigh : u < f) (h : m ∣ n.tdiv f - n'.tdiv f) : n = n' := by
  obtain ⟨q, hq⟩ := h
  obtain ⟨r, hn, hr, hr', -, -⟩ := tdiv_remainder n hf
  obtain ⟨r', hn', hs, hs', -, -⟩ := tdiv_remainder n' hf
  have hsplit : m * (u - f * q) = r - r' := by
    calc m * (u - f * q) = n - n' - f * (n.tdiv f - n'.tdiv f) := by rw [hdiff, hq]; ring
      _ = r - r' := by rw [mul_sub]; omega
  -- the remainders are closer to each other than `m`
  have hu : u = f * q := by
    have hfar := mul_eq_zero_or_far (show 0 < m by omega) (u - f * q)
    omega
  have hq : u = 0 := by
    have hfar := mul_eq_zero_or_far hf q
    omega
  rw [hq, mul_zero] at hdiff
  omega

theorem dvd_tdiv_sub_iff (hf : 0 < f) (hm : 2 * f ≤ m) (hdiff : n - n' = m * u) (hlow : -f < u)
    (hhigh : u < f) : m ∣ n.tdiv f - n'.tdiv f ↔ n = n' := by
  refine ⟨eq_of_dvd_tdiv_sub hf hm hdiff hlow hhigh, ?_⟩
  rintro rfl
  rw [sub_self]
  exact dvd_zero m

/-- Quotients on both sides of 0 that are closer than `m` agree only if both are 0. -/
theorem dvd_tdiv_sub_iff_of_sign (hf : 0 < f) (hn : 0 ≤ n) (hn' : n' ≤ 0) (hlt : n - n' < f * m) :
    m ∣ n.tdiv f - n'.tdiv f ↔ n < f ∧ -f < n' := by
  obtain ⟨r, hsplit, -, -, hpos, -⟩ := tdiv_remainder n hf
  obtain ⟨r', hsplit', -, -, -, hneg⟩ := tdiv_remainder n' hf
  obtain ⟨hr, hq⟩ := hpos hn
  obtain ⟨hr', hq'⟩ := hneg hn'
  have hclose : f * (n.tdiv f - n'.tdiv f) < f * m := by
    rw [mul_sub]
    omega
  have hzero : m ∣ n.tdiv f - n'.tdiv f ↔ n.tdiv f = 0 ∧ n'.tdiv f = 0 := by
    constructor
    · intro h
      have hdiff :=
        Int.eq_zero_of_dvd_of_nonneg_of_lt (by omega) (lt_of_mul_lt_mul_left hclose hf.le) h
      omega
    · rintro ⟨h, h'⟩
      rw [h, h']
      exact dvd_zero m
  rw [hzero, tdiv_eq_zero_iff hf, tdiv_eq_zero_iff hf]
  omega

end CLanguage.Lib
