import Mathlib.Data.Int.Log
import Mathlib.Data.Rat.Floor
import Mathlib.Tactic.Linarith
import Mathlib.Tactic.Positivity
import Mathlib.Tactic.Ring
import Mathlib.Tactic.NormNum

/-!
# Numbers in the binary32 format

`Binary32.ofRat` rounds a rational number to the nearest number of the format,
ties to the even one. Rounding what has been rounded changes nothing
(`ofRat_value`), so a number of the format survives any detour through exact
numbers.
-/

namespace CLanguage.Lib

/-- The values of the format. The sign of zero is not kept. -/
inductive Binary32
  | finite (value : ℚ)
  | infinite (negative : Bool)
  | nan
  deriving DecidableEq

/-- The nearest integer, the even one of two. -/
def roundEven (q : ℚ) : ℤ :=
  if q - ⌊q⌋ < 1 / 2 then ⌊q⌋
  else if 1 / 2 < q - ⌊q⌋ then ⌊q⌋ + 1
  else if ⌊q⌋ % 2 = 0 then ⌊q⌋
  else ⌊q⌋ + 1

theorem roundEven_intCast (n : ℤ) : roundEven n = n := by
  rw [roundEven, Int.floor_intCast, sub_self, if_pos (by norm_num)]

theorem roundEven_cases (q : ℚ) : roundEven q = ⌊q⌋ ∨ roundEven q = ⌊q⌋ + 1 := by
  rw [roundEven]
  split_ifs <;> simp

/-- Rounding does not pass an integer. -/
theorem abs_roundEven_le {q : ℚ} {m : ℤ} (h : |q| < m) : |roundEven q| ≤ m := by
  obtain ⟨hlow, hhigh⟩ := abs_lt.mp h
  have hfloor : ⌊q⌋ < m := Int.floor_lt.mpr hhigh
  have hfloor' : -m ≤ ⌊q⌋ := Int.le_floor.mpr (by push_cast; exact hlow.le)
  rw [abs_le]
  rcases roundEven_cases q with heq | heq <;> rw [heq] <;> constructor <;> omega

namespace Binary32

/-- The weight of the last place for a number of this size. -/
def exponent (q : ℚ) : ℤ := max (Int.log 2 |q| - 23) (-149)

/-- The nearest multiple of the last place. -/
def nearest (q : ℚ) : ℚ := roundEven (q / 2 ^ exponent q) * 2 ^ exponent q

/-- The nearest number of the format. -/
def ofRat (q : ℚ) : Binary32 :=
  if 2 ^ 128 ≤ |nearest q| then infinite (decide (q < 0)) else finite (nearest q)

theorem lt_zpow_exponent (q : ℚ) : |q| < 2 ^ (exponent q + 24) := by
  have hlog : |q| < 2 ^ (Int.log 2 |q| + 1) := by
    exact_mod_cast Int.lt_zpow_succ_log_self (b := 2) (by decide) |q|
  have hle : Int.log 2 |q| - 23 ≤ exponent q := le_max_left _ _
  exact hlog.trans_le (zpow_le_zpow_right₀ (by norm_num) (by omega))

theorem exponent_le {q : ℚ} {e : ℤ} (hq : q ≠ 0) (h : |q| < 2 ^ (e + 24)) (he : -149 ≤ e) :
    exponent q ≤ e := by
  have hlog : Int.log 2 |q| < e + 24 :=
    (Int.lt_zpow_iff_log_lt (by decide) (abs_pos.mpr hq)).mp (by exact_mod_cast h)
  exact max_le (by omega) he

theorem nearest_of_multiple {q : ℚ} {m : ℤ} (h : q = m * 2 ^ exponent q) : nearest q = q := by
  have hpos : (2 : ℚ) ^ exponent q ≠ 0 := zpow_ne_zero _ (by norm_num)
  have hdiv : q / 2 ^ exponent q = m := by
    rw [div_eq_iff hpos]
    exact h
  rw [nearest, hdiv, roundEven_intCast, ← h]

/-- A multiple of a weight is a multiple of every smaller one. -/
theorem multiple_of_le (n : ℤ) {d e : ℤ} (h : d ≤ e) : ∃ m : ℤ, (n : ℚ) * 2 ^ e = m * 2 ^ d := by
  obtain ⟨k, hk⟩ := Int.le.dest h
  refine ⟨n * 2 ^ k, ?_⟩
  rw [← hk, add_comm d, zpow_add₀ (by norm_num), zpow_natCast]
  push_cast
  ring

theorem nearest_nearest (q : ℚ) : nearest (nearest q) = nearest q := by
  obtain ⟨e, he⟩ : ∃ e, e = exponent q := ⟨_, rfl⟩
  obtain ⟨n, hn⟩ : ∃ n, n = roundEven (q / 2 ^ e) := ⟨_, rfl⟩
  have hr : nearest q = n * 2 ^ e := by
    rw [nearest, ← he, ← hn]
  have hpos : (0 : ℚ) < 2 ^ e := zpow_pos (by norm_num) e
  have hmin : -149 ≤ e := he ▸ le_max_right _ _
  have hbound : |n| ≤ 2 ^ 24 := by
    have hquot : |q / 2 ^ e| < ((2 ^ 24 : ℤ) : ℚ) := by
      rw [abs_div, abs_of_pos hpos, div_lt_iff₀ hpos]
      have h := lt_zpow_exponent q
      rw [← he, add_comm, zpow_add₀ (by norm_num)] at h
      push_cast
      exact_mod_cast h
    rw [hn]
    exact abs_roundEven_le hquot
  rw [hr]
  rcases eq_or_ne n 0 with rfl | hzero
  · rw [Int.cast_zero, zero_mul]
    exact nearest_of_multiple (m := 0) (by simp)
  have hne : (n : ℚ) * 2 ^ e ≠ 0 := mul_ne_zero (Int.cast_ne_zero.mpr hzero) hpos.ne'
  have habs : |(n : ℚ) * 2 ^ e| = |n| * 2 ^ e := by
    rw [abs_mul, abs_of_pos hpos, Int.cast_abs]
  rcases hbound.lt_or_eq with hlt | heq
  · -- the last place does not weigh more than before
    have hsmall : |(n : ℚ) * 2 ^ e| < 2 ^ (e + 24) := by
      rw [habs, add_comm, zpow_add₀ (by norm_num)]
      apply mul_lt_mul_of_pos_right _ hpos
      exact_mod_cast hlt
    obtain ⟨m, hm⟩ := multiple_of_le n (exponent_le hne hsmall hmin)
    exact nearest_of_multiple hm
  · -- a power of two: the last place weighs twice as much
    have hpower : |(n : ℚ) * 2 ^ e| < 2 ^ (e + 1 + 24) := by
      rw [habs, heq, add_assoc, add_comm, zpow_add₀ (by norm_num)]
      apply mul_lt_mul_of_pos_right _ hpos
      norm_num
    obtain ⟨k, hk⟩ : (2 : ℤ) ∣ n := by
      rw [← dvd_abs, heq]
      norm_num
    have hdouble : (n : ℚ) * 2 ^ e = k * 2 ^ (e + 1) := by
      rw [hk, zpow_add₀ (by norm_num)]
      push_cast
      ring
    obtain ⟨m, hm⟩ := multiple_of_le k (exponent_le hne hpower (by omega))
    exact nearest_of_multiple (hdouble.trans hm)

/-- A number of the format is its own rounding. -/
theorem ofRat_value {q r : ℚ} (h : ofRat q = finite r) : ofRat r = finite r := by
  rw [ofRat] at h
  split at h
  case isTrue => exact absurd h nofun
  case isFalse hsmall =>
    obtain rfl := Binary32.finite.inj h
    rw [ofRat, nearest_nearest, if_neg hsmall]

theorem ofRat_bound {q r : ℚ} (h : ofRat q = finite r) : |r| < 2 ^ 128 := by
  rw [ofRat] at h
  split at h
  case isTrue => exact absurd h nofun
  case isFalse hsmall =>
    obtain rfl := Binary32.finite.inj h
    exact not_le.mp hsmall

end Binary32

end CLanguage.Lib
