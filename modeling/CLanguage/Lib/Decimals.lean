import CLanguage.Lib.Binary32
import Mathlib.Tactic.LinearCombination
import Mathlib.Algebra.Order.Ring.Rat

/-!
# Six decimal places

A number of the binary32 format is written with six digits behind the point and read
again. What comes back is `sixPlaces` of it. The nearest number to a decimal with six
places comes back unchanged (`sixPlaces_ofRat`), although it is no such decimal in
general: below sixteen the written digits are those of the decimal, and from there
on the format is too coarse for the sixth place to matter.
-/

namespace CLanguage.Lib

/-! ## The nearest integer -/

theorem roundEven_eq {q : ℚ} {n : ℤ} (h : |q - n| < 1 / 2) : roundEven q = n := by
  obtain ⟨hlow, hhigh⟩ := abs_lt.mp h
  rw [roundEven]
  rcases le_or_gt (n : ℚ) q with hn | hn
  · have hfloor : ⌊q⌋ = n := Int.floor_eq_iff.mpr ⟨hn, by linarith⟩
    rw [hfloor, if_pos (by linarith)]
  · have hfloor : ⌊q⌋ = n - 1 := Int.floor_eq_iff.mpr ⟨by push_cast; linarith, by push_cast; linarith⟩
    rw [hfloor, if_neg (by push_cast; linarith), if_pos (by push_cast; linarith)]
    exact Int.sub_add_cancel n 1

theorem abs_sub_roundEven (q : ℚ) : |q - roundEven q| ≤ 1 / 2 := by
  have hlow := Int.floor_le q
  have hhigh := Int.lt_floor_add_one q
  rw [roundEven]
  split_ifs with h₁ h₂ h₃
  · exact abs_le.mpr ⟨by linarith, by linarith⟩
  · exact abs_le.mpr ⟨by push_cast; linarith, by push_cast; linarith⟩
  · exact abs_le.mpr ⟨by linarith, by linarith⟩
  · exact abs_le.mpr ⟨by push_cast; linarith, by push_cast; linarith⟩

/-- Rounding keeps a lower bound that is an integer. -/
theorem le_roundEven {q : ℚ} {m : ℤ} (h : (m : ℚ) ≤ q) : m ≤ roundEven q := by
  have hfloor : m ≤ ⌊q⌋ := Int.le_floor.mpr h
  rcases roundEven_cases q with heq | heq <;> rw [heq] <;> omega

/-- Rounding keeps an upper bound that is an integer. -/
theorem roundEven_le {q : ℚ} {m : ℤ} (h : q ≤ m) : roundEven q ≤ m := by
  rcases h.lt_or_eq with hlt | rfl
  · have hfloor : ⌊q⌋ < m := Int.floor_lt.mpr hlt
    rcases roundEven_cases q with heq | heq <;> rw [heq] <;> omega
  · exact (roundEven_intCast m).le

/-- Rounding keeps the bounds of the size that are integers. -/
theorem le_abs_roundEven {q : ℚ} {n : ℕ} (h : (n : ℚ) ≤ |q|) : (n : ℤ) ≤ |roundEven q| := by
  rcases le_abs.mp h with h | h
  · exact (le_roundEven (m := n) (by exact_mod_cast h)).trans (le_abs_self _)
  · have hneg : q ≤ ((-n : ℤ) : ℚ) := by
      push_cast
      linarith
    have hround := roundEven_le hneg
    exact (by omega : (n : ℤ) ≤ -roundEven q).trans (neg_le_abs _)

namespace Binary32

/-! ## Numbers of the format -/

/-- The value is one of the format. -/
def Valid : Binary32 → Prop
  | finite q => ofRat q = finite q
  | _ => True

theorem valid_ofRat (q : ℚ) : (ofRat q).Valid := by
  rcases h : ofRat q with r | negative | _
  · exact ofRat_value h
  · exact trivial
  · exact trivial

theorem Valid.bound {q : ℚ} (h : (finite q).Valid) : |q| < 2 ^ 128 := ofRat_bound h

/-- The nearest number is the one that is nearer than half of the last place. -/
theorem nearest_eq {q r : ℚ} {m : ℤ} (hr : r = m * 2 ^ exponent q)
    (h : |q - r| < 2 ^ exponent q / 2) : nearest q = r := by
  have hpos : (0 : ℚ) < 2 ^ exponent q := zpow_pos (by norm_num) _
  have hround : roundEven (q / 2 ^ exponent q) = m := by
    apply roundEven_eq
    have hquot : q / 2 ^ exponent q - m = (q - r) / 2 ^ exponent q := by
      rw [hr, sub_div, mul_div_cancel_right₀ _ hpos.ne']
    rw [hquot, abs_div, abs_of_pos hpos, div_lt_iff₀ hpos]
    linarith
  rw [nearest, hround, hr]

theorem abs_sub_nearest (q : ℚ) : |q - nearest q| ≤ 2 ^ exponent q / 2 := by
  have hpos : (0 : ℚ) < 2 ^ exponent q := zpow_pos (by norm_num) _
  have hround := abs_sub_roundEven (q / 2 ^ exponent q)
  have hsub : q - nearest q =
      (q / 2 ^ exponent q - roundEven (q / 2 ^ exponent q)) * 2 ^ exponent q := by
    rw [nearest, sub_mul, div_mul_cancel₀ _ hpos.ne']
  rw [hsub, abs_mul, abs_of_pos hpos]
  calc |q / 2 ^ exponent q - roundEven (q / 2 ^ exponent q)| * 2 ^ exponent q
      ≤ 1 / 2 * 2 ^ exponent q := mul_le_mul_of_nonneg_right hround hpos.le
    _ = 2 ^ exponent q / 2 := by ring

/-! ## Rounding to six places -/

/-- A decimal with at most six places behind its point. -/
def Decimal (q : ℚ) : Prop := ∃ n : ℤ, q * 10 ^ 6 = n

/-- The nearest decimal with six places, with the sign of the number. -/
def nearestDecimal (q : ℚ) : ℚ :=
  (if q < 0 then -1 else 1) * (roundEven (|q| * 10 ^ 6) / 10 ^ 6)

/-- What is read where a number has been written with six places. -/
def sixPlaces : Binary32 → Binary32
  | finite q => ofRat (nearestDecimal q)
  | f => f

theorem valid_sixPlaces {f : Binary32} : f.sixPlaces.Valid := by
  cases f with
  | finite q => exact valid_ofRat _
  | infinite negative => exact trivial
  | nan => exact trivial

theorem decimal_nearestDecimal (q : ℚ) : Decimal (nearestDecimal q) := by
  rw [nearestDecimal]
  split_ifs
  · exact ⟨-roundEven (|q| * 10 ^ 6), by push_cast; ring⟩
  · exact ⟨roundEven (|q| * 10 ^ 6), by ring⟩

theorem abs_nearestDecimal (q : ℚ) :
    |nearestDecimal q| = roundEven (|q| * 10 ^ 6) / 10 ^ 6 := by
  have hround : 0 ≤ roundEven (|q| * 10 ^ 6) := le_roundEven (by push_cast; positivity)
  have hnonneg : (0 : ℚ) ≤ roundEven (|q| * 10 ^ 6) / 10 ^ 6 :=
    div_nonneg (by exact_mod_cast hround) (by norm_num)
  rw [nearestDecimal, abs_mul, abs_of_nonneg hnonneg]
  split_ifs
  · rw [abs_neg, abs_one, one_mul]
  · rw [abs_one, one_mul]

theorem abs_sub_nearestDecimal (q : ℚ) : |nearestDecimal q - q| ≤ 1 / (2 * 10 ^ 6) := by
  have hround := abs_sub_roundEven (|q| * 10 ^ 6)
  have hsign : nearestDecimal q - q =
      (if q < 0 then -1 else 1) * ((roundEven (|q| * 10 ^ 6) - |q| * 10 ^ 6) / 10 ^ 6) := by
    rw [nearestDecimal]
    split_ifs with h
    · rw [abs_of_neg h]
      ring
    · rw [abs_of_nonneg (not_lt.mp h)]
      ring
  have hone : |(if q < 0 then -1 else 1 : ℚ)| = 1 := by
    split_ifs
    · rw [abs_neg, abs_one]
    · rw [abs_one]
  rw [hsign, abs_mul, hone, one_mul, abs_div, abs_sub_comm, abs_of_pos (by norm_num : (0 : ℚ) < 10 ^ 6),
    div_le_iff₀ (by norm_num)]
  calc |(|q| * 10 ^ 6 - roundEven (|q| * 10 ^ 6))| ≤ 1 / 2 := hround
    _ = 1 / (2 * 10 ^ 6) * 10 ^ 6 := by norm_num

/-- A decimal that is near enough is the nearest one. -/
theorem nearestDecimal_eq {q d : ℚ} (hd : Decimal d) (h : |q - d| < 1 / (2 * 10 ^ 6)) :
    nearestDecimal q = d := by
  obtain ⟨n, hn⟩ := hd
  obtain ⟨m, hm⟩ := decimal_nearestDecimal q
  have hnear := abs_sub_nearestDecimal q
  have hsum : |nearestDecimal q - d| < 1 / 10 ^ 6 := by
    calc |nearestDecimal q - d| ≤ |nearestDecimal q - q| + |q - d| := abs_sub_le _ _ _
      _ < 1 / (2 * 10 ^ 6) + 1 / (2 * 10 ^ 6) := by linarith
      _ = 1 / 10 ^ 6 := by norm_num
  -- two integers less than one apart
  have hint : |((m - n : ℤ) : ℚ)| < 1 := by
    have hsub : ((m - n : ℤ) : ℚ) = (nearestDecimal q - d) * 10 ^ 6 := by
      push_cast
      rw [← hm, ← hn]
      ring
    rw [hsub, abs_mul, abs_of_pos (by norm_num : (0 : ℚ) < 10 ^ 6)]
    calc |nearestDecimal q - d| * 10 ^ 6 < 1 / 10 ^ 6 * 10 ^ 6 :=
          mul_lt_mul_of_pos_right hsum (by norm_num)
      _ = 1 := by norm_num
  have hzero : m = n := by
    rw [← Int.cast_abs] at hint
    have habs : |m - n| < 1 := by exact_mod_cast hint
    exact sub_eq_zero.mp (Int.abs_lt_one_iff.mp habs)
  have hpow : (10 : ℚ) ^ 6 ≠ 0 := by norm_num
  exact mul_right_cancel₀ hpow (hm.trans (hzero ▸ hn.symm))

/-- An integer lies on the same side of a number and of its nearest decimal. -/
theorem natCast_le_nearestDecimal {q : ℚ} {n : ℕ} (h : (n : ℚ) ≤ |q|) :
    (n : ℚ) ≤ |nearestDecimal q| := by
  have hscaled : ((n * 10 ^ 6 : ℤ) : ℚ) ≤ |q| * 10 ^ 6 := by
    push_cast
    exact mul_le_mul_of_nonneg_right h (by norm_num)
  rw [abs_nearestDecimal, le_div_iff₀ (by norm_num)]
  exact_mod_cast le_roundEven hscaled

theorem nearestDecimal_le_natCast {q : ℚ} {n : ℕ} (h : |q| ≤ n) :
    |nearestDecimal q| ≤ n := by
  have hscaled : |q| * 10 ^ 6 ≤ ((n * 10 ^ 6 : ℤ) : ℚ) := by
    push_cast
    exact mul_le_mul_of_nonneg_right h (by norm_num)
  rw [abs_nearestDecimal, div_le_iff₀ (by norm_num)]
  exact_mod_cast roundEven_le hscaled

/-- A number between two powers of two that are `2 ^ 23` and `2 ^ 24` times its last place. -/
theorem exponent_eq {q : ℚ} {e : ℤ} (he : -149 ≤ e) (hlow : 2 ^ (e + 23) ≤ |q|)
    (hhigh : |q| < 2 ^ (e + 24)) : exponent q = e := by
  have hpos : 0 < |q| := lt_of_lt_of_le (zpow_pos (by norm_num) _) hlow
  have hle : e + 23 ≤ Int.log 2 |q| :=
    (Int.zpow_le_iff_le_log (by decide) hpos).mp (by exact_mod_cast hlow)
  have hlt : Int.log 2 |q| < e + 24 :=
    (Int.lt_zpow_iff_log_lt (by decide) hpos).mp (by exact_mod_cast hhigh)
  rw [exponent, max_eq_left (by omega)]
  omega

/-- A number and its rounding lie between the same powers of two. -/
theorem abs_nearest_bounds {q : ℚ} (h : -22 ≤ exponent q) :
    2 ^ (exponent q + 23) ≤ |nearest q| ∧ |nearest q| ≤ 2 ^ (exponent q + 24) := by
  have hpos : (0 : ℚ) < 2 ^ exponent q := zpow_pos (by norm_num) _
  have hlog : exponent q = Int.log 2 |q| - 23 := by
    rw [exponent, max_def] at h ⊢
    split_ifs at h ⊢
    · omega
    · rfl
  have hne : 0 < |q| := by
    rw [abs_pos]
    rintro rfl
    rw [abs_zero, Int.log_zero_right] at hlog
    omega
  have hlow : 2 ^ (exponent q + 23) ≤ |q| := by
    rw [hlog, sub_add_cancel]
    exact_mod_cast Int.zpow_log_le_self (b := 2) (by decide) hne
  have hquot : |q / 2 ^ exponent q| = |q| / 2 ^ exponent q := by rw [abs_div, abs_of_pos hpos]
  have hround : |nearest q| = |roundEven (q / 2 ^ exponent q)| * 2 ^ exponent q := by
    rw [nearest, abs_mul, abs_of_pos hpos, Int.cast_abs]
  rw [hround, add_comm, zpow_add₀ (by norm_num), add_comm, zpow_add₀ (by norm_num)]
  constructor
  · apply mul_le_mul_of_nonneg_right _ hpos.le
    have hscaled : ((2 ^ 23 : ℕ) : ℚ) ≤ |q / 2 ^ exponent q| := by
      rw [hquot, le_div_iff₀ hpos]
      rw [add_comm, zpow_add₀ (by norm_num)] at hlow
      exact_mod_cast hlow
    exact_mod_cast le_abs_roundEven hscaled
  · apply mul_le_mul_of_nonneg_right _ hpos.le
    have hscaled : |q / 2 ^ exponent q| < ((2 ^ 24 : ℤ) : ℚ) := by
      rw [hquot, div_lt_iff₀ hpos]
      have hhigh := lt_zpow_exponent q
      rw [add_comm, zpow_add₀ (by norm_num)] at hhigh
      exact_mod_cast hhigh
    exact_mod_cast abs_roundEven_le hscaled

/-- Where the last place weighs less than a millionth, the decimal can be told from the number. -/
theorem nearestDecimal_nearest_of_fine {d : ℚ} (hd : Decimal d) (he : exponent d ≤ -20) :
    nearestDecimal (nearest d) = d := by
  apply nearestDecimal_eq hd
  have hpow : (2 : ℚ) ^ exponent d ≤ 2 ^ (-20 : ℤ) := zpow_le_zpow_right₀ (by norm_num) he
  calc |nearest d - d| = |d - nearest d| := abs_sub_comm _ _
    _ ≤ 2 ^ exponent d / 2 := abs_sub_nearest d
    _ ≤ 2 ^ (-20 : ℤ) / 2 := div_le_div_of_nonneg_right hpow (by norm_num)
    _ < 1 / (2 * 10 ^ 6) := by norm_num

/-- Where it weighs more, the nearest decimal is nearer to the number than half of the last place. -/
theorem nearest_nearestDecimal_of_coarse {d : ℚ} (he : -19 ≤ exponent d) :
    nearest (nearestDecimal (nearest d)) = nearest d := by
  obtain ⟨e, hexp⟩ : ∃ e, e = exponent d := ⟨_, rfl⟩
  obtain ⟨m, hm⟩ : ∃ m, m = roundEven (d / 2 ^ e) := ⟨_, rfl⟩
  have hr : nearest d = m * 2 ^ e := by rw [nearest, ← hexp, ← hm]
  have hpos : (0 : ℚ) < 2 ^ e := zpow_pos (by norm_num) e
  rw [← hexp] at he
  obtain ⟨k, hk⟩ := Int.le.dest he
  -- the bounds of the binade are whole numbers
  have hlow : (2 : ℚ) ^ (e + 23) = (2 ^ (k + 4) : ℕ) := by
    rw [show e + 23 = ((k + 4 : ℕ) : ℤ) by push_cast; omega, zpow_natCast]
    push_cast
    rfl
  have hhigh : (2 : ℚ) ^ (e + 24) = (2 ^ (k + 5) : ℕ) := by
    rw [show e + 24 = ((k + 5 : ℕ) : ℤ) by push_cast; omega, zpow_natCast]
    push_cast
    rfl
  obtain ⟨hrlow, hrhigh⟩ := abs_nearest_bounds (hexp ▸ he.trans' (by norm_num) : -22 ≤ exponent d)
  rw [← hexp, hlow] at hrlow
  rw [← hexp, hhigh] at hrhigh
  have hdlow := natCast_le_nearestDecimal hrlow
  have hdhigh := nearestDecimal_le_natCast hrhigh
  have hnear : |nearestDecimal (nearest d) - nearest d| < 2 ^ e / 2 := by
    have hpow : (2 : ℚ) ^ (-19 : ℤ) ≤ 2 ^ e := zpow_le_zpow_right₀ (by norm_num) he
    calc |nearestDecimal (nearest d) - nearest d| ≤ 1 / (2 * 10 ^ 6) := abs_sub_nearestDecimal _
      _ < 2 ^ (-19 : ℤ) / 2 := by norm_num
      _ ≤ 2 ^ e / 2 := div_le_div_of_nonneg_right hpow (by norm_num)
  rcases hdhigh.lt_or_eq with hlt | heq
  · have hexp' : exponent (nearestDecimal (nearest d)) = e :=
      exponent_eq (by omega) (hlow ▸ hdlow) (hhigh ▸ hlt)
    exact nearest_eq (hexp' ▸ hr) (hexp' ▸ hnear)
  · -- a power of two is a multiple of the last place, and the only one so near
    obtain ⟨n, hn⟩ : ∃ n : ℤ, nearestDecimal (nearest d) = n * 2 ^ e := by
      have hpower : (2 : ℚ) ^ (e + 24) = ((2 ^ 24 : ℤ) : ℚ) * 2 ^ e := by
        rw [add_comm, zpow_add₀ (by norm_num)]
        norm_num
      rcases (abs_eq (by positivity)).mp heq with heq | heq
      · exact ⟨2 ^ 24, by rw [heq, ← hhigh, hpower]⟩
      · exact ⟨-2 ^ 24, by rw [heq, ← hhigh, hpower, Int.cast_neg, neg_mul]⟩
    have hunit : |((n - m : ℤ) : ℚ)| < 1 / 2 := by
      rw [hn, hr, ← sub_mul, abs_mul, abs_of_pos hpos, ← lt_div_iff₀ hpos] at hnear
      push_cast
      calc |(n : ℚ) - m| < 2 ^ e / 2 / 2 ^ e := hnear
        _ = 1 / 2 := by field_simp
    have hzero : n = m := by
      have hround := roundEven_eq (q := ((n - m : ℤ) : ℚ)) (n := 0) (by simpa using hunit)
      rw [roundEven_intCast] at hround
      exact sub_eq_zero.mp hround
    rw [hn, hzero, ← hr, nearest_nearest]

/-- Writing and reading with six places does not change the nearest number to such a decimal. -/
theorem sixPlaces_ofRat {d : ℚ} (hd : Decimal d) : (ofRat d).sixPlaces = ofRat d := by
  rcases hround : ofRat d with r | negative | _
  · rw [ofRat] at hround
    split at hround
    case isTrue => cases hround
    case isFalse hsmall =>
      obtain rfl := finite.inj hround
      have hnearest : nearest (nearestDecimal (nearest d)) = nearest d := by
        rcases le_or_gt (exponent d) (-20) with he | he
        · rw [nearestDecimal_nearest_of_fine hd he]
        · exact nearest_nearestDecimal_of_coarse he
      rw [sixPlaces, ofRat, hnearest, if_neg hsmall]
  · rfl
  · rfl

theorem ofRat_zero : ofRat 0 = finite 0 := by
  have hzero : nearest 0 = 0 := nearest_of_multiple (m := 0) (by simp)
  rw [ofRat, hzero, if_neg (by norm_num)]

theorem sixPlaces_zero : (finite 0).sixPlaces = finite 0 := by
  have hzero : Decimal 0 := ⟨0, by simp⟩
  have hround := sixPlaces_ofRat hzero
  rwa [ofRat_zero] at hround

/-- So what has been written and read once is not changed again. -/
theorem sixPlaces_sixPlaces (f : Binary32) : f.sixPlaces.sixPlaces = f.sixPlaces := by
  cases f with
  | finite q => exact sixPlaces_ofRat (decimal_nearestDecimal q)
  | infinite negative => rfl
  | nan => rfl

end Binary32

end CLanguage.Lib
