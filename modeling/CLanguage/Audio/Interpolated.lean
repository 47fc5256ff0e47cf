import CLanguage.Audio.Frame
import CLanguage.Lib.TruncatedDivision
import CLanguage.Lib.TwosComplement

/-!
# Interpolated samples

Samples are signed numbers. `calcu_frame` collects the bytes of a sample without the sign
unless there are four of them, and multiplies with 32 bits. `interpolates_iff` is the condition
under which the bytes that it stores are nevertheless those of the sample in between.
-/

namespace CLanguage.Audio

open Lib

/-- The bytes of the sample for channel `j`. -/
def sampleAt (bytesPerSample j : ℕ) (frame : List UInt8) : List UInt8 :=
  (frame.drop (j * bytesPerSample)).take bytesPerSample

/-- The sample at `k` parts in `f` of the way from `c` to `d`. -/
def interpolated (f k : ℕ) (c d : ℤ) : ℤ := c + ((d - c) * k).tdiv f

/-- What is to be stored for two samples: the sample in between, which lies between them. -/
def Interpolates (f k : ℕ) (previous input output : List UInt8) : Prop :=
  output = encoded previous.length (interpolated f k (signed previous) (signed input)) ∧
    min (signed previous) (signed input) ≤ signed output ∧
    signed output ≤ max (signed previous) (signed input)

/-- The condition for it, on the two samples: the product with `k` fits in 32 bits and the signs do
not matter, or both the sample in between and what is computed for it are the first sample. -/
def InterpolationExact (bytesPerSample f k : ℕ) (c d : ℤ) : Prop :=
  (-2 ^ 31 ≤ (d - c) * k ∧ (d - c) * k < 2 ^ 31 ∧
    ((0 ≤ c ↔ 0 ≤ d) ∨ bytesPerSample = 4 ∨ (bytesPerSample = 3 ∧ 256 ∣ k))) ∨
  (bytesPerSample = 1 ∧ |d - c| * k < f ∧ (256 - |d - c|) * k < f)

/-! ### The bytes of a sample -/

/-- Collecting the bytes of a sample. -/
theorem toUInt32_sample (l : List UInt8) :
    (sample (frameOf l)).toUInt32 = UInt32.ofNat (ofBytes l) := by
  have hfrom : ∀ c : Int32, ((frameOf l).foldl (fun c a => c * 256 + a) c).toUInt32 =
      UInt32.ofNat (ofBytesFrom c.toUInt32.toNat l) := by
    induction l with
    | nil => simp [frameOf]
    | cons b l ih =>
      intro c
      have hword : (c * 256 + b.toUInt32.toInt32).toUInt32 = c.toUInt32 * 256 + b.toUInt32 := rfl
      rw [frameOf, List.map_cons, List.foldl_cons, ← frameOf, ih, hword, ofBytesFrom_cons,
        ofBytesFrom_eq, ofBytesFrom_eq (_ + _)]
      apply UInt32.toNat_inj.mp
      simp [Nat.add_mod, Nat.mul_mod]
  exact hfrom 0

theorem toInt_sample (l : List UInt8) :
    (sample (frameOf l)).toInt = (ofBytes l : ℤ).bmod (2 ^ 32) := by
  have hword : sample (frameOf l) = Int32.ofNat (ofBytes l) := by
    rw [← Int32.toInt32_toUInt32 (sample (frameOf l)), toUInt32_sample]
    rfl
  rw [hword, Int32.toInt_ofNat']
  rfl

private theorem shift_place : ∀ n < 32, (Int32.ofNat n).toBitVec.smod 32 = BitVec.ofNat 32 n ∧
    (UInt32.ofNat n).toBitVec % 32 = BitVec.ofNat 32 n := by
  decide

/-- A left shift is the same with and without a sign. -/
theorem toInt32_shiftLeft (e : Int32) {n : ℕ} (hn : n < 32) :
    e <<< Int32.ofNat n = (e.toUInt32 <<< UInt32.ofNat n).toInt32 := by
  obtain ⟨hsigned, hunsigned⟩ := shift_place n hn
  have hleft : (e <<< Int32.ofNat n).toBitVec =
      e.toBitVec <<< (Int32.ofNat n).toBitVec.smod 32 := rfl
  have hright : (e.toUInt32 <<< UInt32.ofNat n).toInt32.toBitVec =
      e.toBitVec <<< ((UInt32.ofNat n).toBitVec % 32) := rfl
  apply Int32.toBitVec_inj.mp
  rw [hleft, hright, hsigned, hunsigned]

/-- The bytes that the second loop stores. -/
theorem putchar_storeSample {w : ℕ} (hw : w ≤ 4) (e : Int32) :
    (storeSample w e).map putchar = toBytes w e.toUInt32.toNat := by
  rw [storeSample, toBytes_eq_map, List.map_map]
  refine List.map_congr_left fun j hj => ?_
  have hj : j < w := List.mem_range.mp hj
  have hs : (UInt32.ofNat (32 - 8 * w + 8 * j)).toNat = 8 * (3 - (w - 1 - j)) := by
    rw [UInt32.toNat_ofNat']
    omega
  rw [Function.comp_apply, toInt32_shiftLeft e (by omega), putchar_shiftRight,
    toUInt8_shift (by omega) hs]

/-! ### What is computed -/

/-- What `calcu_frame` computes from the bytes of two samples. -/
def computed (fac k : Int32) (previous input : List UInt8) : Int32 :=
  let c := sample (frameOf previous)
  let d := sample (frameOf input)
  c + (d - c) * k / fac

/-- The product that is divided, with 32 bits. -/
def product (k : ℕ) (previous input : List UInt8) : ℤ :=
  (((ofBytes input : ℤ) - ofBytes previous) * k).bmod (2 ^ 32)

theorem toInt_product {k : ℕ} (hk : k < 2 ^ 31) (previous input : List UInt8) :
    ((sample (frameOf input) - sample (frameOf previous)) * Int32.ofNat k).toInt =
      product k previous input := by
  rw [Int32.toInt_mul, Int32.toInt_sub, toInt_sample, toInt_sample, Int32.toInt_ofNat_of_lt hk,
    ← Int.sub_bmod, Int.bmod_mul_bmod, product]

theorem dvd_toNat_sub_toInt (e : Int32) : ((2 ^ 32 : ℕ) : ℤ) ∣ e.toUInt32.toNat - e.toInt := by
  have he : e.toInt = (e.toUInt32.toNat : ℤ).bmod (2 ^ 32) := BitVec.toInt_eq_toNat_bmod _
  rw [he]
  exact Int.dvd_self_sub_bmod

theorem dvd_computed {f k : ℕ} (hf : 0 < f) (hf' : f < 2 ^ 31) (hk : k < 2 ^ 31)
    (previous input : List UInt8) :
    ((2 ^ 32 : ℕ) : ℤ) ∣ (computed (Int32.ofNat f) (Int32.ofNat k) previous input).toUInt32.toNat -
      (ofBytes previous + (product k previous input).tdiv f) := by
  have hfac : (Int32.ofNat f).toInt = f := Int32.toInt_ofNat_of_lt hf'
  have hne : Int32.ofNat f ≠ -1 := by
    intro h
    rw [h] at hfac
    have : (-1 : Int32).toInt = -1 := by decide
    omega
  have he : (computed (Int32.ofNat f) (Int32.ofNat k) previous input).toInt =
      ((ofBytes previous : ℤ) + (product k previous input).tdiv f).bmod (2 ^ 32) := by
    rw [computed, Int32.toInt_add, Int32.toInt_div_of_ne_right _ _ hne, toInt_product hk, hfac,
      toInt_sample, Int.bmod_add_bmod]
  have hword := dvd_toNat_sub_toInt (computed (Int32.ofNat f) (Int32.ofNat k) previous input)
  generalize (ofBytes previous : ℤ) + (product k previous input).tdiv f = e at he ⊢
  have hbmod : ((2 ^ 32 : ℕ) : ℤ) ∣ e.bmod (2 ^ 32) - e := Int.dvd_bmod_sub_self
  rw [he] at hword
  have hsum := dvd_add hword hbmod
  rwa [sub_add_sub_cancel] at hsum

/-- The bytes of what is computed are those of the sample in between if and only if the quotients
agree. -/
theorem toBytes_computed_iff {f k w : ℕ} (hf : 0 < f) (hf' : f < 2 ^ 31) (hk : k < 2 ^ 31)
    (hw : w ≤ 4)
    {previous input : List UInt8} (hp : previous.length = w) :
    toBytes w (computed (Int32.ofNat f) (Int32.ofNat k) previous input).toUInt32.toNat =
        encoded w (interpolated f k (signed previous) (signed input)) ↔
      (256 : ℤ) ^ w ∣ (product k previous input).tdiv f -
        ((signed input - signed previous) * k).tdiv f := by
  have hword : (256 : ℤ) ^ w ∣ ((2 ^ 32 : ℕ) : ℤ) :=
    ⟨256 ^ (4 - w), by rw [← pow_add, Nat.add_sub_cancel' hw]; rfl⟩
  have hcomputed := hword.trans (dvd_computed hf hf' hk previous input)
  have hprevious := dvd_ofBytes_sub_signed previous
  rw [hp] at hprevious
  rw [toBytes_eq_encoded_iff, interpolated]
  generalize ((computed _ _ previous input).toUInt32.toNat : ℤ) = e at hcomputed ⊢
  generalize (product k previous input).tdiv f = q at hcomputed ⊢
  generalize ((signed input - signed previous) * k).tdiv f = q'
  have hsplit : e - (signed previous + q') =
      (e - (ofBytes previous + q) + (ofBytes previous - signed previous)) + (q - q') := by ring
  rw [hsplit]
  exact Int.dvd_add_right (dvd_add hcomputed hprevious)

/-! ### The quotients -/

/-- A sample with and without its sign, with half the range `h`. -/
def Reads (h a c : ℤ) : Prop := 0 ≤ a ∧ (a < h ∧ c = a ∨ h ≤ a ∧ a < 2 * h ∧ c = a - 2 * h)

/-- The products with and without the signs. -/
theorem product_cases {h a b c d k : ℤ} (hk : 0 < k) (hc : Reads h a c) (hd : Reads h b d) :
    ((0 ≤ c ↔ 0 ≤ d) ∧ (d - c) * k = (b - a) * k ∧ -((h - 1) * k) ≤ (b - a) * k ∧
        (b - a) * k ≤ (h - 1) * k) ∨
      (0 ≤ c ∧ d < 0 ∧ (d - c) * k = (b - a) * k - 2 * h * k ∧ k ≤ (b - a) * k ∧
        (b - a) * k ≤ (2 * h - 1) * k) ∨
      (c < 0 ∧ 0 ≤ d ∧ (d - c) * k = (b - a) * k + 2 * h * k ∧ (b - a) * k ≤ -k ∧
        -((2 * h - 1) * k) ≤ (b - a) * k) := by
  obtain ⟨ha, ⟨ha', rfl⟩ | ⟨ha', ha'', rfl⟩⟩ := hc <;>
    obtain ⟨hb, ⟨hb', rfl⟩ | ⟨hb', hb'', rfl⟩⟩ := hd
  · exact .inl ⟨by omega, rfl, by nlinarith, by nlinarith⟩
  · exact .inr (.inl ⟨by omega, by omega, by ring, by nlinarith, by nlinarith⟩)
  · exact .inr (.inr ⟨by omega, by omega, by ring, by nlinarith, by nlinarith⟩)
  · exact .inl ⟨by omega, by ring, by nlinarith, by nlinarith⟩

/-- Reduction to 32 bits. -/
theorem bmod_word (p : ℤ) : ∃ j, p.bmod (2 ^ 32) = p - 4294967296 * j ∧
    -2147483648 ≤ p.bmod (2 ^ 32) ∧ p.bmod (2 ^ 32) < 2147483648 := by
  refine ⟨p.bdiv (2 ^ 32), Int.bmod_eq_self_sub_mul_bdiv p _, ?_, ?_⟩
  · exact Int.le_bmod (by decide)
  · exact Int.bmod_lt (by decide)

variable {f k : ℕ} {a b c d : ℤ}

theorem interpolationExact_one (f k : ℕ) (c d : ℤ) : InterpolationExact 1 f k c d ↔
    -2 ^ 31 ≤ (d - c) * k ∧ (d - c) * k < 2 ^ 31 ∧ (0 ≤ c ↔ 0 ≤ d) ∨
      |(d - c) * k| < f ∧ 256 * k - |(d - c) * k| < f := by
  have habs : |(d - c) * k| = |d - c| * (k : ℤ) := by rw [abs_mul, Nat.abs_cast]
  have hrest : (256 - |d - c|) * (k : ℤ) = 256 * k - |d - c| * k := sub_mul _ _ _
  rw [habs, InterpolationExact, hrest]
  simp

theorem interpolationExact_two (f k : ℕ) (c d : ℤ) : InterpolationExact 2 f k c d ↔
    -2 ^ 31 ≤ (d - c) * k ∧ (d - c) * k < 2 ^ 31 ∧ (0 ≤ c ↔ 0 ≤ d) := by
  simp [InterpolationExact]

theorem interpolationExact_three (f k : ℕ) (c d : ℤ) : InterpolationExact 3 f k c d ↔
    -2 ^ 31 ≤ (d - c) * k ∧ (d - c) * k < 2 ^ 31 ∧ ((0 ≤ c ↔ 0 ≤ d) ∨ 256 ∣ k) := by
  simp [InterpolationExact]

theorem interpolationExact_four (f k : ℕ) (c d : ℤ) : InterpolationExact 4 f k c d ↔
    -2 ^ 31 ≤ (d - c) * k ∧ (d - c) * k < 2 ^ 31 := by
  simp [InterpolationExact]

/-- In two or more bytes the quotients agree only where the products do. -/
theorem dvd_quotients_iff {h r : ℤ} (hr : h * r = 2147483648) (hf : f ≤ h) (hk : 0 < k)
    (hkf : k < f) (hc : Reads h a c) (hd : Reads h b d) :
    2 * h ∣ (((b - a) * k).bmod (2 ^ 32)).tdiv f - ((d - c) * k).tdiv f ↔
      ((b - a) * k).bmod (2 ^ 32) = (d - c) * k := by
  have hcases := product_cases (show (0 : ℤ) < k by omega) hc hd
  obtain ⟨j, hj, hlow, hhigh⟩ := bmod_word ((b - a) * k)
  generalize ((b - a) * (k : ℤ)).bmod (2 ^ 32) = n at hj hlow hhigh ⊢
  generalize (b - a) * (k : ℤ) = p at hcases hj
  generalize (d - c) * (k : ℤ) = n' at hcases ⊢
  have hh : 0 < h := by omega
  have hword : 2 * h * (r * j) = 4294967296 * j := by
    rw [← mul_assoc, mul_assoc 2, hr]
    rfl
  have hprod : h * k < h * f := mul_lt_mul_of_pos_left (by omega) hh
  rw [sub_mul, sub_mul, mul_assoc, one_mul] at hcases
  -- `n` and `p` are `r * j` multiples of `2 * h` apart, and `p` and `n'` are 0 or `k`
  obtain ⟨u, hu, hu'⟩ : ∃ u, n - n' = 2 * h * u ∧ |h * u| < h * f := by
    rcases hcases with ⟨-, hx, hp, hp'⟩ | ⟨-, -, hx, hp, hp'⟩ | ⟨-, -, hx, hp, hp'⟩
    · refine ⟨-(r * j), ?_, abs_lt.mpr ?_⟩
      · rw [mul_neg]
        omega
      · rw [mul_neg]
        rw [mul_assoc] at hword
        omega
    · refine ⟨k - r * j, ?_, abs_lt.mpr ?_⟩
      · rw [mul_sub, mul_assoc 2 h k]
        omega
      · rw [mul_sub]
        rw [mul_assoc] at hword
        omega
    · refine ⟨-k - r * j, ?_, abs_lt.mpr ?_⟩
      · rw [mul_sub, mul_neg, mul_assoc 2 h k]
        omega
      · rw [mul_sub, mul_neg]
        rw [mul_assoc] at hword
        omega
  rw [abs_mul, abs_of_pos hh] at hu'
  obtain ⟨hlow', hhigh'⟩ := abs_lt.mp (lt_of_mul_lt_mul_left hu' hh.le)
  exact dvd_tdiv_sub_iff (by omega) (by omega) hu hlow' hhigh'

/-- The products agree where the second one has 32 bits and the signs do not matter. -/
theorem product_eq_iff {h : ℤ} (hk : 0 < k) (hc : Reads h a c) (hd : Reads h b d) :
    ((b - a) * k).bmod (2 ^ 32) = (d - c) * k ↔
      -2 ^ 31 ≤ (d - c) * k ∧ (d - c) * k < 2 ^ 31 ∧
        ((0 ≤ c ↔ 0 ≤ d) ∨ 4294967296 ∣ 2 * h * k) := by
  have hcases := product_cases (show (0 : ℤ) < k by omega) hc hd
  obtain ⟨j, hj, hlow, hhigh⟩ := bmod_word ((b - a) * k)
  generalize ((b - a) * (k : ℤ)).bmod (2 ^ 32) = n at hj hlow hhigh ⊢
  generalize (b - a) * (k : ℤ) = p at hcases hj
  generalize (d - c) * (k : ℤ) = n' at hcases ⊢
  generalize 2 * h * (k : ℤ) = e at hcases ⊢
  rcases hcases with ⟨hsign, hx, -⟩ | ⟨hsign, hsign', hx, -⟩ | ⟨hsign, hsign', hx, -⟩
  · omega
  · omega
  · omega

theorem exact_iff {h r : ℤ} (hr : h * r = 2147483648) (hf : f ≤ h) (hk : 0 < k) (hkf : k < f)
    (hc : Reads h a c) (hd : Reads h b d) :
    2 * h ∣ (((b - a) * k).bmod (2 ^ 32)).tdiv f - ((d - c) * k).tdiv f ↔
      -2 ^ 31 ≤ (d - c) * k ∧ (d - c) * k < 2 ^ 31 ∧
        ((0 ≤ c ↔ 0 ≤ d) ∨ 4294967296 ∣ 2 * h * k) :=
  (dvd_quotients_iff hr hf hk hkf hc hd).trans (product_eq_iff hk hc hd)

theorem exact_one (hf : f ≤ 1024) (hk : 0 < k) (hkf : k < f) (hc : Reads 128 a c)
    (hd : Reads 128 b d) :
    256 ∣ (((b - a) * k).bmod (2 ^ 32)).tdiv f - ((d - c) * k).tdiv f ↔
      InterpolationExact 1 f k c d := by
  have hcases := product_cases (show (0 : ℤ) < k by omega) hc hd
  obtain ⟨j, hj, hlow, hhigh⟩ := bmod_word ((b - a) * k)
  rw [interpolationExact_one]
  generalize ((b - a) * (k : ℤ)).bmod (2 ^ 32) = n at hj hlow hhigh ⊢
  generalize (b - a) * (k : ℤ) = p at hcases hj
  generalize (d - c) * (k : ℤ) = n' at hcases ⊢
  -- the product is small enough
  obtain rfl : n = p := by omega
  rcases hcases with ⟨hsign, hx, hp, hp'⟩ | ⟨hsign, hsign', hx, hp, hp'⟩ |
    ⟨hsign, hsign', hx, hp, hp'⟩
  · rw [hx, sub_self]
    exact iff_of_true (dvd_zero _) (by omega)
  · rw [dvd_tdiv_sub_iff_of_sign (by omega) (by omega) (by omega) (by omega),
      abs_of_neg (show n' < 0 by omega)]
    omega
  · rw [dvd_sub_comm, dvd_tdiv_sub_iff_of_sign (by omega) (by omega) (by omega) (by omega),
      abs_of_pos (show 0 < n' by omega)]
    omega

/-! ### Samples and frames -/

/-- A sample is read with or without its sign. -/
theorem reads_sample {l : List UInt8} {w : ℕ} {h : ℤ} (hl : l.length = w) (hh : 256 ^ w = 2 * h) :
    Reads h (ofBytes l) (signed l) := by
  have hbytes : (ofBytes l : ℤ) < 256 ^ w := by
    rw [← natCast_pow_bytes, ← hl]
    exact Int.ofNat_lt.mpr (ofBytes_lt l)
  have hbounds := signed_bounds l
  have hdvd := dvd_ofBytes_sub_signed l
  rw [hl, hh] at hbounds hdvd
  rw [hh] at hbytes
  obtain ⟨q, hq⟩ := hdvd
  have hfar := mul_eq_zero_or_far (show 0 < 2 * h by omega) q
  have hfar' := mul_eq_zero_or_far (show 0 < 2 * h by omega) (q - 1)
  rw [mul_sub, mul_one] at hfar'
  refine ⟨Int.natCast_nonneg _, ?_⟩
  omega

theorem interpolated_between {f k : ℕ} (hf : 0 < f) (hkf : k ≤ f) (c d : ℤ) :
    min c d ≤ interpolated f k c d ∧ interpolated f k c d ≤ max c d := by
  obtain ⟨r, hsplit, hr, hr', hpos, hneg⟩ := tdiv_remainder ((d - c) * k) (f := f) (by omega)
  rw [interpolated]
  generalize ((d - c) * (k : ℤ)).tdiv f = q at hsplit hpos hneg ⊢
  rcases le_total c d with h | h
  · have hn : 0 ≤ (d - c) * k := by nlinarith
    obtain ⟨hr, hq⟩ := hpos hn
    have hle : q ≤ d - c := by nlinarith
    rw [min_eq_left h, max_eq_right h]
    omega
  · have hn : (d - c) * k ≤ 0 := by nlinarith
    obtain ⟨hr, hq⟩ := hneg hn
    have hge : d - c ≤ q := by nlinarith
    rw [min_eq_right h, max_eq_left h]
    omega

/-- A sample is stored right if and only if the quotient is right. -/
theorem interpolates_iff_eq {f k : ℕ} (hf : 0 < f) (hkf : k ≤ f) {previous input output : List UInt8}
    (hlength : input.length = previous.length) :
    Interpolates f k previous input output ↔
      output = encoded previous.length (interpolated f k (signed previous) (signed input)) := by
  refine ⟨And.left, fun h => ⟨h, ?_⟩⟩
  have hbetween := interpolated_between hf hkf (signed previous) (signed input)
  obtain ⟨hlow, hhigh⟩ := signed_bounds previous
  obtain ⟨hlow', hhigh'⟩ := signed_bounds input
  rw [hlength] at hlow' hhigh'
  rw [h, signed_encoded (by omega) (by omega)]
  exact hbetween

/-- The sample that `calcu_frame` computes, for one channel. -/
theorem interpolates_sample_iff {w f k : ℕ} {previous input : List UInt8} (hw : 1 ≤ w)
    (hw' : w ≤ 4) (hf : 2 ≤ f) (hf' : f ≤ 1024) (hk : 0 < k) (hkf : k < f)
    (hp : previous.length = w) (hi : input.length = w) :
    Interpolates f k previous input
        (toBytes w (computed (Int32.ofNat f) (Int32.ofNat k) previous input).toUInt32.toNat) ↔
      InterpolationExact w f k (signed previous) (signed input) := by
  rw [interpolates_iff_eq (by omega) hkf.le (hi.trans hp.symm), hp,
    toBytes_computed_iff (by omega) (by omega) (by omega) hw' hp, product]
  obtain rfl | rfl | rfl | rfl : w = 1 ∨ w = 2 ∨ w = 3 ∨ w = 4 := by omega
  · exact exact_one hf' hk hkf (reads_sample hp (by norm_num)) (reads_sample hi (by norm_num))
  · have hexact := exact_iff (r := 65536) (by norm_num) (by omega) hk hkf
      (reads_sample (h := 32768) hp (by norm_num)) (reads_sample hi (by norm_num))
    rw [interpolationExact_two]
    exact hexact.trans (by omega)
  · have hexact := exact_iff (r := 256) (by norm_num) (by omega) hk hkf
      (reads_sample (h := 8388608) hp (by norm_num)) (reads_sample hi (by norm_num))
    rw [interpolationExact_three]
    exact hexact.trans (by omega)
  · have hexact := exact_iff (r := 1) (by norm_num) (by omega) hk hkf
      (reads_sample (h := 2147483648) hp (by norm_num)) (reads_sample hi (by norm_num))
    rw [interpolationExact_four]
    exact hexact.trans (by omega)

theorem sampleAt_zero (w : ℕ) (l : List UInt8) : sampleAt w 0 l = l.take w := by
  rw [sampleAt, Nat.zero_mul, List.drop_zero]

theorem sampleAt_succ (w j : ℕ) (l : List UInt8) :
    sampleAt w (j + 1) l = sampleAt w j (l.drop w) := by
  rw [sampleAt, sampleAt, List.drop_drop, Nat.succ_mul, Nat.add_comm]

theorem length_sampleAt {w j channels : ℕ} {l : List UInt8} (hj : j < channels)
    (hl : l.length = channels * w) : (sampleAt w j l).length = w := by
  have hle : (j + 1) * w ≤ channels * w := Nat.mul_le_mul_right w hj
  rw [Nat.succ_mul] at hle
  rw [sampleAt, List.length_take, List.length_drop]
  omega

/-- The bytes that are stored for channel `j`. -/
theorem sampleAt_calcuFrame {w : ℕ} (hw : w ≤ 4) (channels j : ℕ) (hj : j < channels)
    (previous input : List UInt8) (fac k : Int32) :
    sampleAt w j ((calcuFrame channels w (frameOf previous) (frameOf input) fac k).map putchar) =
      toBytes w (computed fac k (sampleAt w j previous) (sampleAt w j input)).toUInt32.toNat := by
  induction channels generalizing j previous input with
  | zero => exact absurd hj (Nat.not_lt_zero j)
  | succ channels ih =>
    have htake (l : List UInt8) : (frameOf l).take w = frameOf (l.take w) := List.map_take.symm
    have hdrop (l : List UInt8) : (frameOf l).drop w = frameOf (l.drop w) := List.map_drop.symm
    have hstored := putchar_storeSample hw (computed fac k (previous.take w) (input.take w))
    have hlength : ((storeSample w (computed fac k (previous.take w) (input.take w))).map
        putchar).length = w := by rw [hstored, length_toBytes]
    rw [calcuFrame, htake, htake, hdrop, hdrop]
    change sampleAt w j ((storeSample w (computed fac k (previous.take w) (input.take w)) ++ _).map
      putchar) = _
    rw [List.map_append]
    cases j with
    | zero =>
      rw [sampleAt_zero, sampleAt_zero, sampleAt_zero, List.take_left' hlength, hstored]
    | succ j =>
      rw [sampleAt_succ, sampleAt_succ, sampleAt_succ, List.drop_left' hlength]
      exact ih j (Nat.lt_of_succ_lt_succ hj) _ _

/-- The frame that `calcu_frame` computes has the samples in between if and only if the condition
holds for each channel. -/
theorem interpolates_iff {channels w f k : ℕ} {previous input : List UInt8} (hw : 1 ≤ w)
    (hw' : w ≤ 4) (hf : 2 ≤ f) (hf' : f ≤ 1024) (hk : 0 < k) (hkf : k < f)
    (hprevious : previous.length = channels * w) (hinput : input.length = channels * w) :
    (∀ j < channels, Interpolates f k (sampleAt w j previous) (sampleAt w j input)
      (sampleAt w j (writeFrame (channels * w)
        (calcuFrame channels w (frameOf previous) (frameOf input) (Int32.ofNat f)
          (Int32.ofNat k))))) ↔
      ∀ j < channels, InterpolationExact w f k (signed (sampleAt w j previous))
        (signed (sampleAt w j input)) := by
  refine forall_congr' fun j => forall_congr' fun hj => ?_
  have hp := length_sampleAt hj hprevious
  have hi := length_sampleAt hj hinput
  have hwritten : writeFrame (channels * w) (calcuFrame channels w (frameOf previous)
      (frameOf input) (Int32.ofNat f) (Int32.ofNat k)) = (calcuFrame channels w (frameOf previous)
        (frameOf input) (Int32.ofNat f) (Int32.ofNat k)).map putchar := by
    rw [writeFrame, List.take_of_length_le (length_calcuFrame _ _ _ _ _ _).le]
  rw [hwritten, sampleAt_calcuFrame hw' channels j hj]
  exact interpolates_sample_iff hw hw' hf hf' hk hkf hp hi

theorem interpolates_iff_example :
    Interpolates 2 1 (sampleAt 1 0 [250]) (sampleAt 1 0 [240])
      (sampleAt 1 0 (writeFrame (1 * 1)
        (calcuFrame 1 1 (frameOf [250]) (frameOf [240]) (Int32.ofNat 2) (Int32.ofNat 1)))) := by
  refine (interpolates_iff (by decide) (by decide) (by decide) (by decide) (by decide) (by decide)
    rfl rfl).mpr (fun j hj => ?_) 0 Nat.zero_lt_one
  obtain rfl : j = 0 := Nat.lt_one_iff.mp hj
  exact .inl (by decide_cbv)

/-- Between the samples -1 and 1 there is -128. -/
theorem interpolates_differs :
    ¬ ∀ j < 1, Interpolates 2 1 (sampleAt 1 j [255]) (sampleAt 1 j [1])
      (sampleAt 1 j (writeFrame (1 * 1)
        (calcuFrame 1 1 (frameOf [255]) (frameOf [1]) (Int32.ofNat 2) (Int32.ofNat 1)))) := by
  intro h
  have hstored := (h 0 Nat.zero_lt_one).1
  exact absurd hstored (by decide_cbv)

end CLanguage.Audio
