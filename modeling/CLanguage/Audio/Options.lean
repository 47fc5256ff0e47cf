import CLanguage.Audio.Recode

/-!
# The options word

`Mode.options` is the word with the bit of a mode, its parameter and the bit of
`-p`; the lemmas say what `recode` reads from it.
-/

namespace CLanguage.Audio

/-- A mode with its parameter. -/
inductive Mode
  | speedup (factor : ℕ)
  | slowdown (factor : ℕ)
  | crypt (key : UInt32)

/-- The options word for a mode under `-p`. -/
def Mode.options : Mode → UInt64
  | .speedup factor =>
    (1 : UInt64) <<< 62 ||| UInt64.ofNat (factor - 1) <<< 48 ||| (1 : UInt64) <<< 59
  | .slowdown factor =>
    (1 : UInt64) <<< 61 ||| UInt64.ofNat (factor - 1) <<< 48 ||| (1 : UInt64) <<< 59
  | .crypt key => (1 : UInt64) <<< 60 ||| key.toUInt64 ||| (1 : UInt64) <<< 59

theorem hasOption_iff (options : UInt64) {b : ℕ} (hb : b < 64) :
    hasOption options (UInt64.ofNat b) ↔ options.toNat.testBit b = true := by
  have hbit : (1 : UInt64) <<< UInt64.ofNat b = UInt64.ofNat (2 ^ b) := by
    apply UInt64.toNat_inj.mp
    have h : b % 2 ^ 64 % 64 = b := by omega
    rw [UInt64.toNat_shiftLeft, UInt64.toNat_ofNat', h, UInt64.toNat_ofNat', Nat.shiftLeft_eq]
    simp
  have hlt : 2 ^ b < 2 ^ 64 := Nat.pow_lt_pow_right (by decide) hb
  rw [hasOption, hbit, Ne, ← UInt64.toNat_inj, UInt64.toNat_and, UInt64.toNat_ofNat_of_lt' hlt,
    Nat.and_two_pow]
  cases options.toNat.testBit b <;> simp

/-- The bits of the mode, the factor and `-p` do not overlap. -/
private theorem toNat_word {b x : ℕ} (hb : b = 61 ∨ b = 62) (hx : x < 1024) :
    ((1 : UInt64) <<< UInt64.ofNat b ||| UInt64.ofNat x <<< 48 ||| (1 : UInt64) <<< 59).toNat =
      2 ^ b + (2 ^ 59 + x * 2 ^ 48) := by
  have hfactor : (UInt64.ofNat x <<< 48).toNat = x * 2 ^ 48 := by
    rw [UInt64.toNat_shiftLeft, UInt64.toNat_ofNat', Nat.shiftLeft_eq]
    simp only [UInt64.reduceToNat, Nat.reduceMod, Nat.reducePow]
    omega
  have hmode : ((1 : UInt64) <<< UInt64.ofNat b).toNat = 2 ^ b := by
    rcases hb with rfl | rfl <;> rfl
  have hkeep : ((1 : UInt64) <<< 59).toNat = 2 ^ 59 := rfl
  have hlow : x * 2 ^ 48 < 2 ^ 59 := by omega
  have hhigh : 2 ^ 59 + x * 2 ^ 48 < 2 ^ b := by
    rcases hb with rfl | rfl <;> omega
  have hor := Nat.two_pow_add_eq_or_of_lt hlow 1
  have hor' := Nat.two_pow_add_eq_or_of_lt hhigh 1
  rw [Nat.mul_one] at hor hor'
  rw [UInt64.toNat_or, UInt64.toNat_or, hfactor, hmode, hkeep, Nat.or_assoc,
    Nat.or_comm (x * 2 ^ 48), ← hor, ← hor']

/-- The factor is read back from its ten bits. -/
private theorem factor_of_toNat {w : UInt64} {x : ℕ} (h : w.toNat / 2 ^ 48 % 2 ^ 10 = x) :
    factor w = Int32.ofNat (x + 1) := by
  have hshift : (w <<< 6 >>> 54).toNat = x := by
    rw [UInt64.toNat_shiftRight, UInt64.toNat_shiftLeft, Nat.shiftLeft_eq,
      Nat.shiftRight_eq_div_pow]
    simp only [UInt64.reduceToNat, Nat.reduceMod, Nat.reducePow]
    omega
  have hword : w <<< 6 >>> 54 = UInt64.ofNat x := by
    rw [← hshift, UInt64.ofNat_toNat]
  rw [factor, hword, UInt64.toUInt32_add, UInt64.toUInt32_ofNat', UInt32.toInt32_add,
    UInt32.toInt32_ofNat', Int32.ofNat_add]
  rfl

/-- What is read from the word of a mode with a factor. -/
private theorem read_word {b f : ℕ} {w : UInt64} (hb : b = 61 ∨ b = 62) (hpos : 1 ≤ f)
    (hmax : f ≤ 1024)
    (hw : w = (1 : UInt64) <<< UInt64.ofNat b ||| UInt64.ofNat (f - 1) <<< 48 |||
      (1 : UInt64) <<< 59) :
    (hasOption w 62 ↔ b = 62) ∧ (hasOption w 61 ↔ b = 61) ∧ hasOption w 59 ∧
      factor w = Int32.ofNat f := by
  have hvalue : w.toNat = 2 ^ b + (2 ^ 59 + (f - 1) * 2 ^ 48) :=
    hw ▸ toNat_word hb (show f - 1 < 1024 by omega)
  have hbit (i : ℕ) (hi : i < 64) :
      hasOption w (UInt64.ofNat i) ↔ (2 ^ b + (2 ^ 59 + (f - 1) * 2 ^ 48)) / 2 ^ i % 2 = 1 := by
    rw [hasOption_iff w hi, hvalue, Nat.testBit_eq_decide_div_mod_eq, decide_eq_true_iff]
  refine ⟨(hbit 62 (by decide)).trans ?_, (hbit 61 (by decide)).trans ?_,
    (hbit 59 (by decide)).mpr ?_, ?_⟩
  · rcases hb with rfl | rfl <;> omega
  · rcases hb with rfl | rfl <;> omega
  · rcases hb with rfl | rfl <;> omega
  · rw [factor_of_toNat (x := f - 1), Nat.sub_add_cancel hpos]
    rw [hvalue]
    rcases hb with rfl | rfl <;> omega

theorem options_speedup {f : ℕ} (hpos : 1 ≤ f) (hmax : f ≤ 1024) :
    hasOption (Mode.speedup f).options 62 ∧ hasOption (Mode.speedup f).options 59 ∧
      factor (Mode.speedup f).options = Int32.ofNat f := by
  obtain ⟨h62, -, h59, hfactor⟩ := read_word (b := 62) (.inr rfl) hpos hmax rfl
  exact ⟨h62.mpr rfl, h59, hfactor⟩

theorem options_slowdown {f : ℕ} (hpos : 1 ≤ f) (hmax : f ≤ 1024) :
    ¬ hasOption (Mode.slowdown f).options 62 ∧ hasOption (Mode.slowdown f).options 61 ∧
      hasOption (Mode.slowdown f).options 59 ∧
      factor (Mode.slowdown f).options = Int32.ofNat f := by
  obtain ⟨h62, h61, h59, hfactor⟩ := read_word (b := 61) (.inl rfl) hpos hmax rfl
  exact ⟨mt h62.mp (by decide), h61.mpr rfl, h59, hfactor⟩

private theorem key_crypt (k : UInt32) : key (Mode.crypt k).options = k := by
  have hk := k.toNat_lt
  have hvalue : (Mode.crypt k).options.toNat = 2 ^ 60 ||| k.toNat ||| 2 ^ 59 := by
    simp [Mode.options]
  have hlow : (2 ^ 60 ||| k.toNat ||| 2 ^ 59) % 2 ^ 32 = k.toNat := by
    rw [Nat.or_mod_two_pow, Nat.or_mod_two_pow, Nat.mod_eq_of_lt hk]
    simp
  have hshift : (key (Mode.crypt k).options).toNat =
      (Mode.crypt k).options.toNat * 2 ^ 32 % 2 ^ 64 / 2 ^ 32 % 2 ^ 32 := by
    simp [key, Nat.shiftLeft_eq, Nat.shiftRight_eq_div_pow]
  apply UInt32.toNat_inj.mp
  rw [hshift, hvalue]
  omega

theorem options_crypt (k : UInt32) :
    ¬ hasOption (Mode.crypt k).options 62 ∧ ¬ hasOption (Mode.crypt k).options 61 ∧
      hasOption (Mode.crypt k).options 60 ∧ hasOption (Mode.crypt k).options 59 ∧
      key (Mode.crypt k).options = k := by
  have hvalue : (Mode.crypt k).options.toNat = 2 ^ 60 ||| k.toNat ||| 2 ^ 59 := by
    simp [Mode.options]
  -- the key does not reach the bits of the modes
  have hhigh (b : ℕ) (hb : 32 ≤ b) : k.toNat.testBit b = false := by
    apply Nat.testBit_lt_two_pow
    exact Nat.lt_of_lt_of_le k.toNat_lt (Nat.pow_le_pow_right (by decide) hb)
  have h (b : ℕ) (hb : b < 64) := hasOption_iff (Mode.crypt k).options hb
  simp only [hvalue, Nat.testBit_or, Nat.testBit_two_pow] at h
  have h62 : ¬ hasOption (Mode.crypt k).options 62 := by
    intro hset
    exact absurd ((h 62 (by decide)).mp hset) (by simp [hhigh])
  have h61 : ¬ hasOption (Mode.crypt k).options 61 := by
    intro hset
    exact absurd ((h 61 (by decide)).mp hset) (by simp [hhigh])
  exact ⟨h62, h61, (h 60 (by decide)).mpr (by simp), (h 59 (by decide)).mpr (by simp),
    key_crypt k⟩

/-! ## What each mode does with the frames -/

theorem recodeAudio_speedup {f : ℕ} (hpos : 1 ≤ f) (hmax : f ≤ 1024) (hp : AudioHeader)
    (frames : List Frame) :
    recodeAudio (Mode.speedup f).options hp frames =
      some ({ hp with dataSize := hp.dataSize / (Int32.ofNat f).toUInt32 },
        speedup (Int32.ofNat f) hp.frameSize 0 frames) := by
  obtain ⟨hmode, -, hfactor⟩ := options_speedup hpos hmax
  rw [recodeAudio, if_pos hmode, hfactor]
  rfl

theorem recodeAudio_slowdown {f : ℕ} (hpos : 1 ≤ f) (hmax : f ≤ 1024) (hp : AudioHeader)
    (frames : List Frame) :
    recodeAudio (Mode.slowdown f).options hp frames =
      some ({ hp with dataSize := hp.dataSize * (Int32.ofNat f).toUInt32 },
        slowdown (Int32.ofNat f) hp.channels.toNat (hp.encoding - 1).toNat frames) := by
  obtain ⟨hno, hmode, -, hfactor⟩ := options_slowdown hpos hmax
  rw [recodeAudio, if_neg hno, if_pos hmode, hfactor]

theorem recodeAudio_crypt (k : UInt32) (hp : AudioHeader) (frames : List Frame) :
    recodeAudio (Mode.crypt k).options hp frames =
      some (hp, crypt hp.channels.toNat (hp.encoding - 1).toNat k.toUInt64 frames) := by
  obtain ⟨hno, hno', hmode, -, hkey⟩ := options_crypt k
  rw [recodeAudio, if_neg hno, if_neg hno', if_pos hmode, hkey]

/-! ## A stream -/

/-- The header of three 8-bit mono frames behind an annotation of eight bytes. -/
def shortHeader : AudioHeader := ⟨audioMagic, 32, 3, 2, 8000, 1⟩

/-- Three frames behind the annotation "hello". -/
def shortStream : List UInt8 :=
  writeHeader shortHeader ++ ([104, 101, 108, 108, 111, 0, 0, 0] ++ [10, 200, 30])

theorem accepts_shortStream (c : UInt8) :
    Accepts c shortStream shortHeader [104, 101, 108, 108, 111, 0, 0, 0] [10, 200, 30] := by
  apply accepts_iff.mpr
  have haccepted : shortHeader.Accepted := by
    constructor <;> decide_cbv
  exact ⟨haccepted, by decide_cbv, by decide, rfl, rfl⟩

end CLanguage.Audio
