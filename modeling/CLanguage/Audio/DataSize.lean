import CLanguage.Audio.Slowdown
import CLanguage.Audio.Crypt
import CLanguage.Lib.Outcome

/-!
# The data size that is written

The header is computed before the loops run. `-c` keeps the number of frames, but
`-u` keeps the frame at position 0 also when the factor does not divide the number
of frames, and `-d` writes nothing behind the last frame. `dataSize_exact` says
when the size in the header is nevertheless the number of bytes that follow.
-/

namespace CLanguage.Audio

open Lib

variable {c : UInt8} {input ap audio : List UInt8} {hp : AudioHeader} {f i : ℕ}
  {options : UInt64} {argv : List (List UInt8)}

/-- The factor of an options word is between 1 and 1024. -/
theorem factor_eq (options : UInt64) :
    ∃ f, 1 ≤ f ∧ f ≤ 1024 ∧ factor options = Int32.ofNat f ∧
      (factor options).toInt.toNat = f := by
  have hbits : (options <<< 6 >>> 54).toNat = options.toNat * 2 ^ 6 % 2 ^ 64 / 2 ^ 54 := by
    simp [Nat.shiftLeft_eq, Nat.shiftRight_eq_div_pow]
  have hlt : (options <<< 6 >>> 54).toNat < 1024 := by
    rw [hbits]
    omega
  have hfactor : factor options = (options <<< 6 >>> 54 + 1).toUInt32.toInt32 := rfl
  generalize options <<< 6 >>> 54 = x at hlt hfactor
  have hword : (x + 1).toUInt32 = UInt32.ofNat (x.toNat + 1) := by
    apply UInt32.toNat_inj.mp
    simp
  have hint : factor options = Int32.ofNat (x.toNat + 1) := by
    rw [hfactor, hword]
    rfl
  refine ⟨x.toNat + 1, Nat.succ_pos _, by omega, hint, ?_⟩
  rw [hint, Int32.toInt_ofNat_of_lt (by omega), Int.toNat_natCast]

/-! ## Counting the frames that are kept -/

/-- The frames that the loop of `-u` keeps of `n`, counted from `counter`. -/
def keptCount (factor : Int32) : Int32 → ℕ → ℕ
  | _, 0 => 0
  | counter, n + 1 => (if counter % factor = 0 then 1 else 0) + keptCount factor (counter + 1) n

theorem length_speedup (factor : Int32) {size : ℕ} (counter : Int32) {frames : List Frame}
    (hframes : ∀ fp ∈ frames, fp.length = size) :
    (speedup factor size counter frames).length =
      size * keptCount factor counter frames.length := by
  induction frames generalizing counter with
  | nil => rfl
  | cons fp frames ih =>
    have hwrite := length_writeFrame (hframes fp List.mem_cons_self)
    have hrest := ih (counter + 1) fun q hq => hframes q (List.mem_cons_of_mem fp hq)
    rw [speedup, List.length_append, hrest, List.length_cons, keptCount, Nat.mul_add]
    split
    · rw [hwrite, Nat.mul_one]
    · rw [List.length_nil, Nat.mul_zero]

theorem keptCount_add (factor counter : Int32) (n m : ℕ) :
    keptCount factor counter (n + m) =
      keptCount factor counter n + keptCount factor (counter + Int32.ofNat n) m := by
  induction n generalizing counter with
  | zero => simp [keptCount]
  | succ n ih =>
    have hcounter : counter + 1 + Int32.ofNat n = counter + Int32.ofNat (n + 1) := by
      rw [Int32.ofNat_add, Int32.add_assoc, Int32.add_comm 1]
      rfl
    rw [Nat.succ_add, keptCount, keptCount, ih, hcounter, Nat.add_assoc]

/-- Before the counter overflows, one frame is kept for each multiple that is begun. -/
theorem keptCount_low (hpos : 1 ≤ f) (hf : f ≤ 1024) {n : ℕ} (h : i + n ≤ 2 ^ 31) :
    keptCount (Int32.ofNat f) (Int32.ofNat i) n + (i + (f - 1)) / f = (i + n + (f - 1)) / f := by
  induction n generalizing i with
  | zero => simp [keptCount]
  | succ n ih =>
    have hnext : Int32.ofNat i + 1 = Int32.ofNat (i + 1) := by simp
    have hrest := ih (i := i + 1) (by omega)
    have hstep : (i + 1 + (f - 1)) / f = (i + (f - 1)) / f + if i % f = 0 then 1 else 0 := by
      rw [show i + 1 + (f - 1) = i + (f - 1) + 1 by omega, Nat.succ_div]
      simp only [show i + (f - 1) + 1 = i + f by omega, Nat.dvd_iff_mod_eq_zero,
        Nat.add_mod_right]
    rw [hstep] at hrest
    rw [keptCount, hnext, show i + (n + 1) = i + 1 + n by omega]
    simp only [counter_mod hf (show i < 2 ^ 31 by omega)]
    omega

/-- The test of the counter after it overflowed. -/
theorem counter_mod_high (hf : f ≤ 1024) (hi : 2 ^ 31 ≤ i) (hi' : i < 2 ^ 32) :
    Int32.ofNat i % Int32.ofNat f = 0 ↔ f ∣ 2 ^ 32 - i := by
  have hzero : (0 : Int32).toInt = 0 := by decide_cbv
  have hvalue : (Int32.ofNat i).toInt = -((2 ^ 32 - i : ℕ) : ℤ) := by
    have hsize : Int32.size = 2 ^ 32 := rfl
    rw [Int32.toInt_ofNat', Int.bmod_def, hsize]
    split <;> omega
  rw [← Int32.toInt_inj, Int32.toInt_mod, hvalue,
    Int32.toInt_ofNat_of_lt (show f < 2 ^ 31 by omega), hzero, Int.neg_tmod, neg_eq_zero,
    ← Int.ofNat_tmod, Nat.dvd_iff_mod_eq_zero]
  exact Int.natCast_eq_zero

theorem keptCount_high (hf : f ≤ 1024) {n : ℕ} (hi : 2 ^ 31 ≤ i)
    (h : i + n ≤ 2 ^ 32) :
    keptCount (Int32.ofNat f) (Int32.ofNat i) n + (2 ^ 32 - (i + n)) / f = (2 ^ 32 - i) / f := by
  induction n generalizing i with
  | zero => simp [keptCount]
  | succ n ih =>
    have hnext : Int32.ofNat i + 1 = Int32.ofNat (i + 1) := by simp
    have hrest := ih (i := i + 1) (by omega) (by omega)
    have hstep : (2 ^ 32 - i) / f = (2 ^ 32 - (i + 1)) / f + if f ∣ 2 ^ 32 - i then 1 else 0 := by
      rw [show 2 ^ 32 - i = 2 ^ 32 - (i + 1) + 1 by omega, Nat.succ_div]
    rw [keptCount, hnext, hstep, show i + (n + 1) = i + 1 + n by omega]
    simp only [counter_mod_high hf hi (show i < 2 ^ 32 by omega)]
    omega

/-- Up to 2 ^ 31 frames, the counts agree exactly where the factor divides the number of frames. -/
theorem kept_exact_low (hpos : 1 ≤ f) (hf : f ≤ 1024) {n size : ℕ} (hsize : 0 < size)
    (hn : n ≤ 2 ^ 31) :
    n * size / f = size * keptCount (Int32.ofNat f) (Int32.ofNat 0) n ↔ f ∣ n := by
  have hcount := keptCount_low (i := 0) hpos hf (n := n) (by omega)
  rw [Nat.zero_add, Nat.zero_add, Nat.div_eq_of_lt (show f - 1 < f by omega), Nat.add_zero] at hcount
  rw [hcount]
  constructor
  · intro heq
    -- the loop rounds up and the header down, so they differ unless the factor divides
    by_contra hdvd
    have hmod : n % f ≠ 0 := fun h => hdvd (Nat.dvd_of_mod_eq_zero h)
    have hceil : (n + (f - 1)) / f = n / f + 1 := by
      have hsplit := Nat.div_add_mod n f
      have hlt := Nat.mod_lt n hpos
      have hmul : f * (n / f + 1) = f * (n / f) + f := by ring
      rw [Nat.div_eq_iff hpos, Nat.mul_comm]
      constructor <;> omega
    have hless : n * size < size * (n / f + 1) * f := by
      have hlt : n < (n / f + 1) * f := by
        rw [Nat.mul_comm]
        exact Nat.lt_mul_div_succ n hpos
      calc n * size = size * n := Nat.mul_comm _ _
        _ < size * ((n / f + 1) * f) := Nat.mul_lt_mul_of_pos_left hlt hsize
        _ = size * (n / f + 1) * f := (Nat.mul_assoc _ _ _).symm
    have hdiv := (Nat.div_lt_iff_lt_mul hpos).mpr hless
    rw [hceil] at heq
    omega
  · rintro ⟨m, rfl⟩
    have hceil : (f * m + (f - 1)) / f = m := by
      rw [Nat.mul_add_div hpos, Nat.div_eq_of_lt (show f - 1 < f by omega), Nat.add_zero]
    rw [hceil, Nat.mul_assoc, Nat.mul_div_cancel_left _ hpos, Nat.mul_comm]

/-- The frames kept before and after the overflow at `m`, against the quotient of all of them. -/
private theorem overflow_count {f m n a b : ℕ} (hpos : 1 ≤ f) (hn : n ≤ 2 * m)
    (ha : a = (m + (f - 1)) / f) (hb : b + (2 * m - n) / f = m / f) :
    n / f = a + b ↔ (f ∣ m ∧ f ∣ n) ∨ (¬ f ∣ m ∧ n % f + f ≤ 2 * (m % f)) := by
  have hmsplit := Nat.div_add_mod m f
  have hnsplit := Nat.div_add_mod n f
  have hrsplit := Nat.div_add_mod (2 * m - n) f
  have hmlt := Nat.mod_lt m hpos
  have hnlt := Nat.mod_lt n hpos
  have hrlt := Nat.mod_lt (2 * m - n) hpos
  have ha' : a = m / f + if m % f = 0 then 0 else 1 := by
    rw [ha]
    split
    case isTrue h =>
      rw [← hmsplit, h, Nat.add_zero, Nat.mul_add_div hpos, Nat.div_eq_of_lt (show f - 1 < f by omega),
        Nat.mul_div_cancel_left _ hpos]
    case isFalse h =>
      have hmul : f * (m / f + 1) = f * (m / f) + f := by ring
      rw [Nat.div_eq_iff hpos, Nat.mul_comm]
      constructor <;> omega
  simp only [Nat.dvd_iff_mod_eq_zero]
  generalize m / f = q at *
  generalize n / f = p at *
  generalize (2 * m - n) / f = t at *
  generalize m % f = r at *
  generalize n % f = s at *
  generalize (2 * m - n) % f = u at *
  -- the quotients of the three numbers differ by at most 1 from each other
  obtain ⟨d, hd⟩ : ∃ d : ℤ, d = 2 * q - p - t := ⟨_, rfl⟩
  have hprod : (f : ℤ) * d = s + u - 2 * r := by
    have hm : (f * q : ℤ) + r = m := by exact_mod_cast hmsplit
    have hn' : (f * p : ℤ) + s = n := by exact_mod_cast hnsplit
    have hrest : (f * t : ℤ) + u + n = 2 * m := by
      have h : f * t + u + n = 2 * m := by omega
      exact_mod_cast h
    calc (f : ℤ) * d = 2 * (f * q) - f * p - f * t := by rw [hd]; ring
      _ = s + u - 2 * r := by omega
  have hupper : d < 2 := by
    by_contra h
    have hle : (f : ℤ) * 2 ≤ f * d := Int.mul_le_mul_of_nonneg_left (by omega) (by omega)
    omega
  have hlower : -2 < d := by
    by_contra h
    have hle : (f : ℤ) * d ≤ f * (-2) := Int.mul_le_mul_of_nonneg_left (by omega) (by omega)
    omega
  have hcases : d = -1 ∨ d = 0 ∨ d = 1 := by omega
  rcases hcases with h | h | h <;> subst d <;> rw [ha'] <;> rw [h] at hprod
  · rw [mul_neg_one] at hprod
    split <;> omega
  · rw [mul_zero] at hprod
    split <;> omega
  · rw [mul_one] at hprod
    split <;> omega

/-- Beyond 2 ^ 31 frames the counter restarts at a negative number. -/
theorem kept_exact_high (hpos : 1 ≤ f) (hf : f ≤ 1024) {n : ℕ} (hlow : 2 ^ 31 < n)
    (hhigh : n ≤ 2 ^ 32) :
    n / f = keptCount (Int32.ofNat f) (Int32.ofNat 0) n ↔
      (f ∣ 2 ^ 31 ∧ f ∣ n) ∨ (¬ f ∣ 2 ^ 31 ∧ n % f + f ≤ 2 * (2 ^ 31 % f)) := by
  obtain ⟨m, hm⟩ : ∃ m, m = 2 ^ 31 := ⟨_, rfl⟩
  obtain ⟨k, rfl⟩ : ∃ k, n = m + k := ⟨n - m, by omega⟩
  have hstart : Int32.ofNat 0 + Int32.ofNat m = Int32.ofNat m := Int32.zero_add _
  have hbefore := keptCount_low (i := 0) hpos hf (n := m) (by omega)
  have hafter := keptCount_high hf (i := m) (n := k) hm.ge (by omega)
  rw [Nat.zero_add, Nat.zero_add, Nat.div_eq_of_lt (show f - 1 < f by omega),
    Nat.add_zero] at hbefore
  rw [show 2 ^ 32 - m = m by omega, show 2 ^ 32 - (m + k) = 2 * m - (m + k) by omega] at hafter
  rw [keptCount_add, hstart, ← hm]
  exact overflow_count hpos (by omega) hbefore hafter

/-! ## The header and the audio bytes -/

/-- The numbers of frames `n` that `-u` with the factor `f` writes an exact size for. -/
def SpeedupExact (f n : ℕ) : Prop :=
  if n ≤ 2 ^ 31 then f ∣ n
  else (f ∣ 2 ^ 31 ∧ f ∣ n) ∨ (¬ f ∣ 2 ^ 31 ∧ n % f + f ≤ 2 * (2 ^ 31 % f))

instance (f n : ℕ) : Decidable (SpeedupExact f n) :=
  inferInstanceAs (Decidable (if n ≤ 2 ^ 31 then _ else _))

/-- The condition on the options word and the number of frames under which the data size that is
written is exact. -/
def DataSizeExact (options : UInt64) (n : ℕ) : Prop :=
  if hasOption options 62 then SpeedupExact (factor options).toInt.toNat n
  else if hasOption options 61 then n = 0 ∨ (factor options).toInt.toNat = 1
  else True

theorem annotationClosed_header {size' : UInt32} {hp' : AudioHeader} {built written : List UInt8}
    (h : annotationClosed hp built = .ok (hp', size', written)) :
    ∃ dataOffset, hp' = { hp with dataOffset := dataOffset } := by
  rw [annotationClosed] at h
  split at h
  case isTrue => exact absurd h nofun
  case isFalse =>
    rw [Except.ok.injEq, Prod.mk.injEq] at h
    exact ⟨_, h.1.symm⟩

/-- The output annotation changes the data offset at most. -/
theorem annotationBuilt_header {size size' : UInt32} {hp' : AudioHeader} {written : List UInt8}
    (h : annotationBuilt options argv hp size ap = .ok (hp', size', written)) :
    ∃ dataOffset, hp' = { hp with dataOffset := dataOffset } := by
  rw [annotationBuilt] at h
  split at h
  case isTrue =>
    rw [Except.ok.injEq, Prod.mk.injEq] at h
    exact ⟨hp.dataOffset, h.1.symm⟩
  case isFalse =>
    obtain ⟨line, -, hclose⟩ := bind_eq_ok h
    exact annotationClosed_header hclose

instance (options : UInt64) (n : ℕ) : Decidable (DataSizeExact options n) :=
  inferInstanceAs (Decidable (if hasOption options 62 then _ else if hasOption options 61 then _
    else _))

/-- A run that writes something: the annotation does not change what the loops work on. -/
theorem recode_some {out : Output} (h : Accepts c input hp ap audio)
    (hrun : recode options argv c input = .ok (1, some out)) :
    ∃ dataOffset, recodeAudio options { hp with dataOffset := dataOffset }
      (readFrames hp.frameSize audio) = some (out.header, out.audio) := by
  obtain ⟨rest, hheader, hsize, hannotation⟩ := h
  rw [recode, hheader] at hrun
  simp only [hsize, if_false, hannotation] at hrun
  obtain ⟨⟨hp', size, outputAnnotation⟩, hbuild, hrun⟩ := bind_eq_ok hrun
  obtain ⟨dataOffset, rfl⟩ := annotationBuilt_header hbuild
  refine ⟨dataOffset, ?_⟩
  have hframe : AudioHeader.frameSize { hp with dataOffset := dataOffset } = hp.frameSize := rfl
  simp only [hframe] at hrun
  rcases haudio : recodeAudio options { hp with dataOffset := dataOffset }
    (readFrames hp.frameSize audio) with _ | ⟨hp', audio'⟩
  · rw [haudio] at hrun
    simp at hrun
  · rw [haudio] at hrun
    simp only [Except.ok.injEq, Prod.mk.injEq, Option.some.injEq, true_and] at hrun
    rw [← hrun]

theorem speedup_exact {n size : ℕ} (hpos : 1 ≤ f) (hf : f ≤ 1024) (hsize : 0 < size)
    (hn : n * size < 2 ^ 32) :
    n * size / f = size * keptCount (Int32.ofNat f) (Int32.ofNat 0) n ↔ SpeedupExact f n := by
  rw [SpeedupExact]
  split
  case isTrue hlow => exact kept_exact_low hpos hf hsize hlow
  case isFalse hhigh =>
    -- so many frames have one byte each
    obtain rfl : size = 1 := by
      by_contra hne
      have hle : n * 2 ≤ n * size := Nat.mul_le_mul_left n (by omega)
      omega
    rw [Nat.mul_one, Nat.one_mul]
    exact kept_exact_high hpos hf (by omega) (by omega)

/-- The frames that `-d` does not write behind the last one are missing from the data. -/
theorem slowdown_exact {n size : ℕ} (hpos : 1 ≤ f) (hf : f ≤ 1024) (hsize : 0 < size)
    (hmax : size ≤ 8) (hn : n * size < 2 ^ 32) :
    n * size * f % 2 ^ 32 = size * (n * f - (f - 1)) ↔ n = 0 ∨ f = 1 := by
  constructor
  · intro heq
    by_contra hne
    have hone : f - 1 ≤ n * f := by
      have hle := Nat.le_mul_of_pos_left f (show 0 < n by omega)
      omega
    have hmissing : size * (n * f - (f - 1)) + size * (f - 1) = n * size * f := by
      rw [← Nat.mul_add, Nat.sub_add_cancel hone]
      ring
    have hsmall : size * (f - 1) ≤ 8 * 1023 := Nat.mul_le_mul hmax (by omega)
    have hpositive : 0 < size * (f - 1) := Nat.mul_pos hsize (by omega)
    omega
  · rintro (rfl | rfl)
    · simp
    · rw [Nat.sub_self, Nat.sub_zero, Nat.mul_one, Nat.mul_one, Nat.mod_eq_of_lt hn, Nat.mul_comm]

theorem length_flatten_blocks {size : ℕ} {ls : List (List UInt8)}
    (h : ∀ b ∈ ls, b.length = size) : ls.flatten.length = size * ls.length := by
  induction ls with
  | nil => rfl
  | cons b ls ih =>
    rw [List.flatten_cons, List.length_append, h b List.mem_cons_self,
      ih fun c hc => h c (List.mem_cons_of_mem b hc), List.length_cons, Nat.mul_succ, Nat.add_comm]

theorem length_cryptBlocks {channels bytesPerSample : ℕ} (next : UInt64)
    (ls : List (List UInt8)) :
    (cryptBlocks channels bytesPerSample next ls).length = ls.length := by
  induction ls generalizing next with
  | nil => rfl
  | cons l ls ih => rw [cryptBlocks, List.length_cons, ih, List.length_cons]

/-- How many frames the loop of a mode writes of `n` frames. -/
def framesWritten (options : UInt64) (n : ℕ) : ℕ :=
  if hasOption options 62 then keptCount (factor options) 0 n
  else if hasOption options 61 then
    n * (factor options).toInt.toNat - ((factor options).toInt.toNat - 1)
  else n

theorem length_of_mem_readFrames {size : ℕ} (hsize : 0 < size) (audio : List UInt8) :
    ∀ fp ∈ readFrames size audio, fp.length = size := by
  rw [readFrames_eq hsize]
  intro fp hfp
  obtain ⟨b, hb, rfl⟩ := List.mem_map.mp hfp
  rw [length_frameOf, length_of_mem_chunks hsize hb]

theorem length_readFrames {size : ℕ} (hsize : 0 < size) (audio : List UInt8) :
    (readFrames size audio).length = audio.length / size := by
  rw [readFrames_eq hsize, List.length_map, length_chunks]

/-- The audio bytes of a run are as many frames as the loop of its mode writes. -/
theorem length_recodeAudio {dataOffset : UInt32} {hp' : AudioHeader} {audio' : List UInt8}
    (haccepted : hp.Accepted)
    (h : recodeAudio options { hp with dataOffset := dataOffset } (readFrames hp.frameSize audio) =
      some (hp', audio')) :
    audio'.length = hp.frameSize * framesWritten options (audio.length / hp.frameSize) := by
  have hsize := haccepted.frameSize_pos
  obtain ⟨f, hpos, hf, hfactor, hfactorNat⟩ := factor_eq options
  rw [framesWritten, hfactorNat]
  -- one case for each loop of `recode`, in the order of the flags
  rw [recodeAudio] at h
  split at h
  case isTrue hmode =>
    rw [Option.some.injEq, Prod.mk.injEq] at h
    obtain ⟨-, rfl⟩ := h
    have hkept := length_speedup (factor options) 0 (length_of_mem_readFrames hsize audio)
    rw [length_readFrames hsize] at hkept
    rw [if_pos hmode]
    exact hkept
  case isFalse hno =>
    rw [if_neg hno]
    split at h
    case isTrue hmode =>
      rw [Option.some.injEq, Prod.mk.injEq] at h
      obtain ⟨-, rfl⟩ := h
      obtain ⟨ls, hslow, hls, hmany, -⟩ := slowdown_readFrames hpos hf hsize audio
      have hflat := length_flatten_blocks hls
      rw [hmany] at hflat
      rw [if_pos hmode]
      exact (congrArg List.length (hfactor ▸ hslow)).trans hflat
    case isFalse hno' =>
      rw [if_neg hno']
      split at h
      case isTrue =>
        rw [Option.some.injEq, Prod.mk.injEq] at h
        obtain ⟨-, rfl⟩ := h
        have hblocks : ∀ b ∈ chunks hp.frameSize audio, b.length = hp.frameSize :=
          fun b hb => length_of_mem_chunks hsize hb
        have hcrypt := crypt_eq haccepted.format.2.2 hblocks (key options).toUInt64
        have hmem : ∀ b ∈ cryptBlocks hp.channels.toNat (hp.encoding - 1).toNat
            (key options).toUInt64 (chunks hp.frameSize audio), b.length = hp.frameSize :=
          length_of_mem_cryptBlocks hblocks
        have hflat := length_flatten_blocks hmem
        rw [length_cryptBlocks, length_chunks] at hflat
        rw [readFrames_eq hsize]
        exact (congrArg List.length hcrypt).trans hflat
      case isFalse => cases h

/-- Where the input holds as many bytes as its header says, the header that is written says how many
audio bytes follow, and says a number of complete frames, exactly under `DataSizeExact`. -/
theorem dataSize_exact {out : Output} (h : Accepts c input hp ap audio)
    (hdata : hp.dataSize.toNat = audio.length) (hframes : hp.frameSize ∣ audio.length)
    (hrun : recode options argv c input = .ok (1, some out)) :
    (out.header.dataSize.toNat = out.audio.length ∧
        out.header.frameSize ∣ out.header.dataSize.toNat) ↔
      DataSizeExact options (audio.length / hp.frameSize) := by
  obtain ⟨dataOffset, haudio⟩ := recode_some h hrun
  have haccepted := (accepts_iff.mp h).1
  have hsize := haccepted.frameSize_pos
  have hmax : hp.frameSize ≤ 8 := by
    obtain ⟨hchannels, -, hbytes⟩ := haccepted.format
    calc hp.frameSize ≤ 2 * 4 := Nat.mul_le_mul (by omega) hbytes
      _ = 8 := rfl
  obtain ⟨f, hpos, hf, hfactor, hfactorNat⟩ := factor_eq options
  obtain ⟨n, hn⟩ : ∃ n, n = audio.length / hp.frameSize := ⟨_, rfl⟩
  have hlength : audio.length = n * hp.frameSize := by
    rw [hn, Nat.div_mul_cancel hframes]
  have hsmall : n * hp.frameSize < 2 ^ 32 := by
    rw [← hlength, ← hdata]
    exact hp.dataSize.toNat_lt
  have hfactorWord : (factor options).toUInt32.toNat = f := by
    rw [hfactor, Int32.toUInt32_ofNat', UInt32.toNat_ofNat_of_lt' (show f < 2 ^ 32 by omega)]
  have haudioLength := length_recodeAudio haccepted haudio
  rw [← hn] at haudioLength
  -- the size is a number of complete frames as soon as it is exact
  have hwhole {P : Prop} (hframe : out.header.frameSize = hp.frameSize)
      (hexact : out.header.dataSize.toNat = hp.frameSize * framesWritten options n ↔ P) :
      (out.header.dataSize.toNat = out.audio.length ∧
        out.header.frameSize ∣ out.header.dataSize.toNat) ↔ P := by
    rw [← hexact, hframe, haudioLength]
    constructor
    · exact And.left
    · intro heq
      refine ⟨heq, ?_⟩
      rw [heq]
      exact Nat.dvd_mul_right _ _
  rw [← hn, DataSizeExact, hfactorNat]
  rw [recodeAudio] at haudio
  split at haudio
  case isTrue hmode =>
    rw [Option.some.injEq, Prod.mk.injEq] at haudio
    obtain ⟨hheader, -⟩ := haudio
    rw [if_pos hmode]
    refine hwhole (hheader ▸ rfl) ?_
    rw [framesWritten, if_pos hmode, ← hheader, UInt32.toNat_div, hfactorWord, hdata, hlength,
      hfactor]
    exact speedup_exact hpos hf hsize hsmall
  case isFalse hno =>
    rw [if_neg hno]
    split at haudio
    case isTrue hmode =>
      rw [Option.some.injEq, Prod.mk.injEq] at haudio
      obtain ⟨hheader, -⟩ := haudio
      rw [if_pos hmode]
      refine hwhole (hheader ▸ rfl) ?_
      rw [framesWritten, if_neg hno, if_pos hmode, hfactorNat, ← hheader, UInt32.toNat_mul,
        hfactorWord, hdata, hlength]
      exact slowdown_exact hpos hf hsize hmax hsmall
    case isFalse hno' =>
      rw [if_neg hno']
      split at haudio
      case isTrue =>
        rw [Option.some.injEq, Prod.mk.injEq] at haudio
        obtain ⟨hheader, -⟩ := haudio
        refine hwhole (hheader ▸ rfl) ?_
        rw [framesWritten, if_neg hno, if_neg hno', ← hheader, hdata, hlength, Nat.mul_comm]
        exact iff_of_true rfl trivial
      case isFalse => cases haudio

/-- Three frames and `-u` with the factor 3: one byte. -/
theorem dataSize_exact_example : ∃ out,
    recode (Mode.speedup 3).options [] 0 shortStream = .ok (1, some out) ∧
    out.header.dataSize.toNat = out.audio.length ∧
    out.header.frameSize ∣ out.header.dataSize.toNat := by
  have hrun := recode_speedup (accepts_shortStream 0) (show 1 ≤ 3 by decide) (by decide)
    (by decide_cbv) []
  exact ⟨_, hrun, (dataSize_exact (accepts_shortStream 0) (by decide_cbv) (by decide_cbv)
    hrun).mpr (by decide_cbv)⟩

/-- Three frames and `-u` with the factor 2: the header says one byte, two follow. -/
theorem dataSize_differs : ∃ out, Accepts 0 shortStream shortHeader
      [104, 101, 108, 108, 111, 0, 0, 0] [10, 200, 30] ∧
    shortHeader.dataSize.toNat = [10, 200, 30].length ∧
    shortHeader.frameSize ∣ [10, 200, 30].length ∧
    recode (Mode.speedup 2).options [] 0 shortStream = .ok (1, some out) ∧
    out.header.dataSize.toNat = 1 ∧ out.audio = [10, 30] := by
  have hrun := recode_speedup (accepts_shortStream 0) (show 1 ≤ 2 by decide) (by decide)
    (by decide_cbv) []
  exact ⟨_, accepts_shortStream 0, by decide +kernel, by decide +kernel, hrun, by decide +kernel,
    by decide +kernel⟩

end CLanguage.Audio
