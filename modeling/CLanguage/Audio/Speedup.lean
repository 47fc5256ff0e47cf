import CLanguage.Audio.Options
import CLanguage.Lib.Sampling

/-!
# Speeding up

As long as the counter does not overflow, the loop of `-u` keeps the frames whose
position is a multiple of the factor (`speedup_eq`). Two runs with `-u` are
therefore one run with the product of the factors (`speedup_speedup`).
-/

namespace CLanguage.Audio

open Lib

variable {c : UInt8} {input ap audio : List UInt8} {hp : AudioHeader} {f i : ℕ}

/-- The test of the counter, before it overflows. -/
theorem counter_mod (hf : f ≤ 1024) (hi : i < 2 ^ 31) :
    Int32.ofNat i % Int32.ofNat f = 0 ↔ i % f = 0 := by
  have hzero : (0 : Int32).toInt = 0 := by decide_cbv
  rw [← Int32.toInt_inj, Int32.toInt_mod, Int32.toInt_ofNat_of_lt hi,
    Int32.toInt_ofNat_of_lt (show f < 2 ^ 31 by omega), hzero, ← Int.ofNat_tmod]
  exact Int.natCast_eq_zero

theorem speedup_eq (hf : f ≤ 1024) (size : ℕ) {frames : List Frame}
    (hcount : i + frames.length ≤ 2 ^ 31) :
    speedup (Int32.ofNat f) size (Int32.ofNat i) frames =
      (keepEvery f i frames).flatMap (writeFrame size) := by
  induction frames generalizing i with
  | nil => rfl
  | cons fp frames ih =>
    rw [List.length_cons] at hcount
    have hnext : Int32.ofNat i + 1 = Int32.ofNat (i + 1) := by simp
    have hrest := ih (i := i + 1) (by omega)
    rw [speedup, hnext, hrest, keepEvery_cons, List.flatMap_append]
    simp only [counter_mod hf (show i < 2 ^ 31 by omega)]
    split <;> simp

/-- On the audio bytes: the blocks at the multiples of the factor. -/
theorem speedup_readFrames (hf : f ≤ 1024) {size : ℕ} (hsize : 0 < size)
    (hcount : audio.length / size ≤ 2 ^ 31) :
    speedup (Int32.ofNat f) size 0 (readFrames size audio) =
      (keepEvery f 0 (chunks size audio)).flatten := by
  have hlength : 0 + ((chunks size audio).map frameOf).length ≤ 2 ^ 31 := by
    rw [Nat.zero_add, List.length_map, length_chunks]
    exact hcount
  have hwrite : ∀ b ∈ keepEvery f 0 (chunks size audio), writeFrame size (frameOf b) = b := by
    intro b hb
    apply writeFrame_frameOf
    exact (length_of_mem_chunks hsize ((keepEvery_sublist _ _ _).mem hb)).le
  have hloop := speedup_eq hf size hlength
  rw [readFrames_eq hsize]
  rw [← map_keepEvery, List.flatMap_map] at hloop
  apply hloop.trans
  apply congrArg List.flatten
  calc (keepEvery f 0 (chunks size audio)).map (fun b => writeFrame size (frameOf b))
      = (keepEvery f 0 (chunks size audio)).map id := List.map_congr_left hwrite
    _ = keepEvery f 0 (chunks size audio) := List.map_id _

/-- A run with `-u` and `-p`. -/
theorem recode_speedup (h : Accepts c input hp ap audio) (hpos : 1 ≤ f) (hf : f ≤ 1024)
    (hcount : audio.length / hp.frameSize ≤ 2 ^ 31) (argv : List (List UInt8)) :
    recode (Mode.speedup f).options argv c input =
      .ok (1, some ⟨{ hp with dataSize := hp.dataSize / UInt32.ofNat f }, annotationKept ap,
        (keepEvery f 0 (chunks hp.frameSize audio)).flatten⟩) := by
  have hsize := (accepts_iff.mp h).1.frameSize_pos
  have haudio := recodeAudio_speedup hpos hf hp (readFrames hp.frameSize audio)
  rw [speedup_readFrames hf hsize hcount] at haudio
  exact recode_preserve argv h (options_speedup hpos hf).2.1 haudio

/-- Running with `-u -f a -p` and then with `-u -f b -p` writes the same bytes as running once with
`-u -f a*b -p`. -/
theorem speedup_speedup {c' c'' : UInt8} {argv argv' argv'' : List (List UInt8)} {a b : ℕ}
    (h : Accepts c input hp ap audio) (hne : ap ≠ [])
    (hcount : audio.length / hp.frameSize < 2 ^ 31) (ha : 1 ≤ a) (hb : 1 ≤ b)
    (hab : a * b ≤ 1024) :
    ∃ first second once,
      recode (Mode.speedup a).options argv c input = .ok (1, some first) ∧
      recode (Mode.speedup b).options argv' c' first.bytes = .ok (1, some second) ∧
      recode (Mode.speedup (a * b)).options argv'' c'' input = .ok (1, some once) ∧
      second.bytes = once.bytes := by
  have hsize := (accepts_iff.mp h).1.frameSize_pos
  have hmax := (accepts_iff.mp h).2.2.1
  have ha1024 : a ≤ 1024 := (Nat.le_mul_of_pos_right a hb).trans hab
  have hb1024 : b ≤ 1024 := (Nat.le_mul_of_pos_left b ha).trans hab
  have hfirst := recode_speedup h ha ha1024 hcount.le argv
  have honce := recode_speedup (h.any hne c'') (Nat.mul_pos ha hb) hab hcount.le argv''
  -- the blocks of the first run's audio are the blocks it kept
  have hblocks : chunks hp.frameSize (keepEvery a 0 (chunks hp.frameSize audio)).flatten =
      keepEvery a 0 (chunks hp.frameSize audio) :=
    chunks_flatten hsize fun _ hb => length_of_mem_chunks hsize ((keepEvery_sublist _ _ _).mem hb)
  have hfewer : (keepEvery a 0 (chunks hp.frameSize audio)).flatten.length / hp.frameSize ≤
      2 ^ 31 := by
    rw [← length_chunks, hblocks]
    apply (keepEvery_sublist a 0 _).length_le.trans
    rw [length_chunks]
    exact hcount.le
  have haccepts := h.output hne c' (hp.dataSize / UInt32.ofNat a)
    (keepEvery a 0 (chunks hp.frameSize audio)).flatten
  have hsecond := recode_speedup haccepts hb hb1024 hfewer argv'
  refine ⟨_, _, _, hfirst, hsecond, honce, ?_⟩
  have hdata : hp.dataSize / UInt32.ofNat a / UInt32.ofNat b =
      hp.dataSize / UInt32.ofNat (a * b) := by
    apply UInt32.toNat_inj.mp
    rw [UInt32.toNat_div, UInt32.toNat_div, UInt32.toNat_div,
      UInt32.toNat_ofNat_of_lt' (show a < 2 ^ 32 by omega),
      UInt32.toNat_ofNat_of_lt' (show b < 2 ^ 32 by omega),
      UInt32.toNat_ofNat_of_lt' (show a * b < 2 ^ 32 by omega), Nat.div_div_eq_div_mul]
  have hframe : AudioHeader.frameSize { hp with dataSize := hp.dataSize / UInt32.ofNat a } =
      hp.frameSize := rfl
  have hcompose := keepEvery_keepEvery ha b 0 (chunks hp.frameSize audio)
  have hstart : (0 + (a - 1)) / a = 0 := Nat.div_eq_of_lt (by omega)
  rw [hstart] at hcompose
  rw [hframe, hblocks, hcompose, annotationKept_idem hmax (h.nul_mem hne)]
  simp only [hdata]

/-- Three frames, with the factors 2 and 3. -/
theorem speedup_speedup_example : ∃ first second once,
    recode (Mode.speedup 2).options [] 0 shortStream = .ok (1, some first) ∧
    recode (Mode.speedup 3).options [] 0 first.bytes = .ok (1, some second) ∧
    recode (Mode.speedup (2 * 3)).options [] 0 shortStream = .ok (1, some once) ∧
    second.bytes = once.bytes :=
  speedup_speedup (accepts_shortStream 0) (by decide) (by decide) (by decide) (by decide)
    (by decide)

end CLanguage.Audio
