import CLanguage.Audio.Speedup

/-!
# Slowing down

Between two frames `-d` writes as many interpolated frames as bring the second one
to the next multiple of the factor (`keepEvery_slowBlocks`). Whatever the
interpolated frames hold, `-u` with the same factor drops them again.
-/

namespace CLanguage.Audio

open Lib

variable {c : UInt8} {input ap audio : List UInt8} {hp : AudioHeader} {f : ℕ}
  {channels bytesPerSample : ℕ}

/-- The interpolated frames between two frames, as byte strings. -/
def interpolatedBlocks (f channels bytesPerSample : ℕ) (p q : List UInt8) : List (List UInt8) :=
  (List.range' 1 (f - 1)).map fun i =>
    writeFrame (channels * bytesPerSample)
      (calcuFrame channels bytesPerSample (frameOf p) (frameOf q) (Int32.ofNat f) (Int32.ofNat i))

/-- The frames that are written after the frame `p`, as byte strings. -/
def slowBlocks (f channels bytesPerSample : ℕ) : List UInt8 → List (List UInt8) → List (List UInt8)
  | _, [] => []
  | p, q :: ls =>
    interpolatedBlocks f channels bytesPerSample p q ++ (q :: slowBlocks f channels bytesPerSample q ls)

theorem flatten_interpolatedBlocks (hf : f ≤ 1024) (p q : List UInt8) :
    (interpolatedBlocks f channels bytesPerSample p q).flatten =
      interpolate (Int32.ofNat f) channels bytesPerSample (frameOf p) (frameOf q) := by
  have hcount : (Int32.ofNat f).toInt.toNat = f := by
    rw [Int32.toInt_ofNat_of_lt (show f < 2 ^ 31 by omega), Int.toNat_natCast]
  rw [interpolate, hcount]
  rfl

/-- The loop of `-d` writes these frames one after another. -/
theorem slowdownFrom_eq (hf : f ≤ 1024) (p : List UInt8) {ls : List (List UInt8)}
    (hls : ∀ q ∈ ls, q.length = channels * bytesPerSample) :
    slowdownFrom (Int32.ofNat f) channels bytesPerSample (frameOf p) (ls.map frameOf) =
      (slowBlocks f channels bytesPerSample p ls).flatten := by
  induction ls generalizing p with
  | nil => rfl
  | cons q ls ih =>
    have hq : q.length = channels * bytesPerSample := hls q List.mem_cons_self
    have hrest := ih q fun r hr => hls r (List.mem_cons_of_mem q hr)
    rw [List.map_cons, slowdownFrom, slowBlocks, List.flatten_append, List.flatten_cons, hrest,
      flatten_interpolatedBlocks hf, writeFrame_frameOf hq.le, List.append_assoc]

theorem length_of_mem_slowBlocks {p : List UInt8} {ls : List (List UInt8)}
    (hls : ∀ q ∈ ls, q.length = channels * bytesPerSample) :
    ∀ b ∈ slowBlocks f channels bytesPerSample p ls, b.length = channels * bytesPerSample := by
  induction ls generalizing p with
  | nil => exact fun b hb => absurd hb List.not_mem_nil
  | cons q ls ih =>
    intro b hb
    rw [slowBlocks, List.mem_append, List.mem_cons] at hb
    rcases hb with hb | rfl | hb
    · obtain ⟨i, -, rfl⟩ := List.mem_map.mp hb
      exact length_writeFrame (length_calcuFrame _ _ _ _ _ _)
    · exact hls b List.mem_cons_self
    · exact ih (fun r hr => hls r (List.mem_cons_of_mem q hr)) b hb

/-- For each frame after the first one, `f` frames are written. -/
theorem length_slowBlocks (hpos : 1 ≤ f) (p : List UInt8) (ls : List (List UInt8)) :
    (slowBlocks f channels bytesPerSample p ls).length = ls.length * f := by
  induction ls generalizing p with
  | nil => simp [slowBlocks]
  | cons q ls ih =>
    rw [slowBlocks, List.length_append, List.length_cons, ih, interpolatedBlocks, List.length_map,
      List.length_range', List.length_cons, Nat.succ_mul]
    omega

/-- Behind a frame at a multiple of `f` the frames kept are those that were not interpolated. -/
theorem keepEvery_slowBlocks (hpos : 1 ≤ f) (n : ℕ) (p : List UInt8) (ls : List (List UInt8)) :
    keepEvery f (n * f + 1) (slowBlocks f channels bytesPerSample p ls) = ls := by
  induction ls generalizing n p with
  | nil => rfl
  | cons q ls ih =>
    have hlength : (interpolatedBlocks f channels bytesPerSample p q).length = f - 1 := by
      rw [interpolatedBlocks, List.length_map, List.length_range']
    have hposition : n * f + 1 + (f - 1) = (n + 1) * f := by
      rw [Nat.succ_mul]
      omega
    rw [slowBlocks, keepEvery_append, keepEvery_between hlength.le Nat.one_pos, List.nil_append,
      hlength, hposition, keepEvery_cons, Nat.mul_mod_left, if_pos rfl, ih (n + 1) q]
    rfl

/-- The frames that `-d` writes: how many, and what `-u` keeps of them. -/
theorem slowdown_readFrames (hpos : 1 ≤ f) (hf : f ≤ 1024) (hsize : 0 < channels * bytesPerSample)
    (audio : List UInt8) :
    ∃ ls, slowdown (Int32.ofNat f) channels bytesPerSample
          (readFrames (channels * bytesPerSample) audio) = ls.flatten ∧
        (∀ b ∈ ls, b.length = channels * bytesPerSample) ∧
        ls.length = audio.length / (channels * bytesPerSample) * f - (f - 1) ∧
        keepEvery f 0 ls = chunks (channels * bytesPerSample) audio := by
  have hlength : ∀ b ∈ chunks (channels * bytesPerSample) audio,
      b.length = channels * bytesPerSample := fun b hb => length_of_mem_chunks hsize hb
  rw [readFrames_eq hsize, ← length_chunks]
  generalize chunks (channels * bytesPerSample) audio = blocks at hlength ⊢
  -- the first frame is written as it is, and `f` frames for each one behind it
  rcases blocks with _ | ⟨p, ls⟩
  · refine ⟨[], rfl, fun b hb => absurd hb List.not_mem_nil, ?_, rfl⟩
    rw [List.length_nil, Nat.zero_mul, Nat.zero_sub]
  · have hp : p.length = channels * bytesPerSample := hlength p List.mem_cons_self
    have hls : ∀ q ∈ ls, q.length = channels * bytesPerSample :=
      fun q hq => hlength q (List.mem_cons_of_mem p hq)
    refine ⟨p :: slowBlocks f channels bytesPerSample p ls, ?_, ?_, ?_, ?_⟩
    · rw [List.map_cons, slowdown, writeFrame_frameOf hp.le, slowdownFrom_eq hf p hls,
        List.flatten_cons]
    · intro b hb
      rcases List.mem_cons.mp hb with rfl | hb
      · exact hp
      · exact length_of_mem_slowBlocks hls b hb
    · rw [List.length_cons, length_slowBlocks hpos, List.length_cons, Nat.succ_mul]
      omega
    · have hrest : keepEvery f (0 * f + 1) (slowBlocks f channels bytesPerSample p ls) = ls :=
        keepEvery_slowBlocks hpos 0 p ls
      rw [Nat.zero_mul] at hrest
      rw [keepEvery_cons, Nat.zero_mod, if_pos rfl, hrest]
      rfl

/-- Running with `-d -f f -p` and then with `-u -f f -p` restores the frames, and the header unless
its data size overflows on the way. -/
theorem speedup_slowdown {c' : UInt8} {argv argv' : List (List UInt8)} {n : ℕ}
    (h : Accepts c input hp ap audio) (hne : ap ≠ []) (hframes : audio.length = n * hp.frameSize)
    (hn : n < 2 ^ 20) (hpos : 1 ≤ f) (hf : f ≤ 1024) :
    ∃ slow fast,
      recode (Mode.slowdown f).options argv c input = .ok (1, some slow) ∧
      recode (Mode.speedup f).options argv' c' slow.bytes = .ok (1, some fast) ∧
      fast.audio = audio ∧
      (hp.dataSize.toNat * f < 2 ^ 32 → fast.header = hp) := by
  have hsize := (accepts_iff.mp h).1.frameSize_pos
  have hcount : audio.length / hp.frameSize = n := by
    rw [hframes, Nat.mul_div_cancel n hsize]
  obtain ⟨ls, haudio, hblocks, hlength, hkept⟩ := slowdown_readFrames hpos hf hsize audio
  -- the counter of the second run stays below 2 ^ 31
  have hfew : ls.flatten.length / hp.frameSize ≤ 2 ^ 31 := by
    have hmul : n * f ≤ 2 ^ 20 * 1024 := Nat.mul_le_mul hn.le hf
    have hcount' : audio.length / (hp.channels.toNat * (hp.encoding - 1).toNat) = n := hcount
    rw [hcount'] at hlength
    rw [← length_chunks, chunks_flatten hsize hblocks]
    omega
  have hslow := recodeAudio_slowdown hpos hf hp (readFrames hp.frameSize audio)
  rw [AudioHeader.frameSize, haudio] at hslow
  have hfirst := recode_preserve argv h (options_slowdown hpos hf).2.2.1 hslow
  have haccepts := h.output hne c' (hp.dataSize * UInt32.ofNat f) ls.flatten
  have hsecond := recode_speedup haccepts hpos hf hfew argv'
  have hrestored : (keepEvery f 0 (chunks hp.frameSize ls.flatten)).flatten = audio := by
    rw [chunks_flatten hsize hblocks, hkept]
    apply flatten_chunks hsize
    rw [hframes]
    exact Nat.dvd_mul_left _ _
  refine ⟨_, _, hfirst, hsecond, hrestored, fun hsmall => ?_⟩
  have hdata : hp.dataSize * UInt32.ofNat f / UInt32.ofNat f = hp.dataSize := by
    apply UInt32.toNat_inj.mp
    rw [UInt32.toNat_div, UInt32.toNat_mul, UInt32.toNat_ofNat_of_lt' (show f < 2 ^ 32 by omega),
      Nat.mod_eq_of_lt hsmall, Nat.mul_div_cancel _ hpos]
  simp only [hdata]

/-- Three frames, slowed down by the factor 2. -/
theorem speedup_slowdown_example : ∃ slow fast,
    recode (Mode.slowdown 2).options [] 0 shortStream = .ok (1, some slow) ∧
    recode (Mode.speedup 2).options [] 0 slow.bytes = .ok (1, some fast) ∧
    fast.audio = [10, 200, 30] ∧
    (shortHeader.dataSize.toNat * 2 < 2 ^ 32 → fast.header = shortHeader) :=
  speedup_slowdown (n := 3) (accepts_shortStream 0) (by decide) (by decide) (by decide)
    (by decide) (by decide)

end CLanguage.Audio
