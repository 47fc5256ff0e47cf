import CLanguage.Audio.CommandLine
import CLanguage.Audio.DataSize

/-!
# The audio bytes that are used

`audioData` are the bytes that the format declares to be audio data, `none` where
the stream is in error. `recode` never compares the data size with anything: it
takes every complete frame up to the end of the input, and drops the rest of an
incomplete one. `usesAudio_iff` is the condition under which the output is
nevertheless that of the declared bytes.
-/

namespace CLanguage.Audio

open Lib

/-- The data size of a stream whose size is not known. -/
def unknownSize : UInt32 := 0xffffffff

/-- The audio data: the declared number of bytes, or all of them where the size is not known, and
these are complete frames. -/
def audioData (hp : AudioHeader) (audio : List UInt8) : Option (List UInt8) :=
  if hp.dataSize = unknownSize then
    if hp.frameSize ∣ audio.length then some audio else none
  else if hp.frameSize ∣ hp.dataSize.toNat ∧ hp.dataSize.toNat ≤ audio.length then
    some (audio.take hp.dataSize.toNat)
  else none

/-- What a run is to do with the audio bytes: the loop of its mode works on the frames of the audio
data, and a stream in error makes it return 0. -/
def UsesAudio (options : UInt64) (argv : List (List UInt8)) (c : UInt8) (s : AudioStream) : Prop :=
  match audioData s.header s.audio with
  | none => ∃ out, recode options argv c s.bytes = .ok (0, out)
  | some data => ∃ out, recode options argv c s.bytes = .ok (1, some out) ∧
      recodeAudio options { s.header with dataOffset := out.header.dataOffset }
        (readFrames s.header.frameSize data) = some (out.header, out.audio)

/-- The annotation can be written: it is kept, or there are four words and the program name, the
parameter and the old annotation leave room for what stands between them. -/
def AnnotationFits (options : UInt64) (argv : List (List UInt8)) (ap : List UInt8) : Prop :=
  hasOption options 59 ∨ ∃ program mode name value, words argv = [program, mode, name, value] ∧
    program.length + value.length + (ap.takeWhile (· ≠ 0)).length ≤ 1015

/-- The frames from position `n` to `m` make no difference to the mode. -/
def FramesIgnored (options : UInt64) (n m : ℕ) : Prop :=
  if hasOption options 62 then ∀ i, n ≤ i → i < m → Int32.ofNat i % factor options ≠ 0
  else m ≤ n

/-- The condition for `UsesAudio`. A data offset above 1024 is refused, and so is a stream without
an annotation where the character that is compared with 0 happens not to be 0. -/
def AudioExact (options : UInt64) (argv : List (List UInt8)) (c : UInt8) (s : AudioStream) : Prop :=
  if 1000 < s.annotation.length ∨ (s.annotation = [] ∧ c ≠ 0) then
    audioData s.header s.audio = none
  else
    AnnotationFits options argv s.annotation ∧
      if s.header.dataSize = unknownSize then s.header.frameSize ∣ s.audio.length
      else s.header.frameSize ∣ s.header.dataSize.toNat ∧
        s.header.dataSize.toNat ≤ s.audio.length ∧
        FramesIgnored options (s.header.dataSize.toNat / s.header.frameSize)
          (s.audio.length / s.header.frameSize)

variable {argv : List (List UInt8)} {options : UInt64} {flag : Flag} {c : UInt8}
  {input ap audio : List UInt8} {hp : AudioHeader}

/-! ## The return value -/

theorem length_annotationPadded_le (l : List UInt8) :
    (annotationPadded l).length ≤ annotationMax ↔ l.length ≤ annotationMax := by
  have hmax : annotationMax = 1024 := rfl
  rw [annotationPadded_eq, padded, List.length_append, List.length_replicate, hmax]
  omega

/-- An accepted stream makes the run return 1 or leave its buffers. -/
theorem recode_fits (hargs : Recodes argv options) (h : Accepts c input hp ap audio) :
    (AnnotationFits options argv ap ∧ ∃ out, recode options argv c input = .ok (1, some out)) ∨
      (¬ AnnotationFits options argv ap ∧ ∃ e, recode options argv c input = .error e) := by
  obtain ⟨flag, hflag, -, -, hgiven⟩ := validargs_accepted hargs
  by_cases hpreserve : hasOption options 59
  · obtain ⟨hp', audio', hrun⟩ := recode_kept hflag hpreserve argv h
    exact .inl ⟨.inl hpreserve, _, hrun⟩
  -- without `-p` an annotation is built, from the parameter behind the second flag
  rcases hgiven with hset | htwo | ⟨hfour, hletter⟩
  · exact absurd hset hpreserve
  · refine .inr ⟨?_, recode_absent hflag hpreserve htwo h⟩
    rintro (hset | ⟨program, mode, name, value, hwords, -⟩)
    · exact hpreserve hset
    · exact words_ne_four htwo _ _ _ _ hwords
  · obtain ⟨program, mode, name, value, hwords⟩ := words_four hfour
    have hrun := recode_built hflag hpreserve (commandLine_four hflag hwords hletter) h rfl
    have hfits : AnnotationFits options argv ap ↔
        program.length + value.length + (ap.takeWhile (· ≠ 0)).length ≤ 1015 := by
      constructor
      · rintro (hset | ⟨program', mode', name', value', hwords', hle⟩)
        · exact absurd hset hpreserve
        · rw [hwords] at hwords'
          obtain ⟨rfl, -, -, rfl⟩ : program = program' ∧ mode = mode' ∧ name = name' ∧
              value = value' := by simpa using hwords'
          exact hle
      · intro hle
        exact .inr ⟨program, mode, name, value, hwords, hle⟩
    -- what is built: the words, the separators and the old annotation up to its null byte
    have hlength : ¬ (annotationPadded (program ++
        ([32, 45, flag.letter] ++ [32, 45, flag.parameter, 32] ++ value) ++ [10] ++
        annotationcpy ap)).length > annotationMax ↔ AnnotationFits options argv ap := by
      have hmax : annotationMax = 1024 := rfl
      rw [Nat.not_lt, length_annotationPadded_le, annotationcpy_eq, hfits, hmax]
      simp only [List.length_append, List.length_cons, List.length_nil]
      omega
    split at hrun
    case isTrue hlong =>
      exact .inr ⟨fun hfit => hlength.mpr hfit hlong, _, hrun⟩
    case isFalse hshort =>
      obtain ⟨hp', audio', hrun, -⟩ := hrun
      exact .inl ⟨hlength.mp hshort, _, hrun⟩

/-! ## The frames behind the audio data -/

theorem speedup_append (factor : Int32) (size : ℕ) (counter : Int32) (frames extra : List Frame) :
    speedup factor size counter (frames ++ extra) = speedup factor size counter frames ++
      speedup factor size (counter + Int32.ofNat frames.length) extra := by
  induction frames generalizing counter with
  | nil => simp [speedup]
  | cons fp frames ih =>
    have hcounter : counter + 1 + Int32.ofNat frames.length =
        counter + Int32.ofNat (frames.length + 1) := by
      rw [Int32.ofNat_add, Int32.add_assoc, Int32.add_comm 1]
      rfl
    rw [List.cons_append, speedup, speedup, ih, hcounter, List.append_assoc, List.length_cons]

theorem keptCount_eq_zero (factor : Int32) (n k : ℕ) :
    keptCount factor (Int32.ofNat n) k = 0 ↔
      ∀ i, n ≤ i → i < n + k → Int32.ofNat i % factor ≠ 0 := by
  induction k generalizing n with
  | zero =>
    refine iff_of_true rfl fun i hlow hhigh => ?_
    omega
  | succ k ih =>
    have hnext : Int32.ofNat n + 1 = Int32.ofNat (n + 1) := by simp
    rw [keptCount, hnext, Nat.add_eq_zero_iff, ih]
    constructor
    · rintro ⟨hfirst, hrest⟩ i hlow hhigh
      rcases Nat.eq_or_lt_of_le hlow with rfl | hlow
      · intro hzero
        rw [if_pos hzero] at hfirst
        exact absurd hfirst Nat.one_ne_zero
      · exact hrest i hlow (by omega)
    · intro h
      exact ⟨if_neg (h n (Nat.le_refl n) (by omega)), fun i hlow hhigh => h i (by omega) (by omega)⟩

/-- Frames make no difference if they make none to the number of those that are written. -/
theorem framesIgnored_iff (options : UInt64) {n m : ℕ} (h : n ≤ m) :
    FramesIgnored options n m ↔ framesWritten options m = framesWritten options n := by
  obtain ⟨f, hpos, -, -, hfactor⟩ := factor_eq options
  obtain ⟨k, rfl⟩ := Nat.exists_eq_add_of_le h
  rw [FramesIgnored, framesWritten, framesWritten, hfactor]
  split
  · have hzero : (0 : Int32) + Int32.ofNat n = Int32.ofNat n := Int32.zero_add _
    rw [← keptCount_eq_zero, keptCount_add, hzero]
    omega
  split
  · constructor
    · intro hle
      obtain rfl : k = 0 := by omega
      rfl
    · intro heq
      by_contra hlt
      have hmore : n * f + f ≤ (n + k) * f := by
        rw [← Nat.succ_mul]
        exact Nat.mul_le_mul_right f (by omega)
      omega
  · omega

/-- The output on some frames and on those that follow them. -/
theorem recodeAudio_append {hp' : AudioHeader} {audio' : List UInt8} {frames extra : List Frame}
    (hframes : ∀ fp ∈ extra, fp.length = hp.frameSize)
    (hignored : FramesIgnored options frames.length (frames.length + extra.length))
    (h : recodeAudio options hp (frames ++ extra) = some (hp', audio')) :
    recodeAudio options hp frames = some (hp', audio') := by
  rw [FramesIgnored] at hignored
  split at hignored
  case isTrue hmode =>
    -- no frame of the rest is kept
    have hrest := length_speedup (factor options) (Int32.ofNat frames.length) hframes
    rw [(keptCount_eq_zero _ _ _).mpr hignored, Nat.mul_zero] at hrest
    have hzero : (0 : Int32) + Int32.ofNat frames.length = Int32.ofNat frames.length :=
      Int32.zero_add _
    rw [recodeAudio, if_pos hmode, speedup_append, hzero] at h
    rw [recodeAudio, if_pos hmode, ← h]
    refine congrArg (fun l => some (_, l)) ?_
    have hnil := List.length_eq_zero_iff.mp hrest
    rw [AudioHeader.frameSize] at hnil
    rw [hnil, List.append_nil]
  case isFalse =>
    obtain rfl : extra = [] := List.length_eq_zero_iff.mp (by omega)
    rwa [List.append_nil] at h

/-- The output on a part of the audio bytes is that on all of them exactly if the frames behind the
part are ignored. -/
theorem recodeAudio_take {dataOffset : UInt32} {hp' : AudioHeader} {audio' : List UInt8} {k : ℕ}
    (haccepted : hp.Accepted) (hdvd : hp.frameSize ∣ k) (hle : k ≤ audio.length)
    (h : recodeAudio options { hp with dataOffset := dataOffset }
      (readFrames hp.frameSize audio) = some (hp', audio')) :
    recodeAudio options { hp with dataOffset := dataOffset }
        (readFrames hp.frameSize (audio.take k)) = some (hp', audio') ↔
      FramesIgnored options (k / hp.frameSize) (audio.length / hp.frameSize) := by
  have hsize := haccepted.frameSize_pos
  have htake : (audio.take k).length = k := List.length_take_of_le hle
  have hfew : (readFrames hp.frameSize (audio.take k)).length = k / hp.frameSize := by
    rw [length_readFrames hsize, htake]
  -- `k` is a border between frames
  have hsplit : readFrames hp.frameSize audio = readFrames hp.frameSize (audio.take k) ++
      readFrames hp.frameSize (audio.drop k) := by
    have hdvd' : hp.frameSize ∣ (audio.take k).length := htake.symm ▸ hdvd
    rw [readFrames_eq hsize, readFrames_eq hsize, readFrames_eq hsize, ← List.map_append,
      ← chunks_append_of_dvd hsize hdvd', List.take_append_drop]
  have hall : k / hp.frameSize + (readFrames hp.frameSize (audio.drop k)).length =
      audio.length / hp.frameSize := by
    rw [← hfew, ← length_readFrames hsize, hsplit, List.length_append]
  constructor
  · -- the same output needs as many frames from the part as from the whole
    intro hpart
    have hlength := length_recodeAudio haccepted hpart
    rw [length_recodeAudio haccepted h, htake] at hlength
    exact (framesIgnored_iff options (Nat.div_le_div_right hle)).mpr
      (Nat.eq_of_mul_eq_mul_left hsize hlength)
  · intro hignored
    rw [hsplit] at h
    refine recodeAudio_append (length_of_mem_readFrames hsize (audio.drop k)) ?_ h
    rwa [hfew, hall]

/-- The run uses the audio data exactly if the stream is accepted, the annotation can be written, the
audio data is not in error and what follows it makes no difference. -/
theorem usesAudio_iff (hargs : Recodes argv options) (c : UInt8) (s : AudioStream) :
    UsesAudio options argv c s ↔ AudioExact options argv c s := by
  rw [UsesAudio, AudioExact]
  by_cases hrefused : 1000 < s.annotation.length ∨ (s.annotation = [] ∧ c ≠ 0)
  case pos =>
    have hrun : recode options argv c s.bytes = .ok (0, none) := by
      rcases hrefused with hlong | ⟨hempty, hc⟩
      · exact s.recode_refused hlong options argv c
      · exact s.recode_uninitialised hempty hc options argv
    rw [if_pos hrefused, hrun]
    cases audioData s.header s.audio with
    | none => exact iff_of_true ⟨_, rfl⟩ rfl
    | some data => simp
  case neg =>
    rw [if_neg hrefused]
    obtain ⟨hlength, hinit⟩ := not_or.mp hrefused
    have h : Accepts c s.bytes s.header s.annotation s.audio :=
      s.accepts (Nat.not_lt.mp hlength) fun hempty => not_not.mp fun hc => hinit ⟨hempty, hc⟩
    rcases recode_fits hargs h with ⟨hfits, out, hrun⟩ | ⟨hfits, e, hrun⟩
    case inr =>
      refine iff_of_false ?_ fun hexact => hfits hexact.1
      split <;> rw [hrun] <;> simp
    case inl =>
      have haccepted := (accepts_iff.mp h).1
      obtain ⟨dataOffset, haudio⟩ := recode_some h hrun
      have hoffset : out.header.dataOffset = dataOffset := by
        obtain ⟨flag, hflag, -⟩ := validargs_accepted hargs
        obtain ⟨hp', audio', haudio', hsame⟩ := hflag.recodeAudio_eq
          { s.header with dataOffset := dataOffset } (readFrames s.header.frameSize s.audio)
        rw [haudio', Option.some.injEq, Prod.mk.injEq] at haudio
        rw [← haudio.1, hsame]
      -- the run returns 1, so a stream in error is not noticed
      have hone (data : List UInt8) : (∃ out', recode options argv c s.bytes = .ok (1, some out') ∧
          recodeAudio options { s.header with dataOffset := out'.header.dataOffset }
            (readFrames s.header.frameSize data) = some (out'.header, out'.audio)) ↔
          recodeAudio options { s.header with dataOffset := dataOffset }
            (readFrames s.header.frameSize data) = some (out.header, out.audio) := by
        rw [hrun]
        simp [hoffset]
      have hzero : ¬ ∃ out', recode options argv c s.bytes = .ok (0, out') := by
        rw [hrun]
        simp
      rw [audioData, and_iff_right hfits]
      by_cases hknown : s.header.dataSize = unknownSize
      · rw [if_pos hknown, if_pos hknown]
        by_cases hframes : s.header.frameSize ∣ s.audio.length
        · rw [if_pos hframes]
          exact iff_of_true ((hone s.audio).mpr haudio) hframes
        · rw [if_neg hframes]
          exact iff_of_false hzero hframes
      · rw [if_neg hknown, if_neg hknown]
        by_cases hdata : s.header.frameSize ∣ s.header.dataSize.toNat ∧
            s.header.dataSize.toNat ≤ s.audio.length
        · rw [if_pos hdata, ← and_assoc, and_iff_right hdata]
          exact (hone _).trans (recodeAudio_take haccepted hdata.1 hdata.2 haudio)
        · rw [if_neg hdata, ← and_assoc]
          exact iff_of_false hzero fun hexact => hdata hexact.1

/-- The words "a", "-u" and "-p" and three frames, all of them declared. -/
theorem usesAudio_iff_example : UsesAudio (setOption (setOption 0 62) 59)
    [[97], [45, 117], [45, 112]] 0 (shortAnnotated [104, 101, 108, 108, 111, 0, 0, 0] rfl rfl) := by
  refine (usesAudio_iff (by decide_cbv) 0 _).mpr ?_
  rw [AudioExact, if_neg (by decide)]
  refine ⟨.inl (by decide_cbv), ?_⟩
  rw [if_neg (by decide_cbv)]
  refine ⟨by decide_cbv, by decide_cbv, ?_⟩
  rw [FramesIgnored, if_pos (by decide_cbv)]
  intro i hlow hhigh
  exact absurd (Nat.lt_of_le_of_lt hlow hhigh) (by decide_cbv)

/-- Three 8-bit frames of which the header declares two. -/
def trailingStream : AudioStream where
  header := { shortHeader with dataSize := 2 }
  annotation := [104, 101, 108, 108, 111, 0, 0, 0]
  audio := [10, 200, 30]
  magicNumber := rfl
  encoding := by decide_cbv
  channels := by decide_cbv
  dataOffset := rfl
  aligned := by decide
  bounded := by decide
  terminated := fun _ => rfl

/-- The words "a", "-d" and "-p": the byte behind the declared data is written as well. -/
theorem trailing_byte_used : Recodes [[97], [45, 100], [45, 112]] (setOption (setOption 0 61) 59) ∧
    audioData trailingStream.header trailingStream.audio = some [10, 200] ∧
    recode (setOption (setOption 0 61) 59) [[97], [45, 100], [45, 112]] 0 trailingStream.bytes =
      .ok (1, some ⟨trailingStream.header, trailingStream.annotation, [10, 200, 30]⟩) ∧
    ¬ UsesAudio (setOption (setOption 0 61) 59) [[97], [45, 100], [45, 112]] 0 trailingStream := by
  have hrun : recode (setOption (setOption 0 61) 59) [[97], [45, 100], [45, 112]] 0
      trailingStream.bytes =
        .ok (1, some ⟨trailingStream.header, trailingStream.annotation, [10, 200, 30]⟩) :=
    ok_of_toOption (by decide +kernel)
  have hdata : audioData trailingStream.header trailingStream.audio = some [10, 200] := by
    decide_cbv
  refine ⟨by decide_cbv, hdata, hrun, ?_⟩
  rw [UsesAudio, hdata, hrun]
  rintro ⟨out, hout, haudio⟩
  rw [Except.ok.injEq, Prod.mk.injEq, Option.some.injEq] at hout
  obtain ⟨-, rfl⟩ := hout
  -- two frames are written as two bytes
  exact absurd haudio (by decide_cbv)

end CLanguage.Audio
