import CLanguage.Audio.Annotation
import CLanguage.Audio.Frame

/-!
# Recoding

`recode` reads a header and an annotation, builds the output annotation and then
runs the loop of one of three modes over the frames of the audio data. The mode,
its factor or key and the `-p` flag are bits of the options word. What is behind
an absent argument, behind the end of an argument or behind the end of an
annotation buffer is no value of the program: a run that gets there is a `Fault`.
-/

namespace CLanguage.Audio

open Lib

/-- What a run does that the language gives no meaning to. -/
inductive Fault
  | absentArgument
  | pastArgument
  | annotationOverrun
  deriving DecidableEq

/-- What a run writes: a header, an annotation and the audio bytes. -/
structure Output where
  header : AudioHeader
  annotation : List UInt8
  audio : List UInt8
  deriving DecidableEq

def Output.bytes (out : Output) : List UInt8 :=
  writeHeader out.header ++ (out.annotation ++ out.audio)

/-- The test of one bit of the options word. -/
def hasOption (options bit : UInt64) : Prop := options &&& ((1 : UInt64) <<< bit) ≠ 0

instance (options bit : UInt64) : Decidable (hasOption options bit) := instDecidableNot

/-- The factor of `-u` and `-d`, bits 48 to 57. -/
def factor (options : UInt64) : Int32 := ((options <<< 6 >>> 54) + 1).toUInt32.toInt32

/-- The key of `-c`, the low 32 bits. -/
def key (options : UInt64) : UInt32 := (options <<< 32 >>> 32).toUInt32

/-- The bytes of a frame. -/
def AudioHeader.frameSize (hp : AudioHeader) : ℕ := hp.channels.toNat * (hp.encoding - 1).toNat

/-! ## Arguments -/

/-- The characters of an argument, up to its null byte. -/
def argument (argv : List (List UInt8)) (i : ℕ) : Except Fault (List UInt8) :=
  match argv[i]? with
  | none => .error .absentArgument
  | some s => .ok (s.takeWhile (· ≠ 0))

/-- The character `j` of an argument; its null byte is the last one. -/
def argumentChar (argv : List (List UInt8)) (i j : ℕ) : Except Fault UInt8 := do
  let s ← argument argv i
  match s[j]? with
  | some c => .ok c
  | none => if j = s.length then .ok 0 else .error .pastArgument

/-- The options as they are copied from the command line, `" -u -f FACTOR"` for instance. -/
def copyOptions (argv : List (List UInt8)) (mode parameter : UInt8) :
    Except Fault (List UInt8) := do
  let c ← argumentChar argv 2 1
  if c = parameter then
    let s ← argument argv 3
    .ok ([32, 45, mode] ++ [32, 45, parameter, 32] ++ s)
  else .ok [32, 45, mode]

/-- The command line in front of the annotation. -/
def commandLine (options : UInt64) (argv : List (List UInt8)) : Except Fault (List UInt8) := do
  let program ← argument argv 0
  if hasOption options 62 then
    let s ← copyOptions argv 117 102
    .ok (program ++ s)
  else if hasOption options 61 then
    let s ← copyOptions argv 100 102
    .ok (program ++ s)
  else if hasOption options 60 then
    let s ← copyOptions argv 99 107
    .ok (program ++ s)
  else .ok program

/-- The null bytes that bring the annotation to a multiple of eight. -/
def annotationPadded (written : List UInt8) : List UInt8 :=
  let tat := written.length % 8
  if tat ≠ 0 then written ++ List.replicate (8 - tat) 0 else written

/-- The header and the size that go with an annotation that was built. -/
def annotationClosed (hp : AudioHeader) (written : List UInt8) :
    Except Fault (AudioHeader × UInt32 × List UInt8) :=
  if written.length > annotationMax then .error .annotationOverrun
  else
    let hp := { hp with dataOffset := UInt32.ofNat (24 + written.length) }
    .ok (hp, hp.dataOffset - 24, written)

/-- The output annotation with the header and the size that go with it. -/
def annotationBuilt (options : UInt64) (argv : List (List UInt8)) (hp : AudioHeader)
    (size : UInt32) ( inputAnnotation : List UInt8) :
    Except Fault (AudioHeader × UInt32 × List UInt8) :=
  if hasOption options 59 then .ok (hp, size, annotationcpy inputAnnotation)
  else do
    let line ← commandLine options argv
    let copied := if size = 0 then [0] else annotationcpy inputAnnotation
    annotationClosed hp (annotationPadded (line ++ [10] ++ copied))

/-! ## The three modes -/

/-- The loop of `-u`. -/
def speedup (factor : Int32) (size : ℕ) : Int32 → List Frame → List UInt8
  | _, [] => []
  | counter, inputFrame :: frames =>
    (if counter % factor = 0 then writeFrame size inputFrame else []) ++
      speedup factor size (counter + 1) frames

/-- The interpolated frames between two frames. -/
def interpolate (factor : Int32) (channels bytesPerSample : ℕ)
    (previousFrame inputFrame : Frame) : List UInt8 :=
  (List.range' 1 (factor.toInt.toNat - 1)).flatMap fun i =>
    writeFrame (channels * bytesPerSample)
      (calcuFrame channels bytesPerSample previousFrame inputFrame factor (Int32.ofNat i))

/-- The loop of `-d`. -/
def slowdownFrom (factor : Int32) (channels bytesPerSample : ℕ) :
    Frame → List Frame → List UInt8
  | _, [] => []
  | previousFrame, inputFrame :: frames =>
    interpolate factor channels bytesPerSample previousFrame inputFrame ++
      writeFrame (channels * bytesPerSample) inputFrame ++
      slowdownFrom factor channels bytesPerSample inputFrame frames

/-- `-d`: the first frame is written as it is. -/
def slowdown (factor : Int32) (channels bytesPerSample : ℕ) : List Frame → List UInt8
  | [] => []
  | previousFrame :: frames =>
    writeFrame (channels * bytesPerSample) previousFrame ++
      slowdownFrom factor channels bytesPerSample previousFrame frames

/-- The loop of `-c`; `next` is the state of the generator. -/
def crypt (channels bytesPerSample : ℕ) : UInt64 → List Frame → List UInt8
  | _, [] => []
  | next, inputFrame :: frames =>
    let (outputFrame, next) := cryptFrame channels bytesPerSample inputFrame next
    writeFrame (channels * bytesPerSample) outputFrame ++ crypt channels bytesPerSample next frames

/-- The header that is written and the audio bytes, for the mode of the options word. -/
def recodeAudio (options : UInt64) (hp : AudioHeader) (frames : List Frame) :
    Option (AudioHeader × List UInt8) :=
  let channels := hp.channels.toNat
  let bytesPerSample := (hp.encoding - 1).toNat
  if hasOption options 62 then
    some ({ hp with dataSize := hp.dataSize / (factor options).toUInt32 },
      speedup (factor options) (channels * bytesPerSample) 0 frames)
  else if hasOption options 61 then
    some ({ hp with dataSize := hp.dataSize * (factor options).toUInt32 },
      slowdown (factor options) channels bytesPerSample frames)
  else if hasOption options 60 then
    -- mysrand
    some (hp, crypt channels bytesPerSample (key options).toUInt64 frames)
  else none

/-- `recode`: the return value and the output. `c` is what the uninitialised local variable of
`read_annotation` holds. -/
def recode (options : UInt64) (argv : List (List UInt8)) (c : UInt8) (input : List UInt8) :
    Except Fault (Int32 × Option Output) :=
  match readHeader .zero input with
  | none => .ok (0, none)
  | some (hp, input) =>
    let size := hp.dataOffset - 24
    if size > UInt32.ofNat annotationMax then .ok (0, none)
    else
      match readAnnotation c size.toNat input with
      | none => .ok (0, none)
      | some ( inputAnnotation, input) => do
        let (hp, size, outputAnnotation) ← annotationBuilt options argv hp size inputAnnotation
        let frames := readFrames hp.frameSize input
        match recodeAudio options hp frames with
        | none => .ok (1, none)
        | some (hp, audio) => .ok (1, some ⟨hp, writeAnnotation outputAnnotation size.toNat, audio⟩)

/-! ## Accepted streams -/

/-- The input passes the checks of `read_header`, of the annotation size and of `read_annotation`. -/
def Accepts (c : UInt8) (input : List UInt8) (hp : AudioHeader) (ap audio : List UInt8) : Prop :=
  ∃ rest, readHeader .zero input = some (hp, rest) ∧
    ¬ hp.dataOffset - 24 > UInt32.ofNat annotationMax ∧
    readAnnotation c (hp.dataOffset - 24).toNat rest = some (ap, audio)

variable {c c' : UInt8} {input ap audio : List UInt8} {hp : AudioHeader}

theorem accepts_iff : Accepts c input hp ap audio ↔
    hp.Accepted ∧ ap.length = (hp.dataOffset - 24).toNat ∧ ap.length ≤ annotationMax ∧
      ap.getLastD c = 0 ∧ input = writeHeader hp ++ (ap ++ audio) := by
  have hmax : (UInt32.ofNat annotationMax).toNat = annotationMax := by decide_cbv
  constructor
  · rintro ⟨rest, hheader, hsize, hannotation⟩
    obtain ⟨haccepted, rfl⟩ := readHeader_eq_some.mp hheader
    obtain ⟨rfl, hlength, hlast⟩ := readAnnotation_eq_some.mp hannotation
    have hle : (hp.dataOffset - 24).toNat ≤ annotationMax := by
      rw [← hmax]
      exact UInt32.le_iff_toNat_le.mp (UInt32.not_lt.mp hsize)
    exact ⟨haccepted, hlength, hlength ▸ hle, hlast, rfl⟩
  · rintro ⟨haccepted, hlength, hle, hlast, rfl⟩
    refine ⟨ap ++ audio, readHeader_writeHeader haccepted _, ?_,
      readAnnotation_eq_some.mpr ⟨rfl, hlength, hlast⟩⟩
    rw [gt_iff_lt, UInt32.not_lt, UInt32.le_iff_toNat_le, hmax, ← hlength]
    exact hle

/-- A terminated annotation has a null byte. -/
theorem Accepts.nul_mem (h : Accepts c input hp ap audio) (hne : ap ≠ []) : 0 ∈ ap :=
  mem_of_getLastD hne (accepts_iff.mp h).2.2.2.1

/-- The uninitialised variable does not matter where there is an annotation. -/
theorem Accepts.any (h : Accepts c input hp ap audio) (hne : ap ≠ []) (c' : UInt8) :
    Accepts c' input hp ap audio := by
  obtain ⟨haccepted, hlength, hmax, hlast, hinput⟩ := accepts_iff.mp h
  refine accepts_iff.mpr ⟨haccepted, hlength, hmax, ?_, hinput⟩
  rw [List.getLastD_eq_getLast?, List.getLast?_eq_some_getLast hne, Option.getD_some] at hlast ⊢
  exact hlast

/-- Under `-p` the output is the kept annotation between what the loop's mode yields. -/
theorem recode_preserve {options : UInt64} (argv : List (List UInt8)) {hp' : AudioHeader}
    {audio' : List UInt8} (h : Accepts c input hp ap audio) (hpreserve : hasOption options 59)
    (haudio : recodeAudio options hp (readFrames hp.frameSize audio) = some (hp', audio')) :
    recode options argv c input = .ok (1, some ⟨hp', annotationKept ap, audio'⟩) := by
  have hlength := (accepts_iff.mp h).2.1
  obtain ⟨rest, hheader, hsize, hannotation⟩ := h
  have hbuild : annotationBuilt options argv hp (hp.dataOffset - 24) ap =
      .ok (hp, hp.dataOffset - 24, annotationcpy ap) := if_pos hpreserve
  rw [recode, hheader]
  simp only [hsize, if_false, hannotation, hbuild, Except.bind, bind, haudio]
  rw [annotationKept, hlength]

/-- What is written behind a header that differs in its data size only is accepted again. -/
theorem Accepts.output (h : Accepts c input hp ap audio) (hne : ap ≠ []) (c' : UInt8)
    (dataSize : UInt32) (audio' : List UInt8) :
    Accepts c' (Output.bytes ⟨{ hp with dataSize := dataSize }, annotationKept ap, audio'⟩)
      { hp with dataSize := dataSize } (annotationKept ap) audio' := by
  have hnul := h.nul_mem hne
  obtain ⟨haccepted, hlength, hmax, -, -⟩ := accepts_iff.mp h
  apply accepts_iff.mpr
  refine ⟨?_, ?_, ?_, getLastD_annotationKept hmax hnul c', rfl⟩
  · obtain ⟨hmagic, hoffset, hencoding, hchannels⟩ := haccepted
    exact ⟨hmagic, hoffset, hencoding, hchannels⟩
  · rw [length_annotationKept hmax]
    exact hlength
  · rw [length_annotationKept hmax]
    exact hmax

/-- There are one or two channels of one to four bytes. -/
theorem AudioHeader.Accepted.format (h : hp.Accepted) :
    (hp.channels.toNat = 1 ∨ hp.channels.toNat = 2) ∧
      1 ≤ (hp.encoding - 1).toNat ∧ (hp.encoding - 1).toNat ≤ 4 := by
  have hchannels : hp.channels = 1 ∨ hp.channels = 2 :=
    h.channels.imp (congrArg Int32.toUInt32) (congrArg Int32.toUInt32)
  have hencoding : hp.encoding = 2 ∨ hp.encoding = 3 ∨ hp.encoding = 4 ∨ hp.encoding = 5 :=
    h.encoding.imp (congrArg Int32.toUInt32) (Or.imp (congrArg Int32.toUInt32)
      (Or.imp (congrArg Int32.toUInt32) (congrArg Int32.toUInt32)))
  constructor
  · rcases hchannels with h | h <;> rw [h] <;> decide
  · rcases hencoding with h | h | h | h <;> rw [h] <;> decide

theorem AudioHeader.Accepted.frameSize_pos (h : hp.Accepted) : 0 < hp.frameSize := by
  obtain ⟨hchannels, hbytes, -⟩ := h.format
  apply Nat.mul_pos
  · omega
  · exact hbytes

end CLanguage.Audio
