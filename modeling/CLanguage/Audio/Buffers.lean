import CLanguage.Audio.AudioBytes

/-!
# Where the accesses go

`recodeAccesses` lists the elements of the five buffers that a run of `recode` reads and
writes. No loop compares an index with the size of a buffer. `staysInside_iff` is the condition
under which every access is inside: no argument is absent, the annotation that is built fits,
and a frame has no more bytes than a frame buffer has integers.
-/

namespace CLanguage.Audio

open Lib

/-- The buffers of `recode`: `input_annotation`, `output_annotation`, `previous_frame`, `input_frame`
and `output_frame`. -/
inductive Buffer
  | annotationIn
  | annotationOut
  | previousFrame
  | inputFrame
  | outputFrame
  deriving DecidableEq

/-- The elements of a buffer. The eight bytes of a frame buffer are used as integers of four. -/
def Buffer.size : Buffer → ℕ
  | .annotationIn => annotationMax
  | .annotationOut => annotationMax
  | .previousFrame => 2
  | .inputFrame => 2
  | .outputFrame => 2

/-- An access to an element of a buffer. -/
structure Access where
  buffer : Buffer
  index : ℕ
  deriving DecidableEq

/-- All accesses are inside their buffers. -/
def Inside (accesses : List Access) : Prop := ∀ a ∈ accesses, a.index < a.buffer.size

instance (accesses : List Access) : Decidable (Inside accesses) :=
  inferInstanceAs (Decidable (∀ a ∈ accesses, a.index < a.buffer.size))

/-- A loop over the first `n` elements of a buffer. -/
def firstOf (b : Buffer) (n : ℕ) : List Access := (List.range n).map fun j => ⟨b, j⟩

/-! ### The loops -/

/-- `read_frame`: an element is written for each byte that is there. -/
def readFrameAccesses (b : Buffer) (size : ℕ) (input : List UInt8) : List Access :=
  firstOf b (min size input.length)

/-- `calcu_frame` -/
def calcuFrameAccesses (channels bytesPerSample : ℕ) : List Access :=
  (List.range channels).flatMap fun j =>
    ((List.range bytesPerSample).flatMap fun g =>
      [⟨.previousFrame, j * bytesPerSample + g⟩, ⟨.inputFrame, j * bytesPerSample + g⟩]) ++
    (List.range bytesPerSample).map fun g => ⟨.outputFrame, j * bytesPerSample + g⟩

/-- The loop over the channels of a frame that is encrypted. -/
def cryptFrameAccesses (channels bytesPerSample : ℕ) : List Access :=
  (List.range channels).flatMap fun g =>
    ((List.range bytesPerSample).map fun j => ⟨.inputFrame, g * bytesPerSample + j⟩) ++
    (List.range bytesPerSample).map fun j => ⟨.outputFrame, g * bytesPerSample + j⟩

/-- `framecpy` -/
def framecpyAccesses (size : ℕ) : List Access :=
  firstOf .previousFrame size ++ firstOf .inputFrame size

/-- The loop of `-u`; `fuel` is above the number of frames. -/
def speedupAccesses (factor : Int32) (size : ℕ) : ℕ → Int32 → List UInt8 → List Access
  | 0, _, _ => []
  | fuel + 1, counter, input =>
    readFrameAccesses .inputFrame size input ++
      match readFrame size input with
      | none => []
      | some (_, input) => (if counter % factor = 0 then firstOf .inputFrame size else []) ++
          speedupAccesses factor size fuel (counter + 1) input

/-- The loop of `-d`, behind the first frame. -/
def slowdownAccesses (factor : Int32) (channels bytesPerSample : ℕ) : ℕ → List UInt8 → List Access
  | 0, _ => []
  | fuel + 1, input =>
    let size := channels * bytesPerSample
    readFrameAccesses .inputFrame size input ++
      match readFrame size input with
      | none => []
      | some (_, input) =>
        ((List.range' 1 (factor.toInt.toNat - 1)).flatMap fun _ =>
          calcuFrameAccesses channels bytesPerSample ++ firstOf .outputFrame size) ++
        firstOf .inputFrame size ++ framecpyAccesses size ++
        slowdownAccesses factor channels bytesPerSample fuel input

/-- The loop of `-c`. -/
def cryptAccesses (channels bytesPerSample : ℕ) : ℕ → List UInt8 → List Access
  | 0, _ => []
  | fuel + 1, input =>
    let size := channels * bytesPerSample
    readFrameAccesses .inputFrame size input ++
      match readFrame size input with
      | none => []
      | some (_, input) => cryptFrameAccesses channels bytesPerSample ++ firstOf .outputFrame size ++
          cryptAccesses channels bytesPerSample fuel input

/-- The frames of each mode. -/
def frameAccesses (options : UInt64) (hp : AudioHeader) (audio : List UInt8) : List Access :=
  let channels := hp.channels.toNat
  let bytesPerSample := (hp.encoding - 1).toNat
  let size := channels * bytesPerSample
  if hasOption options 62 then
    speedupAccesses (factor options) size (audio.length + 1) 0 audio
  else if hasOption options 61 then
    readFrameAccesses .previousFrame size audio ++
      match readFrame size audio with
      | none => []
      | some (_, audio) => firstOf .previousFrame size ++
          slowdownAccesses (factor options) channels bytesPerSample (audio.length + 1) audio
  else if hasOption options 60 then
    cryptAccesses channels bytesPerSample (audio.length + 1) audio
  else []

/-- The output annotation is built: the accesses and its size. -/
def annotationAccesses (options : UInt64) (argv : List (List UInt8)) (size : ℕ)
    ( annotationIn : List UInt8) : Except Fault (List Access × ℕ) :=
  let copied := (annotationcpy annotationIn).length
  if hasOption options 59 then
    .ok (firstOf .annotationIn copied ++ firstOf .annotationOut copied, size)
  else do
    let line ← commandLine options argv
    let written := annotationPadded (line ++ [10] ++
      if size = 0 then [0] else annotationcpy annotationIn)
    .ok ((if size = 0 then [] else firstOf .annotationIn copied) ++
      firstOf .annotationOut written.length, written.length)

/-- `write_annotation` -/
def writeAnnotationAccesses (size : ℕ) : List Access :=
  if size > annotationMax then [] else firstOf .annotationOut size

/-- The accesses of `recode`. -/
def recodeAccesses (options : UInt64) (argv : List (List UInt8)) (c : UInt8) (input : List UInt8) :
    Except Fault (List Access) :=
  match readHeader .zero input with
  | none => .ok []
  | some (hp, input) =>
    let size := hp.dataOffset - 24
    if size > UInt32.ofNat annotationMax then .ok []
    else
      match readAnnotation c size.toNat input with
      | none => .ok (firstOf .annotationIn size.toNat)
      | some ( annotationIn, input) => do
        let (built, size') ← annotationAccesses options argv size.toNat annotationIn
        .ok (firstOf .annotationIn size.toNat ++ built ++ writeAnnotationAccesses size' ++
          frameAccesses options hp input)

/-- A run stays inside: every argument that it reads is there and every access is inside. -/
def StaysInside (options : UInt64) (argv : List (List UInt8)) (c : UInt8) (input : List UInt8) :
    Prop :=
  ∃ accesses, recodeAccesses options argv c input = .ok accesses ∧ Inside accesses

/-- The condition for it, on a stream that is accepted. -/
def FitsBuffers (options : UInt64) (argv : List (List UInt8)) (hp : AudioHeader)
    (ap audio : List UInt8) : Prop :=
  AnnotationFits options argv ap ∧ (hp.frameSize ≤ 2 ∨ audio.length ≤ 2)

variable {argv : List (List UInt8)} {options : UInt64} {c : UInt8} {input ap audio : List UInt8}
  {hp : AudioHeader} {accesses accesses' : List Access} {b : Buffer} {n size fuel : ℕ}

/-! ### Inside -/

theorem inside_append : Inside (accesses ++ accesses') ↔ Inside accesses ∧ Inside accesses' :=
  List.forall_mem_append

theorem inside_firstOf : Inside (firstOf b n) ↔ n ≤ b.size := by
  simp only [Inside, firstOf, List.forall_mem_map, List.mem_range]
  constructor
  · intro h
    by_contra hlt
    exact absurd (h b.size (Nat.lt_of_not_le hlt)) (Nat.lt_irrefl _)
  · exact fun h j hj => Nat.lt_of_lt_of_le hj h

theorem inside_nil : Inside [] := List.forall_mem_nil _

/-- Accesses to frame buffers, to the elements of a frame. -/
def Within (size : ℕ) (accesses : List Access) : Prop :=
  ∀ a ∈ accesses, a.buffer.size = 2 ∧ a.index < size

theorem Within.inside (h : Within size accesses) (hsize : size ≤ 2) : Inside accesses := by
  intro a ha
  obtain ⟨hbuffer, hindex⟩ := h a ha
  rw [hbuffer]
  exact Nat.lt_of_lt_of_le hindex hsize

theorem within_append : Within size (accesses ++ accesses') ↔
    Within size accesses ∧ Within size accesses' :=
  List.forall_mem_append

theorem within_nil : Within size [] := List.forall_mem_nil _

theorem within_firstOf (hb : b.size = 2) (hn : n ≤ size) : Within size (firstOf b n) := by
  simp only [Within, firstOf, List.forall_mem_map, List.mem_range]
  exact fun j hj => ⟨hb, Nat.lt_of_lt_of_le hj hn⟩

theorem within_readFrame (hb : b.size = 2) : Within size (readFrameAccesses b size input) :=
  within_firstOf hb (Nat.min_le_left _ _)

theorem sample_index_lt {channels bytesPerSample j g : ℕ} (hj : j < channels)
    (hg : g < bytesPerSample) : j * bytesPerSample + g < channels * bytesPerSample := by
  calc j * bytesPerSample + g < j * bytesPerSample + bytesPerSample := Nat.add_lt_add_left hg _
    _ = (j + 1) * bytesPerSample := (Nat.succ_mul _ _).symm
    _ ≤ channels * bytesPerSample := Nat.mul_le_mul_right _ hj

theorem within_calcuFrame (channels bytesPerSample : ℕ) :
    Within (channels * bytesPerSample) (calcuFrameAccesses channels bytesPerSample) := by
  intro a ha
  obtain ⟨j, hj, ha⟩ := List.mem_flatMap.mp ha
  have hj := List.mem_range.mp hj
  rcases List.mem_append.mp ha with ha | ha
  · obtain ⟨g, hg, ha⟩ := List.mem_flatMap.mp ha
    have hg := List.mem_range.mp hg
    rcases List.mem_pair.mp ha with rfl | rfl
    · exact ⟨rfl, sample_index_lt hj hg⟩
    · exact ⟨rfl, sample_index_lt hj hg⟩
  · obtain ⟨g, hg, rfl⟩ := List.mem_map.mp ha
    exact ⟨rfl, sample_index_lt hj (List.mem_range.mp hg)⟩

theorem within_cryptFrame (channels bytesPerSample : ℕ) :
    Within (channels * bytesPerSample) (cryptFrameAccesses channels bytesPerSample) := by
  intro a ha
  obtain ⟨g, hg, ha⟩ := List.mem_flatMap.mp ha
  have hg := List.mem_range.mp hg
  rcases List.mem_append.mp ha with ha | ha
  all_goals
    obtain ⟨j, hj, rfl⟩ := List.mem_map.mp ha
    exact ⟨rfl, sample_index_lt hg (List.mem_range.mp hj)⟩

/-! ### The loops stay within a frame -/

theorem within_speedup (factor : Int32) (size fuel : ℕ) (counter : Int32) (input : List UInt8) :
    Within size (speedupAccesses factor size fuel counter input) := by
  induction fuel generalizing counter input with
  | zero => exact within_nil
  | succ fuel ih =>
    rw [speedupAccesses, within_append]
    refine ⟨within_readFrame rfl, ?_⟩
    split
    · exact within_nil
    · rw [within_append]
      refine ⟨?_, ih _ _⟩
      split
      · exact within_firstOf rfl le_rfl
      · exact within_nil

theorem within_slowdown (factor : Int32) (channels bytesPerSample fuel : ℕ) (input : List UInt8) :
    Within (channels * bytesPerSample)
      (slowdownAccesses factor channels bytesPerSample fuel input) := by
  induction fuel generalizing input with
  | zero => exact within_nil
  | succ fuel ih =>
    rw [slowdownAccesses, within_append]
    refine ⟨within_readFrame rfl, ?_⟩
    split
    · exact within_nil
    · rw [within_append, within_append, within_append, framecpyAccesses, within_append]
      refine ⟨⟨⟨?_, within_firstOf rfl le_rfl⟩, within_firstOf rfl le_rfl,
        within_firstOf rfl le_rfl⟩, ih _⟩
      intro a ha
      obtain ⟨_, _, ha⟩ := List.mem_flatMap.mp ha
      exact within_append.mpr ⟨within_calcuFrame _ _, within_firstOf rfl le_rfl⟩ a ha

theorem within_crypt (channels bytesPerSample fuel : ℕ) (input : List UInt8) :
    Within (channels * bytesPerSample) (cryptAccesses channels bytesPerSample fuel input) := by
  induction fuel generalizing input with
  | zero => exact within_nil
  | succ fuel ih =>
    rw [cryptAccesses, within_append]
    refine ⟨within_readFrame rfl, ?_⟩
    split
    · exact within_nil
    · rw [within_append, within_append]
      exact ⟨⟨within_cryptFrame _ _, within_firstOf rfl le_rfl⟩, ih _⟩

theorem within_frames (options : UInt64) (hp : AudioHeader) (audio : List UInt8) :
    Within hp.frameSize (frameAccesses options hp audio) := by
  rw [frameAccesses]
  split
  · exact within_speedup _ _ _ _ _
  split
  · rw [within_append]
    refine ⟨within_readFrame rfl, ?_⟩
    split
    · exact within_nil
    · exact within_append.mpr ⟨within_firstOf rfl le_rfl, within_slowdown _ _ _ _ _⟩
  split
  · exact within_crypt _ _ _ _
  · exact within_nil

/-- In each mode a first frame is read. -/
theorem frameAccesses_start {flag : Flag} (hflag : flag.Selected options) (hp : AudioHeader)
    (audio : List UInt8) :
    ∃ b rest, b.size = 2 ∧
      frameAccesses options hp audio = readFrameAccesses b hp.frameSize audio ++ rest ∧
      (readFrame hp.frameSize audio = none → rest = []) := by
  cases flag with
  | speedup =>
    refine ⟨.inputFrame, _, rfl, (if_pos ((hflag .speedup).mpr rfl)).trans rfl, fun hcut => ?_⟩
    rw [AudioHeader.frameSize] at hcut
    simp only [hcut]
  | slowdown =>
    have hno : ¬ hasOption options 62 := fun hset => by cases (hflag .speedup).mp hset
    refine ⟨.previousFrame, _, rfl,
      (if_neg hno).trans ((if_pos ((hflag .slowdown).mpr rfl)).trans rfl), fun hcut => ?_⟩
    rw [AudioHeader.frameSize] at hcut
    simp only [hcut]
  | crypt =>
    have hno : ¬ hasOption options 62 := fun hset => by cases (hflag .speedup).mp hset
    have hno' : ¬ hasOption options 61 := fun hset => by cases (hflag .slowdown).mp hset
    refine ⟨.inputFrame, _, rfl,
      (if_neg hno).trans ((if_neg hno').trans ((if_pos ((hflag .crypt).mpr rfl)).trans rfl)),
      fun hcut => ?_⟩
    rw [AudioHeader.frameSize] at hcut
    simp only [hcut]

theorem inside_frames_iff {flag : Flag} (hflag : flag.Selected options) (hp : AudioHeader)
    (audio : List UInt8) :
    Inside (frameAccesses options hp audio) ↔ hp.frameSize ≤ 2 ∨ audio.length ≤ 2 := by
  obtain ⟨b, rest, hb, hstart, hcut⟩ := frameAccesses_start hflag hp audio
  constructor
  · intro h
    rw [hstart, inside_append, readFrameAccesses, inside_firstOf, hb] at h
    omega
  · rintro (hsize | hlength)
    · exact (within_frames options hp audio).inside hsize
    · by_cases hsize : hp.frameSize ≤ 2
      · exact (within_frames options hp audio).inside hsize
      · -- the frame is incomplete
        rw [hstart, hcut (readFrame_cut (by omega)), List.append_nil, readFrameAccesses,
          inside_firstOf, hb]
        omega

/-! ### The annotation -/

/-- The copy of an accepted annotation fits. -/
theorem Accepts.copied_le (h : Accepts c input hp ap audio) :
    (annotationcpy ap).length ≤ annotationMax := by
  have hmax := (accepts_iff.mp h).2.2.1
  rw [annotationcpy_eq, List.length_append, List.length_singleton]
  by_cases hne : ap = []
  · subst hne
    decide
  · have hlt : (ap.takeWhile (· ≠ 0)).length < ap.length := by
      refine Nat.lt_of_le_of_ne (List.takeWhile_prefix _).length_le fun heq => ?_
      have hall := (List.takeWhile_prefix (p := (· ≠ 0)) (l := ap)).eq_of_length heq
      refine nul_not_mem_takeWhile ap ?_
      rw [hall]
      exact h.nul_mem hne
    omega

/-- An annotation fits if and only if it is built. -/
theorem annotationFits_iff (hargs : Recodes argv options) (h : Accepts c input hp ap audio) :
    AnnotationFits options argv ap ↔
      ∃ built, annotationBuilt options argv hp (hp.dataOffset - 24) ap = .ok built := by
  obtain ⟨flag, hflag, -⟩ := validargs_accepted hargs
  obtain ⟨hfits, out, hrun⟩ | ⟨hfits, e, hrun⟩ := recode_fits hargs h
  · refine iff_of_true hfits ?_
    cases hbuilt : annotationBuilt options argv hp (hp.dataOffset - 24) ap with
    | ok built => exact ⟨built, rfl⟩
    | error e =>
      rw [h.recode_error hbuilt] at hrun
      exact absurd hrun nofun
  · refine iff_of_false hfits ?_
    rintro ⟨⟨hp', size, written⟩, hbuilt⟩
    obtain ⟨hp₂, audio', haudio, -⟩ := hflag.recodeAudio_eq hp' (readFrames hp'.frameSize audio)
    rw [h.recode_ok hbuilt haudio] at hrun
    exact absurd hrun nofun

/-- The accesses to the annotation buffers are inside if and only if the annotation is built. -/
theorem inside_annotation_iff (h : Accepts c input hp ap audio) :
    (∃ built size, annotationAccesses options argv (hp.dataOffset - 24).toNat ap =
        .ok (built, size) ∧ Inside built) ↔
      ∃ built, annotationBuilt options argv hp (hp.dataOffset - 24) ap = .ok built := by
  have hcopied := h.copied_le
  have hzero : hp.dataOffset - 24 = 0 ↔ (hp.dataOffset - 24).toNat = 0 := by
    rw [← UInt32.toNat_inj]
    rfl
  rw [annotationAccesses, annotationBuilt]
  -- with `-p` the annotation is copied, and the header has been checked for its length
  by_cases hpreserve : hasOption options 59
  · rw [if_pos hpreserve, if_pos hpreserve]
    refine iff_of_true ⟨_, _, rfl, ?_⟩ ⟨_, rfl⟩
    rw [inside_append, inside_firstOf, inside_firstOf]
    exact ⟨hcopied, hcopied⟩
  · rw [if_neg hpreserve, if_neg hpreserve]
    cases hline : commandLine options argv with
    | error e =>
      refine iff_of_false ?_ ?_
      · rintro ⟨built, size, hrun, -⟩
        cases hrun
      · rintro ⟨built, hrun⟩
        cases hrun
    | ok line =>
      simp only [hzero, ok_bind]
      -- the length of what is written decides on both sides
      generalize annotationPadded _ = written
      have hread : Inside (if (hp.dataOffset - 24).toNat = 0 then []
          else firstOf .annotationIn (annotationcpy ap).length) := by
        split
        · exact inside_nil
        · exact inside_firstOf.mpr hcopied
      constructor
      · rintro ⟨built, size, hrun, hinside⟩
        rw [Except.ok.injEq, Prod.mk.injEq] at hrun
        obtain ⟨rfl, rfl⟩ := hrun
        have hfits := inside_firstOf.mp (inside_append.mp hinside).2
        exact ⟨_, if_neg (Nat.not_lt.mpr hfits)⟩
      · rintro ⟨built, hrun⟩
        have hfits : ¬ written.length > annotationMax := by
          intro hlong
          have hfault : annotationClosed hp written = .error .annotationOverrun := if_pos hlong
          cases hfault.symm.trans hrun
        exact ⟨_, _, rfl, inside_append.mpr ⟨hread, inside_firstOf.mpr (Nat.not_lt.mp hfits)⟩⟩

/-! ### The run -/

theorem Accepts.unique {hp' : AudioHeader} {ap' audio' : List UInt8}
    (h : Accepts c input hp ap audio) (h' : Accepts c input hp' ap' audio') :
    hp' = hp ∧ ap' = ap ∧ audio' = audio := by
  obtain ⟨rest, hheader, -, hannot⟩ := h
  obtain ⟨rest', hheader', -, hannot'⟩ := h'
  rw [hheader, Option.some.injEq, Prod.mk.injEq] at hheader'
  obtain ⟨rfl, rfl⟩ := hheader'
  rw [hannot, Option.some.injEq, Prod.mk.injEq] at hannot'
  exact ⟨rfl, hannot'.1.symm, hannot'.2.symm⟩

/-- The accesses behind an accepted stream. -/
theorem Accepts.recodeAccesses_eq (h : Accepts c input hp ap audio) (options : UInt64)
    (argv : List (List UInt8)) :
    recodeAccesses options argv c input =
      annotationAccesses options argv (hp.dataOffset - 24).toNat ap >>= fun r =>
        .ok (firstOf .annotationIn (hp.dataOffset - 24).toNat ++ r.1 ++
          writeAnnotationAccesses r.2 ++ frameAccesses options hp audio) := by
  obtain ⟨rest, hheader, hsize, hannot⟩ := h
  rw [recodeAccesses, hheader]
  simp only [hsize, if_false, hannot]

/-- A stream that is not accepted is left at a check, and at most its annotation was read. -/
theorem staysInside_of_refused (h : ¬ ∃ hp ap audio, Accepts c input hp ap audio)
    (options : UInt64) (argv : List (List UInt8)) : StaysInside options argv c input := by
  rw [StaysInside, recodeAccesses]
  cases hheader : readHeader .zero input with
  | none => exact ⟨[], rfl, inside_nil⟩
  | some r =>
    obtain ⟨hp, rest⟩ := r
    by_cases hsize : hp.dataOffset - 24 > UInt32.ofNat annotationMax
    · simp only [hsize, if_true]
      exact ⟨[], rfl, inside_nil⟩
    · simp only [hsize, if_false]
      cases hannot : readAnnotation c (hp.dataOffset - 24).toNat rest with
      | some r => exact absurd ⟨hp, r.1, r.2, rest, hheader, hsize, hannot⟩ h
      | none =>
        refine ⟨_, rfl, inside_firstOf.mpr ?_⟩
        exact UInt32.le_iff_toNat_le.mp (UInt32.not_lt.mp hsize)

theorem inside_writeAnnotation (size : ℕ) : Inside (writeAnnotationAccesses size) := by
  rw [writeAnnotationAccesses]
  split
  · exact inside_nil
  · next h => exact inside_firstOf.mpr (Nat.not_lt.mp h)

/-- A run with accepted arguments stays inside its arguments and buffers if and only if its stream
is refused or fits. -/
theorem staysInside_iff (hargs : Recodes argv options) (c : UInt8) (input : List UInt8) :
    StaysInside options argv c input ↔
      ∀ hp ap audio, Accepts c input hp ap audio → FitsBuffers options argv hp ap audio := by
  obtain ⟨flag, hflag, -⟩ := validargs_accepted hargs
  by_cases haccepts : ∃ hp ap audio, Accepts c input hp ap audio
  · obtain ⟨hp, ap, audio, h⟩ := haccepts
    have hread : Inside (firstOf .annotationIn (hp.dataOffset - 24).toNat) := by
      obtain ⟨-, hlength, hmax, -⟩ := accepts_iff.mp h
      exact inside_firstOf.mpr (hlength ▸ hmax)
    -- there is at most one way to accept the input
    have hall : (∀ hp ap audio, Accepts c input hp ap audio → FitsBuffers options argv hp ap audio) ↔
        FitsBuffers options argv hp ap audio := by
      refine ⟨fun hall => hall hp ap audio h, fun hfits hp' ap' audio' h' => ?_⟩
      obtain ⟨rfl, rfl, rfl⟩ := h.unique h'
      exact hfits
    rw [hall, FitsBuffers, annotationFits_iff hargs h, ← inside_annotation_iff h,
      ← inside_frames_iff hflag hp audio, StaysInside, h.recodeAccesses_eq]
    constructor
    · -- of the four parts only the annotation built and the frames are in question
      rintro ⟨accesses, hrun, hinside⟩
      obtain ⟨⟨built, size⟩, hbuilt, hall⟩ := bind_eq_ok hrun
      obtain rfl := Except.ok.inj hall
      rw [inside_append, inside_append, inside_append] at hinside
      exact ⟨⟨built, size, hbuilt, hinside.1.1.2⟩, hinside.2⟩
    · rintro ⟨⟨built, size, hbuilt, hinside⟩, hframes⟩
      refine ⟨_, bind_ok hbuilt rfl, ?_⟩
      rw [inside_append, inside_append, inside_append]
      exact ⟨⟨⟨hread, hinside⟩, inside_writeAnnotation size⟩, hframes⟩
  · exact iff_of_true (staysInside_of_refused haccepts options argv)
      fun hp ap audio h => absurd ⟨hp, ap, audio, h⟩ haccepts

/-! ### Two command lines -/

theorem staysInside_iff_example :
    StaysInside (setOption (setOption 0 62) 59) [[97], [45, 117], [45, 112]] 0 shortStream := by
  refine (staysInside_iff (by decide_cbv) 0 shortStream).mpr fun hp ap audio h => ?_
  obtain ⟨rfl, rfl, rfl⟩ := (accepts_shortStream 0).unique h
  exact ⟨.inl (by decide_cbv), .inl (by decide_cbv)⟩

/-- One frame of a 32-bit sample behind the annotation "hello". -/
def wideStream : List UInt8 :=
  writeHeader { shortHeader with dataSize := 4, encoding := 5 } ++
    ([104, 101, 108, 108, 111, 0, 0, 0] ++ [1, 2, 3, 4])

/-- The words "a" and "-u": the third word is read. The words "a", "-u" and "-p": the bytes of a
sample are stored behind the two integers of the frame. -/
theorem leaves_buffers :
    (Recodes [[97], [45, 117]] (setOption 0 62) ∧
      ¬ StaysInside (setOption 0 62) [[97], [45, 117]] 0 shortStream) ∧
    Recodes [[97], [45, 117], [45, 112]] (setOption (setOption 0 62) 59) ∧
      ¬ StaysInside (setOption (setOption 0 62) 59) [[97], [45, 117], [45, 112]] 0 wideStream := by
  refine ⟨⟨by decide_cbv, ?_⟩, by decide_cbv, ?_⟩
  · rintro ⟨accesses, hrun, -⟩
    have hfault : (recodeAccesses (setOption 0 62) [[97], [45, 117]] 0 shortStream).toOption =
        none := by decide_cbv
    rw [hrun] at hfault
    cases hfault
  · rintro ⟨accesses, hrun, hinside⟩
    have hleaves : ((recodeAccesses (setOption (setOption 0 62) 59) [[97], [45, 117], [45, 112]] 0
        wideStream).toOption.map fun accesses => decide (Inside accesses)) = some false := by
      decide_cbv
    rw [hrun] at hleaves
    exact of_decide_eq_false (Option.some.inj hleaves) hinside

end CLanguage.Audio
