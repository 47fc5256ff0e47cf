import CLanguage.Audio.CommandLine
import CLanguage.Audio.DataSize
import CLanguage.Audio.Interpolated

/-!
# Runs in a pipe

The program reads a stream and writes one, so its runs can be put behind one another in a
pipe. Every run without `-p` puts its command line in front of the annotation, which is
how the annotation tells the history of a sound. As long as that fits, no run of a pipe
refuses what the one before it has written.

## Main definitions

* `Filter`, `pipe` — the runs of a pipe
* `Filter.line`, `Filter.dataSize` — what a run adds to the annotation, and the data size it
  writes
* `Piped` — what a pipe does to a stream

## Main results

* `Filter.runs`, `Filter.run_some` — one run
* `pipe_history` — when a pipe works, and what it writes
-/

namespace CLanguage.Audio

open Lib

/-- A run in a pipe: its command line with the options word that this gives, and what the
uninitialised variable of `read_annotation` holds. -/
structure Filter where
  argv : List (List UInt8)
  options : UInt64
  c : UInt8
  recodes : Recodes argv options

/-- What the run writes, if it returns 1. -/
def Filter.run (f : Filter) (input : List UInt8) : Option (List UInt8) :=
  (recode f.options f.argv f.c input).toOption.bind fun r =>
    if r.1 = 1 then r.2.map Output.bytes else none

/-- What the last run of a pipe writes, if all return 1. -/
def pipe (fs : List Filter) (input : List UInt8) : Option (List UInt8) :=
  fs.foldlM (fun input f => f.run input) input

/-- What the run puts in front of the annotation. -/
def Filter.line (f : Filter) : List UInt8 :=
  if hasOption f.options 59 then []
  else (commandLine f.options f.argv).toOption.getD [] ++ [10]

/-- The data size that the run writes. -/
def Filter.dataSize (f : Filter) (dataSize : UInt32) : UInt32 :=
  if hasOption f.options 62 then dataSize / (factor f.options).toUInt32
  else if hasOption f.options 61 then dataSize * (factor f.options).toUInt32
  else dataSize

/-- The words that `recode` copies are there, or it copies none. -/
def Filter.Complete (f : Filter) : Prop := hasOption f.options 59 ∨ f.argv.length = 4

/-- The annotation up to its first null byte. -/
def AudioStream.text (s : AudioStream) : List UInt8 := s.annotation.takeWhile (· ≠ 0)

variable {f : Filter} {fs gs : List Filter} {s s' : AudioStream} {c : UInt8} {options : UInt64}
  {argv : List (List UInt8)} {input bytes ap audio : List UInt8} {hp hp' : AudioHeader}

/-! ### One run -/

theorem Filter.run_eq {out : Output} (h : recode f.options f.argv f.c input = .ok (1, some out)) :
    f.run input = some out.bytes := by
  rw [Filter.run, h]
  rfl

theorem Filter.run_refused (h : recode f.options f.argv f.c input = .ok (0, none)) :
    f.run input = none := by
  rw [Filter.run, h]
  rfl

theorem Filter.run_error {e : Fault} (h : recode f.options f.argv f.c input = .error e) :
    f.run input = none := by
  rw [Filter.run, h]
  rfl

/-- Of the header the loops change the data size only. -/
theorem recodeAudio_header {frames : List Frame}
    (h : recodeAudio f.options hp frames = some (hp', audio)) :
    hp' = { hp with dataSize := f.dataSize hp.dataSize } := by
  rw [Filter.dataSize]
  rw [recodeAudio] at h
  split at h
  case isTrue hmode =>
    rw [Option.some.injEq, Prod.mk.injEq] at h
    rw [← h.1, if_pos hmode]
  case isFalse hno =>
    rw [if_neg hno]
    split at h
    case isTrue hmode =>
      rw [Option.some.injEq, Prod.mk.injEq] at h
      rw [← h.1, if_pos hmode]
    case isFalse hno' =>
      rw [if_neg hno']
      split at h
      case isTrue =>
        rw [Option.some.injEq, Prod.mk.injEq] at h
        exact h.1.symm
      case isFalse => cases h

theorem takeWhile_padded {l : List UInt8} (h : 0 ∉ l) :
    (padded (l ++ [0])).takeWhile (· ≠ 0) = l := by
  have hall : ∀ b ∈ l, decide (b ≠ 0) = true := fun b hb =>
    decide_eq_true fun hzero => h (hzero ▸ hb)
  rw [padded, List.append_assoc, List.takeWhile_append_of_pos hall]
  simp

theorem takeWhile_annotationKept (hmax : ap.length ≤ annotationMax) (hnul : 0 ∈ ap) :
    (annotationKept ap).takeWhile (· ≠ 0) = ap.takeWhile (· ≠ 0) := by
  have hall : ∀ b ∈ ap.takeWhile (· ≠ 0), decide (b ≠ 0) = true :=
    fun b hb => decide_eq_true fun hzero => nul_not_mem_takeWhile ap (hzero ▸ hb)
  obtain ⟨k, hk⟩ := annotationKept_eq hmax hnul
  rw [hk, annotationcpy_eq, List.append_assoc, List.takeWhile_append_of_pos hall]
  simp

/-- What a run writes in place of the annotation. -/
def Filter.annotation (f : Filter) (ap : List UInt8) : List UInt8 :=
  if hasOption f.options 59 then annotationKept ap
  else padded (f.line ++ ap.takeWhile (· ≠ 0) ++ [0])

theorem length_padded (l : List UInt8) :
    (padded l).length = l.length + (8 - l.length % 8) % 8 := by
  rw [padded, List.length_append, List.length_replicate]

theorem getLast?_padded (l : List UInt8) : (padded (l ++ [0])).getLast? = some 0 := by
  rw [padded, List.getLast?_append, List.getLast?_replicate, List.getLast?_append]
  split
  · rfl
  · rfl

theorem getLast?_annotationKept (hmax : ap.length ≤ annotationMax) (hnul : 0 ∈ ap) :
    (annotationKept ap).getLast? = some 0 := by
  have hlast := getLastD_annotationKept hmax hnul 1
  rw [List.getLastD_eq_getLast?] at hlast
  cases h : (annotationKept ap).getLast? with
  | none =>
    rw [h] at hlast
    exact absurd hlast (by decide)
  | some b =>
    rw [h] at hlast
    exact congrArg some hlast

/-- There is a parameter to copy and room for it. -/
def Filter.Fits (f : Filter) (s : AudioStream) : Prop :=
  f.Complete ∧ (f.line ++ s.text).length < 1024

/-- What a run that returns 1 writes for a stream. -/
structure Filtered (f : Filter) (s s' : AudioStream) : Prop where
  short : s.annotation.length ≤ 1000
  fits : f.Fits s
  annotation : s'.annotation = f.annotation s.annotation
  audio : ∃ dataOffset, recodeAudio f.options { s.header with dataOffset := dataOffset }
    (readFrames s.header.frameSize s.audio) = some (s'.header, s'.audio)

theorem AudioStream.nul_mem (s : AudioStream) (hne : s.annotation ≠ []) : 0 ∈ s.annotation :=
  List.mem_of_getLast? (s.terminated hne)

theorem AudioStream.length_text_lt (s : AudioStream) (hne : s.annotation ≠ []) :
    s.text.length < s.annotation.length := by
  refine Nat.lt_of_le_of_ne (List.takeWhile_prefix _).length_le fun hlength => ?_
  have hwhole : s.text = s.annotation := (List.takeWhile_prefix _).eq_of_length hlength
  have hfree : 0 ∉ s.text := nul_not_mem_takeWhile _
  rw [hwhole] at hfree
  exact hfree (s.nul_mem hne)

theorem Filter.line_kept (hpreserve : hasOption f.options 59) : f.line = [] := if_pos hpreserve

/-- A stream with another data offset, another data size, another annotation and other audio. -/
theorem AudioStream.exists_of_header (s : AudioStream) (audio : List UInt8)
    {dataOffset dataSize : UInt32}
    (hheader : hp = { s.header with dataOffset := dataOffset, dataSize := dataSize })
    (hoffset : hp.dataOffset.toNat = 24 + ap.length) (aligned : 8 ∣ ap.length)
    (bounded : ap.length ≤ annotationMax) (terminated : ap.getLast? = some 0) :
    ∃ s' : AudioStream, s'.bytes = Output.bytes ⟨hp, ap, audio⟩ ∧ s'.header = hp ∧
      s'.annotation = ap ∧ s'.audio = audio := by
  refine ⟨⟨hp, ap, audio, ?_, ?_, ?_, hoffset, aligned, bounded, fun _ => terminated⟩, rfl, rfl,
    rfl, rfl⟩
  · rw [hheader]
    exact s.magicNumber
  · rw [hheader]
    exact s.encoding
  · rw [hheader]
    exact s.channels

/-- The run under `-p`. -/
theorem Filter.run_kept (hpreserve : hasOption f.options 59) (hne : s.annotation ≠ [])
    (hL : s.annotation.length ≤ 1000) : ∃ s', f.run s.bytes = some s'.bytes ∧ Filtered f s s' := by
  obtain ⟨flag, hflag, -⟩ := validargs_accepted f.recodes
  have haccepts := s.accepts (c := f.c) hL fun hempty => absurd hempty hne
  obtain ⟨hp, audio, haudio, hoffset⟩ := hflag.recodeAudio_eq s.header
    (readFrames s.header.frameSize s.audio)
  have hrun := recode_preserve f.argv haccepts hpreserve haudio
  have hlength := length_annotationKept s.bounded
  have hheader : hp = { s.header with
      dataOffset := s.header.dataOffset, dataSize := f.dataSize s.header.dataSize } :=
    recodeAudio_header haudio
  obtain ⟨s', hbytes, rfl, hpadded, rfl⟩ := s.exists_of_header audio hheader
    (by rw [hoffset, hlength, s.dataOffset]) (hlength ▸ s.aligned) (hlength ▸ s.bounded)
    (getLast?_annotationKept s.bounded (s.nul_mem hne))
  refine ⟨s', ?_, hL, ⟨.inl hpreserve, ?_⟩, ?_, s.header.dataOffset, haudio⟩
  · rw [Filter.run_eq hrun, hbytes]
  · have htext := s.length_text_lt hne
    rw [f.line_kept hpreserve, List.nil_append]
    omega
  · rw [hpadded, Filter.annotation, if_pos hpreserve]

/-- The run without `-p`, behind a parameter. -/
theorem Filter.run_built (hpreserve : ¬ hasOption f.options 59) (hfour : f.argv.length = 4)
    (hne : s.annotation ≠ []) (hL : s.annotation.length ≤ 1000) :
    (∃ s', f.run s.bytes = some s'.bytes ∧ Filtered f s s') ∨
      (¬ f.Fits s ∧ f.run s.bytes = none) := by
  obtain ⟨flag, hflag, -, -, hgiven⟩ := validargs_accepted f.recodes
  have haccepts := s.accepts (c := f.c) hL fun hempty => absurd hempty hne
  obtain ⟨program, mode, name, value, hwords⟩ := words_four hfour
  have hletter : argumentChar f.argv 2 1 = .ok flag.parameter := by
    rcases hgiven with hset | htwo | ⟨-, hletter⟩
    · exact absurd hset hpreserve
    · omega
    · exact hletter
  have hcommand := commandLine_four hflag hwords hletter
  have hline : f.line = program ++ ([32, 45, flag.letter] ++ [32, 45, flag.parameter, 32] ++ value)
      ++ [10] := by
    rw [Filter.line, if_neg hpreserve, hcommand]
    rfl
  -- the annotation is written behind its history line, and filled up with null bytes
  have hbuilt : annotationPadded (program ++ ([32, 45, flag.letter] ++
      [32, 45, flag.parameter, 32] ++ value) ++ [10] ++ annotationcpy s.annotation) =
      f.annotation s.annotation := by
    rw [annotationPadded_eq, Filter.annotation, if_neg hpreserve, hline, annotationcpy_eq,
      ← List.append_assoc]
  have hlength : (f.annotation s.annotation).length =
      (f.line ++ s.text).length + 1 + (8 - ((f.line ++ s.text).length + 1) % 8) % 8 := by
    rw [Filter.annotation, if_neg hpreserve, length_padded, List.length_append, List.length_singleton]
    rfl
  have hrun := recode_built hflag hpreserve hcommand haccepts hbuilt
  have hmax : annotationMax = 1024 := rfl
  split at hrun
  case isTrue hlong =>
    -- what is written there does not fit into its buffer
    refine .inr ⟨?_, Filter.run_error hrun⟩
    rintro ⟨-, hshort⟩
    omega
  case isFalse hshort =>
    left
    obtain ⟨hp, audio, hrun, hoffset⟩ := hrun
    obtain ⟨dataOffset, haudio⟩ := recode_some haccepts hrun
    have hheader : hp = { s.header with
        dataOffset := dataOffset, dataSize := f.dataSize s.header.dataSize } :=
      recodeAudio_header haudio
    obtain ⟨s', hbytes, rfl, hpadded, rfl⟩ := s.exists_of_header audio hheader
      hoffset (by rw [hlength]; omega) (Nat.not_lt.mp hshort) (by
        rw [Filter.annotation, if_neg hpreserve]
        exact getLast?_padded _)
    exact ⟨s', by rw [Filter.run_eq hrun, hbytes], hL, ⟨.inr hfour, by omega⟩, hpadded,
      dataOffset, haudio⟩

/-- A run writes a stream again, unless there is nothing to copy or no room for it. -/
theorem Filter.runs (f : Filter) (hne : s.annotation ≠ []) (hL : s.annotation.length ≤ 1000) :
    (∃ s', f.run s.bytes = some s'.bytes ∧ Filtered f s s') ∨
      (¬ f.Fits s ∧ f.run s.bytes = none) := by
  obtain ⟨flag, hflag, -, -, hgiven⟩ := validargs_accepted f.recodes
  by_cases hpreserve : hasOption f.options 59
  · exact .inl (Filter.run_kept hpreserve hne hL)
  rcases hgiven with hset | htwo | ⟨hfour, -⟩
  · exact absurd hset hpreserve
  · have haccepts := s.accepts (c := f.c) hL fun hempty => absurd hempty hne
    obtain ⟨e, hrun⟩ := recode_absent hflag hpreserve htwo haccepts
    refine .inr ⟨?_, Filter.run_error hrun⟩
    rintro ⟨hset | hfour, -⟩
    · exact hpreserve hset
    · omega
  · exact Filter.run_built hpreserve hfour hne hL

/-- Whatever stream a run writes, it has done so from a stream with a short annotation. -/
theorem Filter.run_some (hne : s.annotation ≠ []) (hrun : f.run s.bytes = some bytes) :
    ∃ s', bytes = s'.bytes ∧ Filtered f s s' := by
  by_cases hL : s.annotation.length ≤ 1000
  · rcases f.runs hne hL with ⟨s', hrun', hfiltered⟩ | ⟨-, hrun'⟩
    · exact ⟨s', Option.some.inj (hrun.symm.trans hrun'), hfiltered⟩
    · rw [hrun'] at hrun
      cases hrun
  · have hrefused := s.recode_refused (Nat.not_le.mp hL) f.options f.argv f.c
    rw [Filter.run_refused hrefused] at hrun
    cases hrun

/-! ### What a run changes -/

theorem nul_not_mem_argument {i : ℕ} {w : List UInt8} (h : argument argv i = .ok w) : 0 ∉ w := by
  rw [argument] at h
  split at h
  · cases h
  · rw [← Except.ok.inj h]
    exact nul_not_mem_takeWhile _

theorem Filter.nul_not_mem_line (f : Filter) : 0 ∉ f.line := by
  obtain ⟨flag, hflag, -⟩ := validargs_accepted f.recodes
  have hletters : (0 : UInt8) ≠ flag.letter ∧ (0 : UInt8) ≠ flag.parameter := by
    cases flag <;> decide
  rw [Filter.line]
  split
  · exact List.not_mem_nil
  cases hline : commandLine f.options f.argv with
  | error e =>
    simp [Except.toOption]
  | ok line =>
    rw [hflag.commandLine_eq] at hline
    obtain ⟨program, hprogram, hline⟩ := bind_eq_ok hline
    obtain ⟨copied, hcopied, hline⟩ := bind_eq_ok hline
    obtain ⟨b, -, hcopied⟩ := bind_eq_ok hcopied
    have hfree := nul_not_mem_argument hprogram
    rw [← Except.ok.inj hline]
    split at hcopied
    · obtain ⟨value, hvalue, hcopied⟩ := bind_eq_ok hcopied
      rw [← Except.ok.inj hcopied]
      simp [Except.toOption, hfree, nul_not_mem_argument hvalue, hletters]
    · rw [← Except.ok.inj hcopied]
      simp [Except.toOption, hfree, hletters]

theorem Filtered.text (h : Filtered f s s') (hne : s.annotation ≠ []) :
    s'.text = f.line ++ s.text := by
  rw [AudioStream.text, h.annotation, Filter.annotation]
  split
  · next hpreserve =>
    rw [f.line_kept hpreserve, takeWhile_annotationKept s.bounded (s.nul_mem hne)]
    rfl
  · refine takeWhile_padded ?_
    rw [List.mem_append, not_or]
    exact ⟨f.nul_not_mem_line, nul_not_mem_takeWhile _⟩

theorem Filtered.length_annotation (h : Filtered f s s') (hne : s.annotation ≠ []) :
    s'.annotation ≠ [] ∧ (s'.annotation.length ≤ 1000 ↔ (f.line ++ s.text).length < 1000) := by
  have hpos := List.length_pos_iff.mpr hne
  have htext := s.length_text_lt hne
  have hshort := h.short
  rw [← List.length_pos_iff, h.annotation, Filter.annotation]
  split
  · next hpreserve =>
    rw [f.line_kept hpreserve, List.nil_append, length_annotationKept s.bounded]
    omega
  · have hlength : (f.line ++ s.annotation.takeWhile (· ≠ 0) ++ [0]).length =
        (f.line ++ s.text).length + 1 := by
      rw [List.length_append]
      rfl
    rw [length_padded, hlength]
    omega

theorem Filtered.header (h : Filtered f s s') : ∃ dataOffset, s'.header =
    { s.header with dataOffset := dataOffset, dataSize := f.dataSize s.header.dataSize } := by
  obtain ⟨dataOffset, haudio⟩ := h.audio
  exact ⟨dataOffset, recodeAudio_header haudio⟩

theorem Filtered.frameSize (h : Filtered f s s') : s'.header.frameSize = s.header.frameSize := by
  obtain ⟨dataOffset, hheader⟩ := h.header
  rw [hheader]
  rfl

theorem Filtered.length_audio (h : Filtered f s s') : s'.audio.length =
    s.header.frameSize * framesWritten f.options (s.audio.length / s.header.frameSize) := by
  obtain ⟨dataOffset, haudio⟩ := h.audio
  exact length_recodeAudio (s.header_accepted h.short) haudio

/-! ### Pipes -/

/-- The text of the annotation behind a pipe: the lines of its runs, the last one in front. -/
def history (fs : List Filter) (s : AudioStream) : List UInt8 :=
  fs.reverse.flatMap Filter.line ++ s.text

/-- What a pipe writes for a stream. -/
structure Piped (fs : List Filter) (s s' : AudioStream) : Prop where
  complete : ∀ f ∈ fs, f.Complete
  short : fs ≠ [] → s.annotation.length ≤ 1000
  header : ∃ dataOffset, s'.header = { s.header with
    dataOffset := dataOffset, dataSize := fs.foldl (fun d f => f.dataSize d) s.header.dataSize }
  text : s'.text = history fs s
  frames : s'.audio.length / s.header.frameSize =
    fs.foldl (fun n f => framesWritten f.options n) (s.audio.length / s.header.frameSize)
  whole : s.header.frameSize ∣ s.audio.length ∨ fs ≠ [] → s.header.frameSize ∣ s'.audio.length

theorem Piped.refl (s : AudioStream) : Piped [] s s where
  complete _ h := absurd h List.not_mem_nil
  short h := absurd rfl h
  header := ⟨s.header.dataOffset, rfl⟩
  text := rfl
  frames := rfl
  whole h := h.resolve_right fun hne => hne rfl

theorem history_cons {s₁ : AudioStream} (h : Filtered f s s₁) (hne : s.annotation ≠ [])
    (fs : List Filter) : history fs s₁ = history (f :: fs) s := by
  rw [history, history, h.text hne, List.reverse_cons, List.flatMap_append, List.flatMap_singleton,
    List.append_assoc]

theorem Piped.cons {s₁ : AudioStream} (first : Filtered f s s₁) (hne : s.annotation ≠ [])
    (rest : Piped fs s₁ s') : Piped (f :: fs) s s' where
  complete := List.forall_mem_cons.mpr ⟨first.fits.1, rest.complete⟩
  short _ := first.short
  header := by
    obtain ⟨dataOffset, hheader⟩ := first.header
    obtain ⟨dataOffset', hheader'⟩ := rest.header
    refine ⟨dataOffset', ?_⟩
    rw [hheader', hheader]
    rfl
  text := rest.text.trans (history_cons first hne fs)
  frames := by
    have hpos := (s.header_accepted first.short).frameSize_pos
    have hframes := rest.frames
    rw [first.frameSize, first.length_audio, Nat.mul_div_cancel_left _ hpos] at hframes
    exact hframes
  whole _ := by
    have hwhole := rest.whole
    rw [first.frameSize, first.length_audio] at hwhole
    exact hwhole (.inl (Nat.dvd_mul_right _ _))

theorem pipe_cons (f : Filter) (fs : List Filter) (input : List UInt8) :
    pipe (f :: fs) input = (f.run input).bind (pipe fs) := rfl

/-- Whatever a pipe writes. -/
theorem pipe_some (hne : s.annotation ≠ []) (hrun : pipe fs s.bytes = some bytes) :
    ∃ s', bytes = s'.bytes ∧ s'.annotation ≠ [] ∧ Piped fs s s' := by
  induction fs generalizing s with
  | nil => exact ⟨s, (Option.some.inj hrun).symm, hne, .refl s⟩
  | cons f fs ih =>
    rw [pipe_cons] at hrun
    obtain ⟨input, hfirst, hrest⟩ := Option.bind_eq_some_iff.mp hrun
    obtain ⟨s₁, rfl, hfiltered⟩ := Filter.run_some hne hfirst
    obtain ⟨s', hbytes, hne', hpiped⟩ := ih (hfiltered.length_annotation hne).1 hrest
    exact ⟨s', hbytes, hne', hpiped.cons hfiltered hne⟩

/-- A pipe works as long as its history fits into what a header may announce. -/
theorem pipe_runs (hne : s.annotation ≠ []) (hL : s.annotation.length ≤ 1000)
    (complete : ∀ f ∈ fs, f.Complete) (room : (history fs s).length < 1000) :
    ∃ s', pipe fs s.bytes = some s'.bytes ∧ s'.annotation ≠ [] ∧ s'.annotation.length ≤ 1000 ∧
      Piped fs s s' := by
  induction fs generalizing s with
  | nil => exact ⟨s, rfl, hne, hL, .refl s⟩
  | cons f fs ih =>
    obtain ⟨hcomplete, hrest⟩ := List.forall_mem_cons.mp complete
    -- the history only grows
    have hless : (f.line ++ s.text).length ≤ (history (f :: fs) s).length := by
      rw [history, List.reverse_cons, List.flatMap_append, List.flatMap_singleton,
        List.append_assoc]
      exact (List.suffix_append _ _).length_le
    rcases f.runs hne hL with ⟨s₁, hfirst, hfiltered⟩ | ⟨hno, -⟩
    · obtain ⟨hne', hshort⟩ := hfiltered.length_annotation hne
      rw [← history_cons hfiltered hne] at room hless
      obtain ⟨s', hpipe, hne'', hshort', hpiped⟩ := ih hne' (hshort.mpr (by omega)) hrest room
      refine ⟨s', ?_, hne'', hshort', hpiped.cons hfiltered hne⟩
      rw [pipe_cons, hfirst]
      exact hpipe
    · exact absurd ⟨hcomplete, by omega⟩ hno

theorem history_concat (f : Filter) (fs : List Filter) (s : AudioStream) :
    history (fs ++ [f]) s = f.line ++ history fs s := by
  rw [history, history, List.reverse_append, List.flatMap_append, List.append_assoc]
  simp

/-- A pipe of runs works exactly as long as there are parameters to copy, and the annotation has
room for the lines of all runs but the last one as a header may announce, and for all as the buffer
has. It writes the lines in front of the text of the annotation, the last one first, and changes the
data size and the number of frames as its runs do; nothing else of the header changes but the data
offset. -/
theorem pipe_history (hne : s.annotation ≠ []) (fs : List Filter) (f : Filter) :
    ((∃ bytes, pipe (fs ++ [f]) s.bytes = some bytes) ↔
      s.annotation.length ≤ 1000 ∧ (∀ g ∈ fs ++ [f], g.Complete) ∧
        (history fs s).length < 1000 ∧ (history (fs ++ [f]) s).length < 1024) ∧
      ∀ bytes, pipe (fs ++ [f]) s.bytes = some bytes →
        ∃ s', bytes = s'.bytes ∧ Piped (fs ++ [f]) s s' := by
  have happend : ∀ input, pipe (fs ++ [f]) input = (pipe fs input).bind f.run := by
    intro input
    rw [pipe, List.foldlM_append]
    simp only [List.foldlM_cons, List.foldlM_nil, bind_pure]
    rfl
  refine ⟨⟨?_, ?_⟩, fun bytes hrun => ?_⟩
  · rintro ⟨bytes, hrun⟩
    obtain ⟨s', -, -, hpiped⟩ := pipe_some hne hrun
    -- the last run has accepted what was written before it
    rw [happend] at hrun
    obtain ⟨input, hinit, hlast⟩ := Option.bind_eq_some_iff.mp hrun
    obtain ⟨s₁, rfl, hne₁, hpiped₁⟩ := pipe_some hne hinit
    obtain ⟨s'', -, hfiltered⟩ := Filter.run_some hne₁ hlast
    have htext := s₁.length_text_lt hne₁
    have hfits := hfiltered.fits.2
    have hshort := hfiltered.short
    rw [hpiped₁.text] at htext hfits
    refine ⟨hpiped.short (List.concat_ne_nil f fs), hpiped.complete, by omega, ?_⟩
    rw [history_concat]
    exact hfits
  · rintro ⟨hL, hcomplete, hinit, hall⟩
    rw [List.forall_mem_append] at hcomplete
    obtain ⟨s₁, hpipe, hne₁, hshort, hpiped⟩ := pipe_runs hne hL hcomplete.1 hinit
    rw [history_concat, ← hpiped.text] at hall
    rcases f.runs hne₁ hshort with ⟨s', hlast, -⟩ | ⟨hno, -⟩
    · refine ⟨s'.bytes, ?_⟩
      rw [happend, hpipe]
      exact hlast
    · exact absurd ⟨hcomplete.2 f (List.mem_singleton_self f), hall⟩ hno
  · obtain ⟨s', hbytes, -, hpiped⟩ := pipe_some hne hrun
    exact ⟨s', hbytes, hpiped⟩

/-- The words "a", "-u", "-f" and "3". -/
def spedUp : Filter where
  argv := [[97], [45, 117], [45, 102], [51]]
  options := setFactor (setOption 0 62) 3
  c := 0
  recodes := by decide +kernel

/-- The words "a", "-c", "-k" and "7", and "-p". -/
def masked : Filter where
  argv := [[97], [45, 99], [45, 107], [55], [45, 112]]
  options := setOption (setKey (setOption 0 60) [55]) 59
  c := 0
  recodes := by decide +kernel

/-- Three frames with the annotation "hello". -/
def helloStream : AudioStream := shortAnnotated [104, 101, 108, 108, 111, 0, 0, 0] rfl rfl

theorem pipe_history_example :
    ∃ s', pipe [spedUp, masked] helloStream.bytes = some s'.bytes ∧
      Piped [spedUp, masked] helloStream s' := by
  have hne : helloStream.annotation ≠ [] := List.cons_ne_nil _ _
  obtain ⟨hiff, hpiped⟩ := pipe_history hne [spedUp] masked
  obtain ⟨bytes, hrun⟩ := hiff.mpr ⟨by decide, List.forall_mem_cons.mpr ⟨.inr rfl,
    List.forall_mem_cons.mpr ⟨.inl (by decide_cbv), fun _ h => absurd h List.not_mem_nil⟩⟩,
    by decide_cbv, by decide_cbv⟩
  obtain ⟨s', rfl, hs'⟩ := hpiped bytes hrun
  exact ⟨s', hrun, hs'⟩

end CLanguage.Audio
