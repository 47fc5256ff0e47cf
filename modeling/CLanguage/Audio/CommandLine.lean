import CLanguage.Audio.Arguments

/-!
# The annotation that is written

`AudioStream` is a stream that the format allows: an annotation that is not empty
ends with a null byte. What `recode` is to write in its place is
`annotationExpected`, the command line in front of the annotation, and the
annotation itself under `-p`. The output
buffer is not checked, the words of the modes are copied as they should have been
typed, and only the annotation up to its first null byte is copied:
`annotates_iff` is the condition under which that makes no difference.
-/

namespace CLanguage.Audio

open Lib

/-- A stream with a terminated annotation, or none, of as many bytes as the header says. -/
structure AudioStream where
  header : AudioHeader
  annotation : List UInt8
  audio : List UInt8
  magicNumber : header.magicNumber = audioMagic
  encoding : header.encoding.toInt32 = 2 ∨ header.encoding.toInt32 = 3 ∨
    header.encoding.toInt32 = 4 ∨ header.encoding.toInt32 = 5
  channels : header.channels.toInt32 = 1 ∨ header.channels.toInt32 = 2
  dataOffset : header.dataOffset.toNat = 24 + annotation.length
  aligned : 8 ∣ annotation.length
  bounded : annotation.length ≤ annotationMax
  terminated : annotation ≠ [] → annotation.getLast? = some 0

def AudioStream.bytes (s : AudioStream) : List UInt8 :=
  writeHeader s.header ++ (s.annotation ++ s.audio)

/-- The words of a command line. -/
def words (argv : List (List UInt8)) : List (List UInt8) := argv.map fun s => s.takeWhile (· ≠ 0)

/-- The null bytes that fill a multiple of eight. -/
def padded (l : List UInt8) : List UInt8 := l ++ List.replicate ((8 - l.length % 8) % 8) 0

/-- The annotation that is asked for: the command line, a newline and the old annotation up to its
first null byte. -/
def annotationExpected (argv : List (List UInt8)) (ap : List UInt8) : List UInt8 :=
  padded (List.intercalate [32] (words argv) ++ [10] ++ ap.takeWhile (· ≠ 0) ++ [0])

/-- What a run is to do with the annotation. -/
def Annotates (options : UInt64) (argv : List (List UInt8)) (c : UInt8) (s : AudioStream) :
    Prop :=
  if hasOption options 59 then
    ∃ out, recode options argv c s.bytes = .ok (1, some out) ∧ out.annotation = s.annotation
  else if (annotationExpected argv s.annotation).length > annotationMax then
    recode options argv c s.bytes = .ok (0, none)
  else
    ∃ out, recode options argv c s.bytes = .ok (1, some out) ∧
      out.annotation = annotationExpected argv s.annotation ∧
      out.header.dataOffset.toNat = 24 + (annotationExpected argv s.annotation).length

/-- The condition for it. A data offset above 1024 is refused with the header. -/
def AnnotationExact (options : UInt64) (argv : List (List UInt8)) (ap : List UInt8) : Prop :=
  if hasOption options 59 then
    ap.length ≤ 1000 ∧ ∀ b ∈ ap.dropWhile (· ≠ 0), b = 0
  else if (annotationExpected argv ap).length > annotationMax then 1000 < ap.length
  else
    ap.length ≤ 1000 ∧ ∃ flag : Flag, ∃ program parameter,
      words argv = [program, [45, flag.letter], [45, flag.parameter], parameter]

/-! ## What is read -/

namespace AudioStream

variable (s : AudioStream)

private theorem offset_accepted : ∀ n < 129,
    (¬ ((UInt32.ofNat (24 + 8 * n)).toInt32 % 8 ≠ 0 ∨
      (UInt32.ofNat (24 + 8 * n)).toInt32 > Int32.ofNat annotationMax)) ↔ n ≤ 125 := by
  decide_cbv

theorem dataOffset_iff : (¬ (s.header.dataOffset.toInt32 % 8 ≠ 0 ∨
    s.header.dataOffset.toInt32 > Int32.ofNat annotationMax)) ↔ s.annotation.length ≤ 1000 := by
  obtain ⟨n, hn⟩ := s.aligned
  have hbound : s.annotation.length ≤ 1024 := s.bounded
  have hoffset : s.header.dataOffset = UInt32.ofNat (24 + 8 * n) := by
    rw [← hn, ← s.dataOffset, UInt32.ofNat_toNat]
  rw [hoffset, offset_accepted n (by omega), hn]
  omega

theorem header_accepted (h : s.annotation.length ≤ 1000) : s.header.Accepted :=
  ⟨s.magicNumber, s.dataOffset_iff.mpr h, s.encoding, s.channels⟩

theorem size_eq : s.header.dataOffset - 24 = UInt32.ofNat s.annotation.length := by
  have hoffset : s.header.dataOffset = UInt32.ofNat (24 + s.annotation.length) := by
    rw [← s.dataOffset, UInt32.ofNat_toNat]
  rw [hoffset, UInt32.ofNat_add, UInt32.add_comm]
  exact UInt32.add_sub_cancel _ _

theorem size_toNat : (s.header.dataOffset - 24).toNat = s.annotation.length := by
  have hbound : s.annotation.length ≤ 1024 := s.bounded
  rw [s.size_eq, UInt32.toNat_ofNat_of_lt' (show s.annotation.length < 2 ^ 32 by omega)]

/-- Without an annotation the character that is compared with 0 is not initialised. -/
theorem accepts {c : UInt8} (h : s.annotation.length ≤ 1000) (hc : s.annotation = [] → c = 0) :
    Accepts c s.bytes s.header s.annotation s.audio := by
  refine accepts_iff.mpr ⟨s.header_accepted h, s.size_toNat.symm, s.bounded, ?_, rfl⟩
  by_cases hempty : s.annotation = []
  · rw [hempty]
    exact hc hempty
  · rw [List.getLastD_eq_getLast?, s.terminated hempty, Option.getD_some]

theorem recode_uninitialised {c : UInt8} (hempty : s.annotation = []) (hc : c ≠ 0)
    (options : UInt64) (argv : List (List UInt8)) :
    recode options argv c s.bytes = .ok (0, none) := by
  have hlength : s.annotation.length = 0 := List.length_eq_zero_iff.mpr hempty
  have hsize := s.size_eq
  rw [hlength] at hsize
  rw [recode, bytes, readHeader_writeHeader (s.header_accepted (by omega))]
  simp only [hsize]
  rw [if_neg (by decide)]
  simp [ readAnnotation, readAnnotationFrom, hc]

/-- An annotation of more than 1000 bytes is refused with the header. -/
theorem recode_refused (h : 1000 < s.annotation.length) (options : UInt64)
    (argv : List (List UInt8)) (c : UInt8) : recode options argv c s.bytes = .ok (0, none) := by
  have hoffset := mt s.dataOffset_iff.mp (Nat.not_le.mpr h)
  rw [recode, bytes, readHeader_offset s.magicNumber (not_not.mp hoffset)]

end AudioStream

/-! ## What is built -/

variable {argv : List (List UInt8)} {options : UInt64} {flag : Flag} {c : UInt8}
  {input ap audio : List UInt8} {hp : AudioHeader}

theorem Accepts.recode_error {e : Fault} (h : Accepts c input hp ap audio)
    (hbuilt : annotationBuilt options argv hp (hp.dataOffset - 24) ap = .error e) :
    recode options argv c input = .error e := by
  obtain ⟨rest, hheader, hsize, hannotation⟩ := h
  rw [recode, hheader]
  simp only [hsize, if_false, hannotation, hbuilt]
  rfl

theorem Accepts.recode_ok {hp₁ hp₂ : AudioHeader} {size : UInt32} {written audio' : List UInt8}
    (h : Accepts c input hp ap audio)
    (hbuilt : annotationBuilt options argv hp (hp.dataOffset - 24) ap = .ok (hp₁, size, written))
    (haudio : recodeAudio options hp₁ (readFrames hp₁.frameSize audio) = some (hp₂, audio')) :
    recode options argv c input = .ok (1, some ⟨hp₂, writeAnnotation written size.toNat, audio'⟩) := by
  obtain ⟨rest, hheader, hsize, hannotation⟩ := h
  rw [recode, hheader]
  simp only [hsize, if_false, hannotation, hbuilt, bind, Except.bind, haudio]

theorem Flag.Selected.recodeAudio_eq (h : flag.Selected options) (hp : AudioHeader)
    (frames : List Frame) :
    ∃ hp' audio, recodeAudio options hp frames = some (hp', audio) ∧
      hp'.dataOffset = hp.dataOffset := by
  cases flag with
  | speedup => exact ⟨_, _, if_pos ((h .speedup).mpr rfl), rfl⟩
  | slowdown =>
    have hno : ¬ hasOption options 62 := fun hset => nomatch (h .speedup).mp hset
    exact ⟨_, _, (if_neg hno).trans (if_pos ((h .slowdown).mpr rfl)), rfl⟩
  | crypt =>
    have hno : ¬ hasOption options 62 := fun hset => nomatch (h .speedup).mp hset
    have hno' : ¬ hasOption options 61 := fun hset => nomatch (h .slowdown).mp hset
    exact ⟨_, _, (if_neg hno).trans ((if_neg hno').trans (if_pos ((h .crypt).mpr rfl))), rfl⟩

theorem Flag.Selected.commandLine_eq (h : flag.Selected options) (argv : List (List UInt8)) :
    commandLine options argv =
      argument argv 0 >>= fun program =>
        copyOptions argv flag.letter flag.parameter >>= fun s => .ok (program ++ s) := by
  refine congrArg (argument argv 0 >>= ·) (funext fun program => ?_)
  cases flag with
  | speedup => exact if_pos ((h .speedup).mpr rfl)
  | slowdown =>
    have hno : ¬ hasOption options 62 := fun hset => nomatch (h .speedup).mp hset
    exact (if_neg hno).trans (if_pos ((h .slowdown).mpr rfl))
  | crypt =>
    have hno : ¬ hasOption options 62 := fun hset => nomatch (h .speedup).mp hset
    have hno' : ¬ hasOption options 61 := fun hset => nomatch (h .slowdown).mp hset
    exact (if_neg hno).trans ((if_neg hno').trans (if_pos ((h .crypt).mpr rfl)))

theorem argument_eq (argv : List (List UInt8)) {i : ℕ} {w : List UInt8}
    (h : (words argv)[i]? = some w) : argument argv i = .ok w := by
  rw [words, List.getElem?_map] at h
  obtain ⟨s, hs, rfl⟩ := Option.map_eq_some_iff.mp h
  rw [argument, hs]

/-- Without a third word there is no command line to copy. -/
theorem commandLine_absent (hflag : flag.Selected options) (h : argv.length ≤ 2) :
    ∃ e, commandLine options argv = .error e := by
  have habsent : copyOptions argv flag.letter flag.parameter = .error .absentArgument := by
    rw [copyOptions, argumentChar, argument, List.getElem?_eq_none h]
    rfl
  rw [hflag.commandLine_eq]
  cases argument argv 0 with
  | error e => exact ⟨e, rfl⟩
  | ok program => exact ⟨_, bind_ok rfl (bind_error habsent)⟩

theorem commandLine_four {program mode parameter value : List UInt8}
    (hflag : flag.Selected options) (hwords : words argv = [program, mode, parameter, value])
    (hletter : argumentChar argv 2 1 = .ok flag.parameter) :
    commandLine options argv =
      .ok (program ++ ([32, 45, flag.letter] ++ [32, 45, flag.parameter, 32] ++ value)) := by
  have hprogram : argument argv 0 = .ok program := argument_eq argv (by rw [hwords]; rfl)
  have hvalue : argument argv 3 = .ok value := argument_eq argv (by rw [hwords]; rfl)
  rw [hflag.commandLine_eq, hprogram]
  refine bind_ok rfl (bind_ok ?_ rfl)
  rw [copyOptions, hletter]
  refine bind_ok rfl ?_
  rw [if_pos rfl, hvalue]
  rfl

theorem annotationPadded_eq (l : List UInt8) : annotationPadded l = padded l := by
  rw [annotationPadded, padded]
  split
  · next h =>
    have hlt := Nat.mod_lt l.length (show 0 < 8 by decide)
    rw [Nat.mod_eq_of_lt (show 8 - l.length % 8 < 8 by omega)]
  · next h => simp [not_not.mp h]

/-- Filling up adds nothing in front of the first null byte. -/
theorem padded_inj {l l' : List UInt8} (h : 0 ∉ l) (h' : 0 ∉ l')
    (heq : padded (l ++ [0]) = padded (l' ++ [0])) : l = l' := by
  have hfirst (m : List UInt8) (hm : 0 ∉ m) : (padded (m ++ [0])).takeWhile (· ≠ 0) = m := by
    have hall : ∀ b ∈ m, decide (b ≠ 0) = true := by
      intro b hb
      exact decide_eq_true fun hzero => hm (hzero ▸ hb)
    rw [padded, List.append_assoc, List.takeWhile_append_of_pos hall]
    simp
  rw [← hfirst l h, heq, hfirst l' h']

/-! ## The words as they should have been typed -/

theorem nul_not_mem_takeWhile (s : List UInt8) : 0 ∉ s.takeWhile (· ≠ 0) := by
  intro h
  have hall := List.all_takeWhile (p := fun b : UInt8 => decide (b ≠ 0)) (l := s)
  exact absurd rfl (of_decide_eq_true (List.all_eq_true.mp hall 0 h))

theorem nul_not_mem_words {w : List UInt8} (h : w ∈ words argv) : 0 ∉ w := by
  obtain ⟨s, -, rfl⟩ := List.mem_map.mp h
  exact nul_not_mem_takeWhile s

theorem words_four (h : argv.length = 4) :
    ∃ program mode name value, words argv = [program, mode, name, value] := by
  match argv, h with
  | [_, _, _, _], _ => exact ⟨_, _, _, _, rfl⟩

/-- The words of a flag and of a parameter's name are found again around their space. -/
theorem flags_eq_iff {letter parameter : UInt8} (hletter : letter ≠ 32) (hparameter : parameter ≠ 32)
    (mode name : List UInt8) :
    [45, letter, 32, 45, parameter] = mode ++ 32 :: name ↔
      mode = [45, letter] ∧ name = [45, parameter] := by
  constructor
  · intro h
    match mode with
    | [] => simp at h
    | [_] => simp [hletter] at h
    | [_, _] =>
      simp only [List.cons_append, List.nil_append, List.cons.injEq, true_and] at h
      exact ⟨by rw [h.1, h.2.1], h.2.2.symm⟩
    | [_, _, _] => simp at h
    | [_, _, _, _] => simp [hparameter] at h
    | _ :: _ :: _ :: _ :: _ :: _ => simp at h
  · rintro ⟨rfl, rfl⟩
    rfl

theorem Flag.letter_ne (flag : Flag) : flag.letter ≠ 32 ∧ flag.parameter ≠ 32 := by
  cases flag <;> decide

/-- What is built is what is asked for where the two flags are typed in full. -/
theorem built_eq_iff {program mode name value : List UInt8} (flag : Flag) (ap : List UInt8)
    (hwords : words argv = [program, mode, name, value]) :
    annotationPadded (program ++ ([32, 45, flag.letter] ++ [32, 45, flag.parameter, 32] ++ value) ++
        [10] ++ annotationcpy ap) = annotationExpected argv ap ↔
      mode = [45, flag.letter] ∧ name = [45, flag.parameter] := by
  obtain ⟨kept, hkept⟩ : ∃ kept, kept = ap.takeWhile (· ≠ 0) := ⟨_, rfl⟩
  obtain ⟨tail, htail⟩ : ∃ tail, tail = 32 :: value ++ 10 :: kept := ⟨_, rfl⟩
  have hbuilt : program ++ ([32, 45, flag.letter] ++ [32, 45, flag.parameter, 32] ++ value) ++ [10] ++
      annotationcpy ap =
        program ++ [32] ++ [45, flag.letter, 32, 45, flag.parameter] ++ tail ++ [0] := by
    rw [annotationcpy_eq, htail, ← hkept]
    simp
  have hasked : List.intercalate [32] (words argv) ++ [10] ++ kept ++ [0] =
      program ++ [32] ++ (mode ++ 32 :: name) ++ tail ++ [0] := by
    rw [hwords, htail]
    simp [List.intercalate]
  -- none of the words has a null byte
  have hword {w : List UInt8} (hw : w ∈ [program, mode, name, value]) : 0 ∉ w :=
    nul_not_mem_words (hwords ▸ hw)
  have hprogram : 0 ∉ program := hword (by simp)
  have hmode : 0 ∉ mode := hword (by simp)
  have hname : 0 ∉ name := hword (by simp)
  have hrest : 0 ∉ tail := by
    have hvalue : 0 ∉ value := hword (by simp)
    have hfree : 0 ∉ kept := hkept ▸ nul_not_mem_takeWhile ap
    rw [htail]
    simp [hvalue, hfree]
  have hletters : (0 : UInt8) ≠ flag.letter ∧ (0 : UInt8) ≠ flag.parameter := by
    cases flag <;> decide
  obtain ⟨hletter, hparameter⟩ := flag.letter_ne
  rw [annotationPadded_eq, annotationExpected, ← hkept, hbuilt, hasked,
    ← flags_eq_iff hletter hparameter]
  constructor
  · intro h
    have hline := padded_inj (by simp [hprogram, hrest, hletters.1, hletters.2])
      (by simp [hprogram, hmode, hname, hrest]) h
    exact List.append_cancel_left (List.append_cancel_right hline)
  · intro h
    rw [h]

/-- The flags typed in full are those of the mode that was selected. -/
theorem typed_iff {program mode name value : List UInt8} {flag : Flag}
    (hwords : words argv = [program, mode, name, value])
    (hfirst : argumentChar argv 1 1 = .ok flag.letter) :
    (∃ flag' : Flag, ∃ program parameter,
      words argv = [program, [45, flag'.letter], [45, flag'.parameter], parameter]) ↔
      mode = [45, flag.letter] ∧ name = [45, flag.parameter] := by
  constructor
  · rintro ⟨flag', program', parameter, htyped⟩
    rw [hwords] at htyped
    obtain ⟨-, rfl, rfl, -⟩ : program = program' ∧ mode = _ ∧ name = _ ∧ value = parameter := by
      simpa using htyped
    have hmode : argument argv 1 = .ok [45, flag'.letter] := argument_eq argv (by rw [hwords]; rfl)
    rw [argumentChar, hmode] at hfirst
    have hletter : flag'.letter = flag.letter := by simpa [bind, Except.bind] using hfirst
    obtain rfl : flag' = flag := by
      revert hletter
      cases flag <;> cases flag' <;> decide
    exact ⟨rfl, rfl⟩
  · rintro ⟨rfl, rfl⟩
    exact ⟨flag, program, value, hwords⟩

/-- The annotation that is built behind a command line. An annotation of no bytes counts as one null
byte, as `annotationcpy` would copy it. -/
theorem annotationBuilt_line {line : List UInt8} (h : Accepts c input hp ap audio)
    (hpreserve : ¬ hasOption options 59) (hline : commandLine options argv = .ok line) :
    annotationBuilt options argv hp (hp.dataOffset - 24) ap =
      annotationClosed hp (annotationPadded (line ++ [10] ++ annotationcpy ap)) := by
  rw [annotationBuilt, if_neg hpreserve]
  refine bind_ok hline ?_
  split
  case isTrue hzero =>
    have hlength := (accepts_iff.mp h).2.1
    rw [hzero] at hlength
    rw [List.length_eq_zero_iff.mp hlength]
    rfl
  case isFalse => rfl

/-- The annotation is kept where nothing follows its first null byte but null bytes. -/
theorem annotationKept_eq_self {ap : List UInt8} (hmax : ap.length ≤ annotationMax)
    (hnul : 0 ∈ ap) : annotationKept ap = ap ↔ ∀ b ∈ ap.dropWhile (· ≠ 0), b = 0 := by
  obtain ⟨k, hk⟩ := annotationKept_eq hmax hnul
  have hkept : annotationKept ap = ap.takeWhile (· ≠ 0) ++ List.replicate (k + 1) 0 := by
    rw [hk, annotationcpy_eq, List.append_assoc]
    rfl
  have hlength := length_annotationKept hmax
  have hsplit : ap.takeWhile (· ≠ 0) ++ ap.dropWhile (· ≠ 0) = ap := List.takeWhile_append_dropWhile
  rw [hkept] at hlength ⊢
  conv_lhs => rhs; rw [← hsplit]
  rw [List.append_cancel_left_eq]
  constructor
  · intro h b hb
    rw [← h] at hb
    exact List.eq_of_mem_replicate hb
  · intro h
    have hcount : (ap.dropWhile (· ≠ 0)).length = k + 1 := by
      have hwhole := congrArg List.length hsplit
      rw [List.length_append] at hwhole
      rw [List.length_append, List.length_replicate] at hlength
      omega
    rw [← hcount]
    exact (List.eq_replicate_of_mem h).symm

/-! ## The runs -/

/-- Under `-p`. -/
theorem recode_kept (hflag : flag.Selected options) (hpreserve : hasOption options 59)
    (argv : List (List UInt8)) (h : Accepts c input hp ap audio) :
    ∃ hp' audio', recode options argv c input = .ok (1, some ⟨hp', annotationKept ap, audio'⟩) := by
  obtain ⟨hp', audio', haudio, -⟩ := hflag.recodeAudio_eq hp (readFrames hp.frameSize audio)
  exact ⟨hp', audio', recode_preserve argv h hpreserve haudio⟩

/-- Without `-p`, behind a parameter: what is built does not fit, or it is written. -/
theorem recode_built {line built : List UInt8} (hflag : flag.Selected options)
    (hpreserve : ¬ hasOption options 59) (hline : commandLine options argv = .ok line)
    (h : Accepts c input hp ap audio)
    (hbuilt : annotationPadded (line ++ [10] ++ annotationcpy ap) = built) :
    if built.length > annotationMax then recode options argv c input = .error .annotationOverrun
    else ∃ hp' audio', recode options argv c input = .ok (1, some ⟨hp', built, audio'⟩) ∧
      hp'.dataOffset.toNat = 24 + built.length := by
  have hclosed := annotationBuilt_line h hpreserve hline
  rw [hbuilt, annotationClosed] at hclosed
  split
  case isTrue hlong =>
    rw [if_pos hlong] at hclosed
    exact h.recode_error hclosed
  -- the offset of the header has room for the new size
  case isFalse hshort =>
    rw [if_neg hshort] at hclosed
    have hbound : built.length ≤ 1024 := Nat.not_lt.mp hshort
    obtain ⟨hp', audio', haudio, hoffset⟩ := hflag.recodeAudio_eq
      { hp with dataOffset := UInt32.ofNat (24 + built.length) } (readFrames hp.frameSize audio)
    have hsize : (UInt32.ofNat (24 + built.length) - 24).toNat = built.length := by
      rw [UInt32.ofNat_add, UInt32.add_comm]
      have hcancel : UInt32.ofNat built.length + UInt32.ofNat 24 - 24 = UInt32.ofNat built.length :=
        UInt32.add_sub_cancel _ _
      rw [hcancel, UInt32.toNat_ofNat_of_lt' (show built.length < 2 ^ 32 by omega)]
    refine ⟨hp', audio', ?_, ?_⟩
    · rw [h.recode_ok hclosed haudio, hsize, writeAnnotation, if_neg hshort, List.take_left]
    · rw [hoffset, UInt32.toNat_ofNat_of_lt' (show 24 + built.length < 2 ^ 32 by omega)]

/-- Without `-p` and a parameter the third word is read and absent. -/
theorem recode_absent (hflag : flag.Selected options) (hpreserve : ¬ hasOption options 59)
    (htwo : argv.length ≤ 2) (h : Accepts c input hp ap audio) :
    ∃ e, recode options argv c input = .error e := by
  obtain ⟨e, hline⟩ := commandLine_absent hflag htwo
  refine ⟨e, h.recode_error ?_⟩
  rw [annotationBuilt, if_neg hpreserve]
  exact bind_error hline

theorem words_ne_four (htwo : argv.length ≤ 2) (program mode name value : List UInt8) :
    words argv ≠ [program, mode, name, value] := by
  intro hwords
  have hlength := congrArg List.length hwords
  rw [words, List.length_map] at hlength
  simp only [List.length_cons, List.length_nil] at hlength
  omega

/-- The annotation is written as asked for exactly where nothing is lost by what `recode` leaves
out. -/
theorem annotates_iff (h : Recodes argv options) (c : UInt8) (s : AudioStream)
    (hne : s.annotation ≠ []) :
    Annotates options argv c s ↔ AnnotationExact options argv s.annotation := by
  obtain ⟨flag, hflag, -, hfirst, hgiven⟩ := validargs_accepted h
  rw [Annotates, AnnotationExact]
  by_cases hL : s.annotation.length ≤ 1000
  case neg =>
    -- the header is refused
    have hrun := s.recode_refused (Nat.not_le.mp hL) options argv c
    split
    · rw [hrun]
      simp [hL]
    split
    · exact iff_of_true hrun (Nat.not_le.mp hL)
    · rw [hrun]
      simp [hL]
  case pos =>
    have haccepts := s.accepts (c := c) hL fun hempty => absurd hempty hne
    split
    case isTrue hpreserve =>
      obtain ⟨hp, audio, hrun⟩ := recode_kept hflag hpreserve argv haccepts
      have hnul : 0 ∈ s.annotation := List.mem_of_getLast? (s.terminated hne)
      rw [hrun, ← annotationKept_eq_self s.bounded hnul]
      constructor
      · rintro ⟨out, hout, hannotation⟩
        rw [Except.ok.injEq, Prod.mk.injEq, Option.some.injEq] at hout
        obtain ⟨-, rfl⟩ := hout
        exact ⟨hL, hannotation⟩
      · rintro ⟨-, hkept⟩
        exact ⟨_, rfl, hkept⟩
    case isFalse hpreserve =>
      rcases hgiven with hset | htwo | ⟨hfour, hletter⟩
      · exact absurd hset hpreserve
      · obtain ⟨e, hrun⟩ := recode_absent hflag hpreserve htwo haccepts
        rw [hrun]
        split
        · simp [hL]
        · simp [words_ne_four htwo]
      · obtain ⟨program, mode, name, value, hwords⟩ := words_four hfour
        have hrun := recode_built hflag hpreserve (commandLine_four hflag hwords hletter)
          haccepts rfl
        have hexact := built_eq_iff flag s.annotation hwords
        split
        · -- what is asked for does not fit, and nothing is refused
          refine iff_of_false ?_ (by omega)
          split at hrun
          · rw [hrun]
            exact nofun
          · obtain ⟨hp, audio, hrun, -⟩ := hrun
            rw [hrun]
            simp
        · next hfits =>
          rw [typed_iff hwords hfirst, ← hexact]
          split at hrun
          case isTrue hlong =>
            -- the buffer is overrun, so what is built is not what is asked for
            rw [hrun]
            refine iff_of_false (by simp) ?_
            rintro ⟨-, hbuilt⟩
            exact hfits (hbuilt ▸ hlong)
          case isFalse =>
            obtain ⟨hp, audio, hrun, hoffset⟩ := hrun
            rw [hrun]
            constructor
            · rintro ⟨out, hout, hannotation, -⟩
              rw [Except.ok.injEq, Prod.mk.injEq, Option.some.injEq] at hout
              obtain ⟨-, rfl⟩ := hout
              exact ⟨hL, hannotation⟩
            · rintro ⟨-, hbuilt⟩
              exact ⟨_, rfl, hbuilt, hbuilt ▸ hoffset⟩

/-! ## Two command lines -/

/-- `shortStream` with any annotation of eight bytes that ends with a null byte. -/
def shortAnnotated (ap : List UInt8) (hlength : ap.length = 8) (hlast : ap.getLast? = some 0) :
    AudioStream where
  header := shortHeader
  annotation := ap
  audio := [10, 200, 30]
  magicNumber := rfl
  encoding := by decide_cbv
  channels := by decide_cbv
  dataOffset := by
    rw [hlength]
    rfl
  aligned := by rw [hlength]
  bounded := by
    rw [hlength]
    decide
  terminated := fun _ => hlast

/-- The words "a", "-u", "-f" and "3" in front of the annotation "hello". -/
theorem annotates_iff_example :
    Annotates (setFactor (setOption 0 62) 3) [[97], [45, 117], [45, 102], [51]] 0
      (shortAnnotated [104, 101, 108, 108, 111, 0, 0, 0] rfl rfl) := by
  refine (annotates_iff (by decide_cbv) 0 _ (List.cons_ne_nil _ _)).mpr ?_
  rw [AnnotationExact, if_neg (by decide_cbv), if_neg (by decide_cbv)]
  exact ⟨by decide_cbv, .speedup, [97], [51], rfl⟩

/-- The words "a", "-u" and "-p": what follows the first null byte of the annotation is lost. -/
theorem annotation_not_kept : Recodes [[97], [45, 117], [45, 112]] (setOption (setOption 0 62) 59) ∧
    recode (setOption (setOption 0 62) 59) [[97], [45, 117], [45, 112]] 0
        (shortAnnotated [104, 105, 0, 88, 89, 90, 81, 0] rfl rfl).bytes =
      .ok (1, some ⟨shortHeader, [104, 105, 0, 0, 0, 0, 0, 0], [10, 200, 30]⟩) ∧
    ¬ Annotates (setOption (setOption 0 62) 59) [[97], [45, 117], [45, 112]] 0
      (shortAnnotated [104, 105, 0, 88, 89, 90, 81, 0] rfl rfl) := by
  have hrun : recode (setOption (setOption 0 62) 59) [[97], [45, 117], [45, 112]] 0
      (shortAnnotated [104, 105, 0, 88, 89, 90, 81, 0] rfl rfl).bytes =
        .ok (1, some ⟨shortHeader, [104, 105, 0, 0, 0, 0, 0, 0], [10, 200, 30]⟩) :=
    ok_of_toOption (by decide +kernel)
  refine ⟨by decide +kernel, hrun, ?_⟩
  rw [Annotates, if_pos (by decide_cbv), hrun]
  rintro ⟨out, hout, hannotation⟩
  rw [Except.ok.injEq, Prod.mk.injEq, Option.some.injEq] at hout
  obtain ⟨-, rfl⟩ := hout
  exact absurd hannotation (by decide_cbv)

end CLanguage.Audio
