import CLanguage.Audio.Header

/-!
# The annotation field

The annotation buffers hold 1024 bytes that are 0 before the first write, so a
buffer is given by what was written at its start. `readAnnotation` accepts the
fields that end with a null byte; of such a field `annotationcpy` keeps what comes
before its first null byte, and does so only once (`annotationKept_idem`).
-/

namespace CLanguage.Audio

open Lib

/-- `size` rounds of the loop of `read_annotation`: the last character, the buffer and the rest of
the input. `c` is the character of the round before, uninitialised before the first. -/
def readAnnotationFrom : ℕ → UInt8 → List UInt8 → UInt8 × List UInt8 × List UInt8
  | 0, c, input => (c, [], input)
  | size + 1, _, input =>
    let (b, input) := getchar input
    let c := toChar b
    let (last, ap, input) := readAnnotationFrom size c input
    (last, c :: ap, input)

/-- `read_annotation`: the annotation and the rest of the input, `none` for the return value 0.
`c` is what the uninitialised local variable holds. -/
def readAnnotation (c : UInt8) (size : ℕ) (input : List UInt8) :
    Option (List UInt8 × List UInt8) :=
  let (last, ap, input) := readAnnotationFrom size c input
  if last ≠ 0 then none else some (ap, input)

/-- What `annotationcpy` writes: the characters up to the first null one, with it. What follows
`src` in its buffer is 0. -/
def annotationcpy : List UInt8 → List UInt8
  | [] => [0]
  | c :: src => if c = 0 then [0] else c :: annotationcpy src

/-- `write_annotation` of a buffer that starts with `ap`. -/
def writeAnnotation (ap : List UInt8) (size : ℕ) : List UInt8 :=
  if size > annotationMax then []
  else (ap ++ List.replicate annotationMax 0).take size

theorem readAnnotationFrom_append (c : UInt8) (ap input : List UInt8) :
    readAnnotationFrom ap.length c (ap ++ input) = (ap.getLastD c, ap, input) := by
  induction ap generalizing c with
  | nil => rfl
  | cons b ap ih =>
    rw [List.length_cons, List.cons_append, readAnnotationFrom]
    simp only [getchar, toChar_getchar, ih, List.getLastD_cons]

/-- Where the end of the input cuts the annotation, the last character is -1 converted. -/
theorem readAnnotationFrom_cut (c : UInt8) {n : ℕ} {input : List UInt8} (h : input.length ≤ n) :
    (readAnnotationFrom (n + 1) c input).1 = 255 := by
  have hend : toChar (getchar []).1 = 255 := by decide_cbv
  induction n generalizing c input with
  | zero =>
    obtain rfl := List.length_eq_zero_iff.mp (Nat.le_zero.mp h)
    rw [ readAnnotationFrom]
    exact hend
  | succ n ih =>
    cases input with
    | nil =>
      rw [ readAnnotationFrom]
      exact ih (toChar (getchar []).1) (show ([] : List UInt8).length ≤ n from Nat.zero_le n)
    | cons b input =>
      rw [ readAnnotationFrom]
      exact ih (toChar b.toUInt32.toInt32) (Nat.le_of_succ_le_succ h)

/-- `readAnnotation` accepts the byte strings of the given size that end with 0. -/
theorem readAnnotation_eq_some {c : UInt8} {size : ℕ} {input ap rest : List UInt8} :
    readAnnotation c size input = some (ap, rest) ↔
      input = ap ++ rest ∧ ap.length = size ∧ ap.getLastD c = 0 := by
  constructor
  · intro h
    have hlength : size ≤ input.length := by
      by_contra hshort
      obtain ⟨n, rfl⟩ : ∃ n, size = n + 1 := ⟨size - 1, by omega⟩
      have hcut := readAnnotationFrom_cut c (show input.length ≤ n by omega)
      rw [ readAnnotation] at h
      simp only [hcut] at h
      exact absurd h nofun
    have htake : (input.take size).length = size := List.length_take_of_le hlength
    have hread := readAnnotationFrom_append c (input.take size) (input.drop size)
    rw [htake, List.take_append_drop] at hread
    rw [ readAnnotation, hread] at h
    simp only at h
    split_ifs at h with hlast
    rw [Option.some.injEq, Prod.mk.injEq] at h
    obtain ⟨rfl, rfl⟩ := h
    exact ⟨(List.take_append_drop size input).symm, htake, not_not.mp hlast⟩
  · rintro ⟨rfl, rfl, hlast⟩
    rw [ readAnnotation, readAnnotationFrom_append]
    simp only [hlast, ne_eq, not_true_eq_false, if_false]

/-! ## The annotation that is kept -/

theorem annotationcpy_eq (src : List UInt8) :
    annotationcpy src = src.takeWhile (· ≠ 0) ++ [0] := by
  induction src with
  | nil => rfl
  | cons c src ih =>
    rw [annotationcpy]
    split
    case isTrue h => simp [h]
    case isFalse h => simp [h, ih]

/-- A copy is terminated, so copying it again copies nothing more. -/
theorem annotationcpy_append (src tail : List UInt8) :
    annotationcpy (annotationcpy src ++ tail) = annotationcpy src := by
  induction src with
  | nil => rfl
  | cons c src ih =>
    by_cases h : c = 0
    · simp [annotationcpy, h]
    · simp [annotationcpy, h, ih]

theorem length_annotationcpy {src : List UInt8} (h : 0 ∈ src) :
    (annotationcpy src).length ≤ src.length := by
  induction src with
  | nil => simp at h
  | cons c src ih =>
    rw [annotationcpy]
    split
    case isTrue => simp
    case isFalse hc =>
      have hmem : 0 ∈ src := by
        rcases List.mem_cons.mp h with h0 | hmem
        · exact absurd h0.symm hc
        · exact hmem
      exact Nat.succ_le_succ (ih hmem)

/-- The output annotation under `-p`: what `annotationcpy` copies, as `write_annotation` writes it. -/
def annotationKept (ap : List UInt8) : List UInt8 :=
  writeAnnotation (annotationcpy ap) ap.length

theorem mem_of_getLastD {ap : List UInt8} {c : UInt8} (hne : ap ≠ []) (h : ap.getLastD c = 0) :
    0 ∈ ap := by
  rw [List.getLastD_eq_getLast?, List.getLast?_eq_some_getLast hne, Option.getD_some] at h
  exact h ▸ List.getLast_mem hne

theorem annotationKept_eq {ap : List UInt8} (hmax : ap.length ≤ annotationMax) (hnul : 0 ∈ ap) :
    ∃ k, annotationKept ap = annotationcpy ap ++ List.replicate k 0 := by
  have hle := length_annotationcpy hnul
  have hpad : ap.length - (annotationcpy ap).length ≤ annotationMax := by omega
  refine ⟨ap.length - (annotationcpy ap).length, ?_⟩
  rw [annotationKept, writeAnnotation, if_neg (Nat.not_lt.mpr hmax), List.take_append,
    List.take_of_length_le hle, List.take_replicate, Nat.min_eq_left hpad]

theorem length_annotationKept {ap : List UInt8} (hmax : ap.length ≤ annotationMax) :
    (annotationKept ap).length = ap.length := by
  rw [annotationKept, writeAnnotation, if_neg (Nat.not_lt.mpr hmax), List.length_take,
    List.length_append, List.length_replicate]
  omega

/-- The annotation that is written is accepted again. -/
theorem getLastD_annotationKept {ap : List UInt8} (hmax : ap.length ≤ annotationMax)
    (hnul : 0 ∈ ap) (c : UInt8) : (annotationKept ap).getLastD c = 0 := by
  obtain ⟨k, hk⟩ := annotationKept_eq hmax hnul
  have hzeros : [0] ++ List.replicate k 0 = List.replicate (k + 1) (0 : UInt8) := rfl
  rw [hk, annotationcpy_eq, List.append_assoc, hzeros, List.getLastD_eq_getLast?,
    List.getLast?_append, List.getLast?_replicate]
  simp

/-- Keeping an annotation twice is keeping it once. -/
theorem annotationKept_idem {ap : List UInt8} (hmax : ap.length ≤ annotationMax) (hnul : 0 ∈ ap) :
    annotationKept (annotationKept ap) = annotationKept ap := by
  obtain ⟨k, hk⟩ := annotationKept_eq hmax hnul
  have hcopy : annotationcpy (annotationKept ap) = annotationcpy ap := by
    rw [hk, annotationcpy_append]
  conv_lhs => rw [annotationKept, length_annotationKept hmax, hcopy]
  rfl

end CLanguage.Audio
