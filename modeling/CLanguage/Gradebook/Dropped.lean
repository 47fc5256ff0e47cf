import CLanguage.Gradebook.Sound
import Mathlib

/-!
# What is not read

The lines of all opened files in the order of reading, where each line is marked as
read or not. A line that starts a section, a student or a score and that is read is
represented in the course; what stands behind a line of white space that ends an
included file is not read and not represented.
-/

namespace CLanguage.Gradebook

open Lib Lib.Reporting Grades

/-! ## Records and lines -/

/-- A section, a student or a score of a course. -/
inductive Record
  | section (name : Str)
  | student (id surname name : Str)
  | score (score : Score)

def Student.records (s : Student) : List Record :=
  .student s.id s.surname s.name :: s.rawscores.map .score

def Section.records (s : Section) : List Record :=
  .section s.name :: s.roster.flatMap Student.records

/-- The records of a course, in its order. -/
def Course.records (c : Course) : List Record := c.sections.flatMap Section.records

/-- The line is what the record was read from. -/
def Represents (a : List Assignment) : Record → Str → Prop
  | .section name, l => ReadAs Key.SECTION readname l name
  | .student id surname name, l => ReadAs Key.STUDENT studentrecord l (id, surname, name)
  | .score s, l => ReadAs Key.SCORE (scorerecord a) l s

/-- The first token of the line is `SECTION`, `STUDENT` or `SCORE`. -/
def IsRecord (l : Str) : Prop := ∃ key ∈ [Key.SECTION, Key.STUDENT, Key.SCORE], Keyed key l

instance : DecidablePred IsRecord := fun _ => inferInstanceAs (Decidable (∃ key ∈ _, Keyed key _))

/-- The lines in the order of reading, from the lines of a file that are read and those that are
not. The lines of a file that is opened stand where its `FILE` line is. -/
inductive Order (files : Str → Option Str) : List Str → List Str → List (Str × Bool) → Prop
  | rest {unread : List Str} : Order files [] unread (unread.map fun l => (l, false))
  | line {l : Str} {ls unread : List Str} {order : List (Str × Bool)} : ¬ Keyed Key.FILE l →
      Order files ls unread order → Order files (l :: ls) unread ((l, true) :: order)
  | file {l name text : Str} {ls unread : List Str} {order order' : List (Str × Bool)} :
      ReadAs Key.FILE readname l name → files name = some text →
      Order files (recordLines text).1 (recordLines text).2 order →
      Order files ls unread order' → Order files (l :: ls) unread (order ++ order')

/-- The lines with records among them. -/
def recordsOf (order : List (Str × Bool)) : List Str := (order.map Prod.fst).filter (IsRecord ·)

/-- Every line that starts with `SECTION`, `STUDENT` or `SCORE`, in the root or in an opened file,
is represented in the course, in the order of reading. -/
def Represented (files : Str → Option Str) (text : Str) (c : Course) : Prop :=
  ∃ order, Order files (recordLines text).1 (recordLines text).2 order ∧
    List.Forall₂ (Represents c.assignments) c.records (recordsOf order)

/-- No line that starts with `SECTION`, `STUDENT` or `SCORE` stands behind the line of white space
that ends its file. -/
def NothingBehind (files : Str → Option Str) (text : Str) : Prop :=
  ∀ order, Order files (recordLines text).1 (recordLines text).2 order →
    ∀ l, (l, false) ∈ order → ¬ IsRecord l

section Lines

variable {files : Str → Option Str} {a : List Assignment} {key l text : Str} {ls unread : List Str}
  {order order' : List (Str × Bool)} {α : Type} {x : Reader α} {b : α}

theorem Keyed.isRecord_iff (h : Keyed key l) :
    IsRecord l ↔ key ∈ [Key.SECTION, Key.STUDENT, Key.SCORE] := by
  constructor
  · rintro ⟨key', hmem, hkey⟩
    rwa [h.unique hkey]
  · intro hmem
    exact ⟨key, hmem, h⟩

theorem Represents.isRecord {r : Record} (h : Represents a r l) : IsRecord l := by
  cases r with
  | «section» name => exact h.keyed.isRecord_iff.mpr (by simp)
  | student id surname name => exact h.keyed.isRecord_iff.mpr (by simp)
  | score s => exact h.keyed.isRecord_iff.mpr (by simp)

theorem not_isRecord_of_skipped (h : Skipped l) : ¬ IsRecord l := by
  have hhead : ∀ key ∈ [Key.SECTION, Key.STUDENT, Key.SCORE], key.head? ≠ some 35 := by decide
  rintro ⟨key, hmem, hkey⟩
  exact hkey.not_skipped (hhead key hmem) h

/-- Every line of a text that is a record is read or left, and in this order. -/
theorem filter_scanLines (blank : Bool) (ls : List Str) :
    (ls.map dropWhite).filter (IsRecord ·) = (scanLines blank ls).1.filter (IsRecord ·) ++
      ((scanLines blank ls).2.map dropWhite).filter (IsRecord ·) := by
  induction ls generalizing blank with
  | nil => rfl
  | cons l ls ih =>
    obtain ⟨hl, blank', hskip⟩ | ⟨-, hstop⟩ | hread := scanLines_cons blank l
    · have hno : ¬ IsRecord (dropWhite l) := not_isRecord_of_skipped (skipped_dropWhite.mpr hl)
      rw [hskip, List.map_cons, List.filter_cons, if_neg (by simpa using hno), ih blank']
    · rw [hstop]
      rfl
    · rw [hread, List.map_cons, List.filter_cons, List.filter_cons, ih false]
      split
      · rfl
      · rfl

/-! ## The order of reading -/

/-- There is one order of reading at most. -/
theorem Order.unique (h : Order files ls unread order) (h' : Order files ls unread order') :
    order = order' := by
  induction h generalizing order' with
  | rest =>
    cases h'
    rfl
  | line hno _ ih =>
    cases h' with
    | line _ hrest => rw [ih hrest]
    | file hl _ _ _ => exact absurd hl.keyed hno
  | file hl hfile _ _ ih ih' =>
    cases h' with
    | line hno _ => exact absurd hl.keyed hno
    | file hl' hfile' htext hrest =>
      rw [hl.unique hl'] at hfile
      rw [hfile] at hfile'
      obtain rfl := Option.some.inj hfile'
      rw [ih htext, ih' hrest]

/-- Lines that name no file are read one after the other. -/
theorem Order.lines (hls : ∀ l ∈ ls, ¬ Keyed Key.FILE l) {more : List Str}
    (h : Order files more unread order) :
    Order files (ls ++ more) unread (ls.map (fun l => (l, true)) ++ order) := by
  induction ls with
  | nil => exact h
  | cons l ls ih =>
    obtain ⟨hl, hls⟩ := List.forall_mem_cons.mp hls
    exact .line hl (ih hls)

/-! ## What is read is represented -/

theorem StudentLines.represents {s : Student} (h : StudentLines a s ls) :
    List.Forall₂ (Represents a) s.records ls := by
  obtain ⟨l, ls', rfl, hl, hscores⟩ := h
  exact .cons hl (List.forall₂_map_left_iff.mpr hscores)

theorem isRecord_of_forall₂ {rs : List Record} (h : List.Forall₂ (Represents a) rs ls) :
    ∀ l ∈ ls, IsRecord l := by
  induction h with
  | nil => exact fun l hl => absurd hl List.not_mem_nil
  | cons hr _ ih => exact List.forall_mem_cons.mpr ⟨hr.isRecord, ih⟩

/-- The lines of a section that are records, and none of them names a file. -/
theorem SectionLines.represents {s : Section} (h : SectionLines a s ls) :
    List.Forall₂ (Represents a) s.records (ls.filter (IsRecord ·)) ∧
      ∀ l ∈ ls, ¬ Keyed Key.FILE l := by
  obtain ⟨l, la, ls', rfl, hl, hassistant, hroster⟩ := h
  have hstudents := hroster.forall₂_flatMap fun s ls hs => StudentLines.represents hs
  have hrecords := isRecord_of_forall₂ hstudents
  have hperson := hassistant.keyed
  have hrecord : IsRecord l := hl.keyed.isRecord_iff.mpr (by simp)
  constructor
  · -- only the lines of the assistant are no records
    have hla : la.filter (IsRecord ·) = [] := by
      refine List.filter_eq_nil_iff.mpr fun m hm => ?_
      rw [decide_eq_true_iff, (hperson m hm).isRecord_iff]
      decide
    have hls : ls'.filter (IsRecord ·) = ls' :=
      List.filter_eq_self.mpr fun m hm => decide_eq_true (hrecords m hm)
    rw [List.filter_cons, if_pos (decide_eq_true hrecord), List.filter_append, hla, hls]
    exact .cons hl hstudents
  · intro m hm hfile
    have hkeys : ¬ IsRecord m ∧ Key.FILE ≠ Key.ASSISTANT := by
      rw [hfile.isRecord_iff]
      decide
    rcases List.mem_cons.mp hm with rfl | hm
    · exact hkeys.1 hrecord
    rcases List.mem_append.mp hm with hm | hm
    · exact hkeys.2 (hfile.unique (hperson m hm))
    · exact hkeys.1 (hrecords m hm)

/-- The lines that are read and start with a record. -/
def readRecords (order : List (Str × Bool)) : List Str :=
  ((order.filter Prod.snd).map Prod.fst).filter (IsRecord ·)

theorem readRecords_append (order order' : List (Str × Bool)) :
    readRecords (order ++ order') = readRecords order ++ readRecords order' := by
  simp [readRecords]

theorem readRecords_read (ls : List Str) :
    readRecords (ls.map fun l => (l, true)) = ls.filter (IsRecord ·) := by
  simp [readRecords, List.filter_map, Function.comp_def]

theorem readRecords_unread (ls : List Str) : readRecords (ls.map fun l => (l, false)) = [] := by
  simp [readRecords, List.filter_map, Function.comp_def]

/-- The lines that are read represent the sections. -/
theorem FileLines.represents {ss : List Section} (h : FileLines files a ss ls) (unread : List Str) :
    ∃ order, Order files ls unread order ∧
      List.Forall₂ (Represents a) (ss.flatMap Section.records) (readRecords order) := by
  induction h generalizing unread with
  | nil =>
    refine ⟨_, .rest, ?_⟩
    rw [readRecords_unread]
    exact .nil
  | «section» hsection _ ih =>
    obtain ⟨order, horder, hall⟩ := ih unread
    obtain ⟨hrecords, hno⟩ := hsection.represents
    refine ⟨_, horder.lines hno, ?_⟩
    rw [List.flatMap_cons, readRecords_append, readRecords_read]
    exact List.rel_append hrecords hall
  | file hl hfile _ _ ih ih' =>
    obtain ⟨order, horder, hall⟩ := ih (recordLines _).2
    obtain ⟨order', horder', hall'⟩ := ih' unread
    refine ⟨order ++ order', .file hl hfile horder horder', ?_⟩
    rw [List.flatMap_append, readRecords_append]
    exact List.rel_append hall hall'

/-- In a run without an error the lines that are read represent the course. -/
theorem readfile_represents (hfiles : AsciiFiles files) {root : Str} (hroot : files root = some text)
    {c : Course} {n : ℕ} (hrun : readfile files root n = .ok (c, 0)) :
    ∃ order, Order files (recordLines text).1 (recordLines text).2 order ∧
      List.Forall₂ (Represents c.assignments) c.records (readRecords order) := by
  obtain ⟨s', hrun⟩ := (readfile_eq_ok hroot).mp hrun
  obtain ⟨⟨header, ls, hlines, hheader, hsections⟩, -⟩ :=
    readroot_reads hfiles (hfiles root text hroot) hrun
  obtain ⟨order, horder, hall⟩ := hsections.represents (recordLines text).2
  -- the lines before the first section are no records
  have hother : ∀ l ∈ header, ¬ IsRecord l ∧ ¬ Keyed Key.FILE l := by
    have hkeys : ∀ key ∈ headerKeys, key ∉ [Key.SECTION, Key.STUDENT, Key.SCORE] ∧
      key ≠ Key.FILE := by decide
    intro l hl
    obtain ⟨key, hmem, hkey⟩ := hheader.keyed l hl
    obtain ⟨hrecord, hfile⟩ := hkeys key hmem
    exact ⟨mt hkey.isRecord_iff.mp hrecord, fun hl => hfile (hkey.unique hl)⟩
  have hnone : header.filter (IsRecord ·) = [] :=
    List.filter_eq_nil_iff.mpr fun l hl => by simpa using (hother l hl).1
  refine ⟨header.map (fun l => (l, true)) ++ order, ?_, ?_⟩
  · rw [hlines]
    exact horder.lines fun l hl => (hother l hl).2
  · rwa [readRecords_append, readRecords_read, hnone]

/-- The lines with records are those that are read if nothing stands behind. -/
theorem recordsOf_eq (h : ∀ l, (l, false) ∈ order → ¬ IsRecord l) :
    recordsOf order = readRecords order := by
  induction order with
  | nil => rfl
  | cons p order ih =>
    obtain ⟨l, read⟩ := p
    have hrest := ih fun l hl => h l (List.mem_cons_of_mem _ hl)
    rw [recordsOf, readRecords] at hrest ⊢
    cases read with
    | true =>
      rw [List.filter_cons, if_pos rfl, List.map_cons, List.map_cons, List.filter_cons,
        List.filter_cons, hrest]
    | false =>
      have hl : ¬ IsRecord l := h l List.mem_cons_self
      rw [List.filter_cons, if_neg (by simp), List.map_cons, List.filter_cons,
        if_neg (by simpa using hl), hrest]

theorem readRecords_sublist (order : List (Str × Bool)) :
    (readRecords order).Sublist (recordsOf order) :=
  (List.filter_sublist.map Prod.fst).filter _

theorem length_readRecords_lt (hl : (l, false) ∈ order) (hrecord : IsRecord l) :
    (readRecords order).length < (recordsOf order).length := by
  obtain ⟨before, behind, rfl⟩ := List.append_of_mem hl
  have hread : readRecords (before ++ (l, false) :: behind) =
      readRecords before ++ readRecords behind := readRecords_append before ((l, false) :: behind)
  have hall : recordsOf (before ++ (l, false) :: behind) =
      recordsOf before ++ l :: recordsOf behind := by
    simp [recordsOf, hrecord]
  have hbefore := (readRecords_sublist before).length_le
  have hbehind := (readRecords_sublist behind).length_le
  rw [hread, hall, List.length_append, List.length_append, List.length_cons]
  omega

theorem represented_of_nothingBehind (hfiles : AsciiFiles files) {root : Str}
    (hroot : files root = some text) {c : Course} {n : ℕ}
    (hrun : readfile files root n = .ok (c, 0)) (h : NothingBehind files text) :
    Represented files text c := by
  obtain ⟨order, horder, hall⟩ := readfile_represents hfiles hroot hrun
  refine ⟨order, horder, ?_⟩
  rwa [recordsOf_eq (h order horder)]

theorem nothingBehind_of_represented (hfiles : AsciiFiles files) {root : Str}
    (hroot : files root = some text) {c : Course} {n : ℕ}
    (hrun : readfile files root n = .ok (c, 0)) (h : Represented files text c) :
    NothingBehind files text := by
  intro order' horder' l hl hrecord
  obtain ⟨order, horder, hall⟩ := readfile_represents hfiles hroot hrun
  obtain ⟨order₁, horder₁, hall₁⟩ := h
  rw [horder₁.unique horder] at hall₁
  rw [horder'.unique horder] at hl
  -- there are as many records as lines that are read
  have hlength := length_readRecords_lt hl hrecord
  rw [← hall.length_eq, ← hall₁.length_eq] at hlength
  exact hlength.false

/-- The course represents every line that starts with a record, in the order of reading, exactly if
no such line stands behind the line of white space that ends an included file. -/
theorem represented_iff (hfiles : AsciiFiles files) {root : Str} (hroot : files root = some text)
    {c : Course} {n : ℕ} (hrun : readfile files root n = .ok (c, 0)) :
    Represented files text c ↔ NothingBehind files text :=
  ⟨nothingBehind_of_represented hfiles hroot hrun, represented_of_nothingBehind hfiles hroot hrun⟩

end Lines

/-! ## A section behind a blank line -/

/-- `COURSE c t` and `FILE x` -/
def blankRoot : Str := ascii ['C', 'O', 'U', 'R', 'S', 'E', ' ', 'c', ' ', 't', '\n',
  'F', 'I', 'L', 'E', ' ', 'x', '\n']

/-- Two sections with a line of white space between them. -/
def blankSections : Str := ascii ['S', 'E', 'C', 'T', 'I', 'O', 'N', ' ', '1', '\n', ' ', ' ', '\n',
  'S', 'E', 'C', 'T', 'I', 'O', 'N', ' ', '2', '\n']

def blankFiles : Str → Option Str := fun name =>
  if name = ascii ['r'] then some blankRoot
  else if name = ascii ['x'] then some blankSections
  else none

def blankCourse : Course :=
  ⟨ascii ['c'], ascii ['t'], none, [], [⟨ascii ['1'], none, []⟩]⟩

theorem asciiFiles_blankFiles : AsciiFiles blankFiles := by
  intro name text hname
  rw [blankFiles] at hname
  split_ifs at hname
  · rw [← Option.some.inj hname]
    decide
  · rw [← Option.some.inj hname]
    decide

/-- The second section is not read. -/
theorem not_nothingBehind_blankFiles : ¬ NothingBehind blankFiles blankRoot := by
  intro h
  have hroot : recordLines blankRoot = ([ascii ['C', 'O', 'U', 'R', 'S', 'E', ' ', 'c', ' ', 't'],
    ascii ['F', 'I', 'L', 'E', ' ', 'x']], []) := by decide_cbv
  have hsections : recordLines blankSections =
    ([ascii ['S', 'E', 'C', 'T', 'I', 'O', 'N', ' ', '1']],
      [[32, 32], ascii ['S', 'E', 'C', 'T', 'I', 'O', 'N', ' ', '2'], []]) := by decide_cbv
  have hfile : ReadAs Key.FILE readname (ascii ['F', 'I', 'L', 'E', ' ', 'x']) (ascii ['x']) := by
    refine ⟨⟨by decide, by decide⟩, ?_⟩
    rw [Clean]
    decide_cbv
  have hopened : blankFiles (ascii ['x']) = some blankSections := by decide
  obtain ⟨order, horder, l, hl, hrecord⟩ : ∃ order, Order blankFiles (recordLines blankSections).1
      (recordLines blankSections).2 order ∧ ∃ l, (l, false) ∈ order ∧ IsRecord l := by
    rw [hsections]
    refine ⟨_, .line (by decide) .rest, ascii ['S', 'E', 'C', 'T', 'I', 'O', 'N', ' ', '2'], ?_, ?_⟩
    · decide
    · decide
  rw [NothingBehind, hroot] at h
  exact h _ (.line (by decide) (.file hfile hopened horder .rest)) l (by simp [hl]) hrecord

theorem readfile_blankFiles : readfile blankFiles (ascii ['r']) 10 = .ok (blankCourse, 0) := by
  decide_cbv

theorem represented_iff_blankFiles :
    Represented blankFiles blankRoot blankCourse ↔ NothingBehind blankFiles blankRoot :=
  represented_iff asciiFiles_blankFiles (show blankFiles (ascii ['r']) = _ by decide)
    readfile_blankFiles

theorem section_dropped : AsciiFiles blankFiles ∧ blankFiles (ascii ['r']) = some blankRoot ∧
    readfile blankFiles (ascii ['r']) 10 = .ok (blankCourse, 0) ∧
    ¬ Represented blankFiles blankRoot blankCourse := by
  have hroot : blankFiles (ascii ['r']) = some blankRoot := by decide
  refine ⟨asciiFiles_blankFiles, hroot, readfile_blankFiles, fun h => ?_⟩
  exact not_nothingBehind_blankFiles
    (nothingBehind_of_represented asciiFiles_blankFiles hroot readfile_blankFiles h)

end CLanguage.Gradebook
