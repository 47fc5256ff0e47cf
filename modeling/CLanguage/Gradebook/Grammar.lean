import CLanguage.Gradebook.OneLine
import CLanguage.Lib.Blocks

/-!
# The grammar of a database

What the lines of a database stand for. A line stands for a record if the reader of
the record delivers it from this line alone; the lines of a student, a section, an
assignment and a course are put together from them. A `FILE` line stands for the
sections of the file that it names.
-/

namespace CLanguage.Gradebook

open Lib Lib.Reporting Grades

/-- The first token of the line is `key`. -/
def Keyed (key l : Str) : Prop := (firstWord l).1 ≠ [] ∧ cstr (firstWord l).1 = key

instance (key l : Str) : Decidable (Keyed key l) := inferInstanceAs (Decidable (_ ∧ _))

/-! ## Records

What the readers do with the line behind its keyword. -/

def courserecord : Reader (Str × Str) := do
  let number ← readid
  let title ← readname
  return (number, title)

def personrecord : Reader Person := do
  let surname ← readsurname
  let name ← readname
  return ⟨surname, name⟩

def assignmentrecord : Reader Assignment := do
  let name ← readid
  let atype ← readatype
  expectnewline
  return ⟨name, atype, none, .finite 0, .raw, .byClass⟩

def weightrecord (a : Assignment) : Reader Assignment := do
  let a ← readweight a
  expectnewline
  return a

def normrecord (a : Assignment) (n : ℕ) : Reader Assignment := do
  let a ← readnorm false a n
  expectnewline
  return a

def maxrecord (a : Assignment) : Reader Assignment := do
  let a ← readmax a
  expectnewline
  return a

def studentrecord : Reader (Str × Str × Str) := do
  let id ← readid
  let surname ← readsurname
  let name ← readname
  return (id, surname, name)

def scorerecord (a : List Assignment) : Reader Score := do
  let s ← readscore a
  expectnewline
  return s

theorem endsLine_courserecord : EndsLine courserecord :=
  staysOnLine_readword.endsLine fun _ => endsLine_readname.map _

theorem endsLine_personrecord : EndsLine personrecord :=
  staysOnLine_readword.endsLine fun _ => endsLine_readname.map _

theorem endsLine_assignmentrecord : EndsLine assignmentrecord :=
  staysOnLine_readword.endsLine fun _ => staysOnLine_readword.endsLine fun _ =>
    endsLine_expectnewline.map _

theorem endsLine_weightrecord (a : Assignment) : EndsLine (weightrecord a) :=
  (staysOnLine_readweight a).endsLine fun _ => endsLine_expectnewline.map _

theorem endsLine_normrecord (a : Assignment) (n : ℕ) : EndsLine (normrecord a n) :=
  (staysOnLine_readnorm n false a).endsLine fun _ => endsLine_expectnewline.map _

theorem endsLine_maxrecord (a : Assignment) : EndsLine (maxrecord a) :=
  (staysOnLine_readmax a).endsLine fun _ => endsLine_expectnewline.map _

theorem endsLine_studentrecord : EndsLine studentrecord :=
  staysOnLine_readword.endsLine fun _ => staysOnLine_readword.endsLine fun _ =>
    endsLine_readname.map _

theorem endsLine_scorerecord (a : List Assignment) : EndsLine (scorerecord a) :=
  (staysOnLine_readscore a).endsLine fun _ => endsLine_expectnewline.map _

/-! ## The readers as sequences of records -/

section Equations

variable (a : List Assignment) (files : Str → Option Str) (n : ℕ)

theorem readscores_succ : readscores a (n + 1) =
    checktoken Key.SCORE >>= fun found =>
      if found = true then scorerecord a >>= fun s => readscores a n >>= fun rest => pure (s :: rest)
      else pure [] := by
  simp only [readscores, scorerecord, bind_assoc, pure_bind]

theorem readstudents_succ : readstudents a (n + 1) =
    checktoken Key.STUDENT >>= fun found =>
      if found = true then studentrecord >>= fun r => readscores a n >>= fun rawscores =>
        readstudents a n >>= fun rest => pure (⟨r.1, r.2.1, r.2.2, rawscores⟩ :: rest)
      else pure [] := by
  simp only [readstudents, studentrecord, bind_assoc, pure_bind]

theorem readperson_eq (key : Str) : readperson key =
    checktoken key >>= fun found =>
      if found = true then personrecord >>= fun p => pure (some p) else pure none := by
  simp only [readperson, personrecord, bind_assoc, pure_bind]

theorem readclauses_succ (b : Assignment) : readclauses b (n + 1) =
    checktoken Key.WEIGHT >>= fun found =>
      if found = true then weightrecord b >>= fun b => readclauses b n
      else checktoken Key.NORMALIZE >>= fun found =>
        if found = true then normrecord b n >>= fun b => readclauses b n
        else checktoken Key.MAXIMUM >>= fun found =>
          if found = true then maxrecord b >>= fun b => readclauses b n else pure b := by
  simp only [readclauses, weightrecord, normrecord, maxrecord, bind_assoc, pure_bind]

theorem readassignments_succ : readassignments (n + 1) =
    checktoken Key.ASSIGNMENT >>= fun found =>
      if found = true then assignmentrecord >>= fun b => readclauses b n >>= fun b =>
        readassignments n >>= fun rest => pure (b :: rest)
      else pure [] := by
  simp only [readassignments, assignmentrecord, bind_assoc, pure_bind]

/-- Open a file and make it the one that is read. -/
def openfile (name : Str) : Reader Unit := do
  match files name with
  | none => stop .fatal
  | some text => fun s => .ok ((), 0, { s with input := text, prev := s.input :: s.prev })
  gobbleblanklines

theorem pushfile_eq : pushfile files = readname >>= openfile files := by
  rw [pushfile, readname, bind_assoc]
  congr 1
  funext _
  rw [bind_assoc]
  congr 1
  funext n
  by_cases hn : n = []
  · simp only [if_pos hn, openfile, bind_assoc, pure_bind] <;> rfl
  · simp only [if_neg hn, openfile, bind_assoc, pure_bind] <;> rfl

/-- `readsections` behind its loop. -/
def readblocks : Reader (List Section) :=
  checktoken Key.FILE >>= fun found =>
    if found = true then readname >>= fun name => openfile files name >>= fun _ =>
      readsections files a n
    else checktoken Key.SECTION >>= fun found =>
      if found = true then readname >>= fun name => readassistant >>= fun assistant =>
        readstudents a n >>= fun roster => readsections files a n >>= fun rest =>
          pure (⟨name, assistant, roster⟩ :: rest)
      else pure []

theorem readsections_succ : readsections files a (n + 1) =
    openFiles >>= fun opened => nexttoken opened >>= fun more =>
      if more = true then readblocks a files n else pure [] := by
  simp only [readsections, readblocks, pushfile_eq, bind_assoc]

theorem readcourse_eq : readcourse files n =
    expecttoken Key.COURSE >>= fun _ => courserecord >>= fun r => readprofessor >>= fun professor =>
      readassignments n >>= fun assignments => readsections files assignments n >>= fun sections =>
        pure ⟨r.1, r.2, professor, assignments, sections⟩ := by
  simp only [readcourse, courserecord, bind_assoc, pure_bind]

end Equations

/-! ## The lines of a course -/

/-- A line that changes the assignment before it. -/
def Clause (a : Assignment) (l : Str) (b : Assignment) : Prop :=
  ReadAs Key.WEIGHT (weightrecord a) l b ∨ (∃ n, ReadAs Key.NORMALIZE (normrecord a n) l b) ∨
    ReadAs Key.MAXIMUM (maxrecord a) l b

/-- The lines that change an assignment, one after the other. -/
inductive Clauses : Assignment → List Str → Assignment → Prop
  | nil {a : Assignment} : Clauses a [] a
  | cons {a b c : Assignment} {l : Str} {ls : List Str} :
      Clause a l b → Clauses b ls c → Clauses a (l :: ls) c

/-- An assignment and its clauses. -/
def AssignmentLines (a : Assignment) (ls : List Str) : Prop :=
  ∃ l ls' a₀, ls = l :: ls' ∧ ReadAs Key.ASSIGNMENT assignmentrecord l a₀ ∧ Clauses a₀ ls' a

/-- A line for a person, if there is one. -/
def PersonLine (key : Str) : Option Person → List Str → Prop
  | none, ls => ls = []
  | some p, ls => ∃ l, ls = [l] ∧ ReadAs key personrecord l p

/-- A student with a line for each score. -/
def StudentLines (a : List Assignment) (s : Student) (ls : List Str) : Prop :=
  ∃ l ls', ls = l :: ls' ∧ ReadAs Key.STUDENT studentrecord l (s.id, s.surname, s.name) ∧
    List.Forall₂ (fun score l => ReadAs Key.SCORE (scorerecord a) l score) s.rawscores ls'

/-- A section with its assistant and its students. -/
def SectionLines (a : List Assignment) (s : Section) (ls : List Str) : Prop :=
  ∃ l la ls', ls = l :: (la ++ ls') ∧ ReadAs Key.SECTION readname l s.name ∧
    PersonLine Key.ASSISTANT s.assistant la ∧ Blocks (StudentLines a) s.roster ls'

/-- The sections of a file. A `FILE` line stands for those of the file that it names. -/
inductive FileLines (files : Str → Option Str) (a : List Assignment) :
    List Section → List Str → Prop
  | nil : FileLines files a [] []
  | section {s : Section} {ss : List Section} {ls ls' : List Str} :
      SectionLines a s ls → FileLines files a ss ls' → FileLines files a (s :: ss) (ls ++ ls')
  | file {ss ss' : List Section} {l name text : Str} {ls : List Str} :
      ReadAs Key.FILE readname l name → files name = some text →
      FileLines files a ss (recordLines text).1 → FileLines files a ss' ls →
      FileLines files a (ss ++ ss') (l :: ls)

/-- What comes before the sections of a course: its title, the professor and the assignments. -/
def HeaderLines (c : Course) (ls : List Str) : Prop :=
  ∃ l lp la, ls = l :: (lp ++ la) ∧ ReadAs Key.COURSE courserecord l (c.number, c.title) ∧
    PersonLine Key.PROFESSOR c.professor lp ∧ Blocks AssignmentLines c.assignments la

/-- The keywords of these lines. -/
def headerKeys : List Str :=
  [Key.COURSE, Key.PROFESSOR, Key.ASSIGNMENT, Key.WEIGHT, Key.NORMALIZE, Key.MAXIMUM]

/-- The lines of a course. -/
def CourseLines (files : Str → Option Str) (c : Course) (ls : List Str) : Prop :=
  ∃ header ls', ls = header ++ ls' ∧ HeaderLines c header ∧
    FileLines files c.assignments c.sections ls'

end CLanguage.Gradebook
