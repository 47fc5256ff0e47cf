import Mathlib.Data.Rat.Defs
import Mathlib.Logic.Function.Basic

/-!
# Students and their rosters

The students of a course in memory. A student is on the roster of a section, which is
linked through `next`, and on the roster of the course, which is linked through `cnext`.
The two links of a student are kept apart from the rest of it, since most functions
change either only links or no link. Pointers to students are numbers; grades are exact
numbers.
-/

namespace CLanguage.Grades

/-- A C string without its terminator. -/
abbrev Str := List UInt8

/-- `Gflag` -/
inductive Gflag
  | valid
  | invalid
  deriving DecidableEq, Repr

/-- `Gsubst` -/
inductive Gsubst
  | useRaw
  | useNorm
  | useLikeAvg
  | useClassAvg
  deriving DecidableEq, Repr

/-- `Score`. The assignment is given by its place in the list of assignments, the statistics by their
places in the lists of statistics. -/
structure Score where
  asgt : ℕ
  grade : ℚ
  flag : Gflag
  subst : Gsubst
  cstats : Option ℕ
  sstats : Option (ℕ × ℕ)
  deriving DecidableEq, Repr

/-- `Student` -/
structure Student where
  id : Str
  surname : Str
  name : Str
  rawscores : List Score
  composite : ℚ
  deriving DecidableEq, Repr

/-- The students in memory with their links, and what the course and its sections know of them: the
heads of the rosters. -/
structure Rosters where
  student : ℕ → Student
  next : ℕ → Option ℕ
  cnext : ℕ → Option ℕ
  /-- `roster` of the course -/
  roster : Option ℕ
  /-- `roster` of each section -/
  sections : List (Option ℕ)

/-- `getnext` -/
def getnext (m : Rosters) (s : ℕ) : Option ℕ := m.next s

/-- `getcnext` -/
def getcnext (m : Rosters) (s : ℕ) : Option ℕ := m.cnext s

/-- `setnext` -/
def setnext (m : Rosters) (s : ℕ) (n : Option ℕ) : Rosters :=
  { m with next := Function.update m.next s n }

/-- `setcnext` -/
def setcnext (m : Rosters) (s : ℕ) (n : Option ℕ) : Rosters :=
  { m with cnext := Function.update m.cnext s n }

/-! The two kinds of links do not touch each other. -/

section Links

variable (m : Rosters) (s : ℕ) (n : Option ℕ)

@[simp] theorem student_setnext : (setnext m s n).student = m.student := rfl

@[simp] theorem cnext_setnext : (setnext m s n).cnext = m.cnext := rfl

@[simp] theorem student_setcnext : (setcnext m s n).student = m.student := rfl

@[simp] theorem next_setcnext : (setcnext m s n).next = m.next := rfl

end Links

end CLanguage.Grades
