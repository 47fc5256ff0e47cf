import CLanguage.Gradebook.Complete
import CLanguage.Gradebook.Fields
import CLanguage.Lib.Decimals

/-!
# Writing a database

The functions that write a course, and what the reader makes of their text
(`Course.reread`). Numbers are written with six places. A number for `USENORM` is
followed by a second keyword, which the reader takes for the start of the code. The
group is only written behind a policy, and so is lost without one.
-/

namespace CLanguage.Gradebook

open Lib Lib.Reporting Grades

/-! ## The writer

The bytes between the fields are 32 for a space, 44 for a comma, 58 for a colon and 10 for
the end of the line. -/

/-- A line with its keyword behind white space. -/
def line (indent : ℕ) (key rest : Str) : Str :=
  List.replicate indent 32 ++ key ++ 32 :: rest ++ [10]

/-- `writeprofessor` and `writeassistant`, which differ in the keyword. -/
def writeperson (key : Str) : Option Person → Str
  | none => []
  | some p => line 1 key (p.surname ++ 44 :: 32 :: p.name)

/-- `writeprofessor` -/
def writeprofessor : Option Person → Str := writeperson Key.PROFESSOR

/-- `writeassistant` -/
def writeassistant : Option Person → Str := writeperson Key.ASSISTANT

/-- The number for `USENORM`, where there is a policy. -/
def writenormalized (ap : Assignment) (norm : Binary32) : Str :=
  match ap.npolicy with
  | .raw => []
  | .linear _ _ | .quantile | .scale _ => 32 :: Key.USENORM ++ 32 :: printFloat norm

/-- What `writescore` writes behind the name of the assignment. The case `USENORM` of its switch
falls through to the next one. -/
def writegrade (ap : Assignment) : Grade → Str
  | .valid grade => 32 :: printFloat grade
  | .useRaw grade code => 32 :: Key.USERAW ++ 32 :: printFloat grade ++ 32 :: code
  | .useNorm norm code => writenormalized ap norm ++ 32 :: Key.USELIKEAVG ++ 32 :: code
  | .useLikeAvg code => 32 :: Key.USELIKEAVG ++ 32 :: code
  | .useClassAvg code => 32 :: Key.USECLASSAVG ++ 32 :: code

/-- `writescore` -/
def writescore (a : List Assignment) (s : Score) : Str :=
  match a[s.asgt]? with
  | none => []
  | some ap => line 3 Key.SCORE (ap.name ++ writegrade ap s.grade)

/-- `writestudent` -/
def writestudent (a : List Assignment) (s : Student) : Str :=
  line 2 Key.STUDENT (s.id ++ 32 :: s.surname ++ 44 :: 32 :: s.name) ++
    s.rawscores.flatMap (writescore a)

/-- `writesection` -/
def writesection (a : List Assignment) (s : Section) : Str :=
  line 1 Key.SECTION s.name ++ writeassistant s.assistant ++ s.roster.flatMap (writestudent a)

def LINEAR : Str := ascii ['L', 'I', 'N', 'E', 'A', 'R']

/-- The policy as `writeassignment` writes it; nothing is written for `RAW`. -/
def writepolicy : Npolicy → Option Str
  | .raw => none
  | .linear mean stddev => some (LINEAR ++ 58 :: 32 :: printFloat mean ++ 44 :: 32 :: printFloat stddev)
  | .quantile => some Key.QUANTILE
  | .scale scale => some (Key.SCALE ++ 32 :: printFloat scale)

def writegroup : Ngroup → Str
  | .byClass => Key.BYCLASS
  | .bySection => Key.BYSECTION

/-- The lines behind an assignment, each of which can be missing. -/
def writeweight : Option Binary32 → Str
  | none => []
  | some weight => line 2 Key.WEIGHT (printFloat weight)

def writenorm (p : Npolicy) (g : Ngroup) : Str :=
  match writepolicy p with
  | none => []
  | some policy => line 2 Key.NORMALIZE (policy ++ 32 :: writegroup g)

def writemax (max : Binary32) : Str :=
  if max = .finite 0 then [] else line 2 Key.MAXIMUM (printFloat max)

/-- `writeassignment` -/
def writeassignment (a : Assignment) : Str :=
  line 1 Key.ASSIGNMENT (a.name ++ 32 :: a.atype) ++ writeweight a.weight ++
    writenorm a.npolicy a.ngroup ++ writemax a.max

/-- `writecourse` -/
def writecourse (c : Course) : Str :=
  line 0 Key.COURSE (c.number ++ 32 :: c.title) ++ writeprofessor c.professor ++
    c.assignments.flatMap writeassignment ++ c.sections.flatMap (writesection c.assignments)

/-! ## What is read back -/

/-- The grade that is read back. -/
def Grade.reread (ap : Assignment) : Grade → Grade
  | .valid grade => .valid grade.sixPlaces
  | .useRaw grade code => .useRaw grade.sixPlaces code
  | .useNorm norm code =>
    if ap.npolicy = .raw then .useLikeAvg code
    else .useNorm norm.sixPlaces (Key.USELIKEAVG ++ 32 :: code)
  | .useLikeAvg code => .useLikeAvg code
  | .useClassAvg code => .useClassAvg code

def Npolicy.reread : Npolicy → Npolicy
  | .scale f => .scale f.sixPlaces
  | p => p

def Assignment.reread (a : Assignment) : Assignment :=
  { a with
    weight := a.weight.map Binary32.sixPlaces
    max := a.max.sixPlaces
    npolicy := a.npolicy.reread
    ngroup := if a.npolicy = .raw then .byClass else a.ngroup }

def Score.reread (a : List Assignment) (s : Score) : Score :=
  match a[s.asgt]? with
  | none => s
  | some ap => { s with grade := s.grade.reread ap }

def Student.reread (a : List Assignment) (s : Student) : Student :=
  { s with rawscores := s.rawscores.map (Score.reread a) }

def Section.reread (a : List Assignment) (s : Section) : Section :=
  { s with roster := s.roster.map (Student.reread a) }

/-- The course that is read where a course has been written. -/
def Course.reread (c : Course) : Course :=
  { c with
    assignments := c.assignments.map Assignment.reread
    sections := c.sections.map (Section.reread c.assignments) }

/-! ## Courses that can be written

A course whose words and names are those that a text can have. -/

/-- A word is read as one token. -/
structure IsWord (w : Str) : Prop where
  ne_nil : w ≠ []
  plain : ∀ b ∈ w, isplain b = true
  short : w.length < 64
  nonull : 0 ∉ w
  ascii : 255 ∉ w

/-- A name is read up to the end of its line. It may be empty. -/
structure IsName (w : Str) : Prop where
  onLine : OnLine w
  start : dropWhite w = w
  short : w.length < 64
  nonull : 0 ∉ w

structure IsPerson (p : Person) : Prop where
  surname : IsWord p.surname
  name : IsName p.name

/-- The numbers of a policy. -/
def Npolicy.Valid : Npolicy → Prop
  | .linear mean stddev => mean.Valid ∧ stddev.Valid
  | .scale f => f.Valid
  | _ => True

structure IsAssignment (a : Assignment) : Prop where
  name : IsWord a.name
  atype : IsWord a.atype
  weight : ∀ f ∈ a.weight, f.Valid
  max : a.max.Valid
  npolicy : a.npolicy.Valid

/-- The numbers and the code of a grade, and the check of a normalized score. -/
def IsGrade (ap : Assignment) : Grade → Prop
  | .valid grade => grade.Valid
  | .useRaw grade code => grade.Valid ∧ IsName code
  | .useNorm norm code => norm.Valid ∧ IsName code ∧ normInRange ap norm = true
  | .useLikeAvg code => IsName code
  | .useClassAvg code => IsName code

/-- A score belongs to the first assignment of its name. -/
def IsScore (a : List Assignment) (s : Score) : Prop :=
  ∃ ap, findAssignment a ap.name = some (ap, s.asgt) ∧ IsGrade ap s.grade

structure IsStudent (a : List Assignment) (s : Student) : Prop where
  id : IsWord s.id
  surname : IsWord s.surname
  name : IsName s.name
  rawscores : ∀ score ∈ s.rawscores, IsScore a score

structure IsSection (a : List Assignment) (s : Section) : Prop where
  name : IsName s.name
  assistant : ∀ p ∈ s.assistant, IsPerson p
  roster : ∀ student ∈ s.roster, IsStudent a student

structure IsCourse (c : Course) : Prop where
  number : IsWord c.number
  title : IsName c.title
  professor : ∀ p ∈ c.professor, IsPerson p
  assignments : ∀ a ∈ c.assignments, IsAssignment a
  sections : ∀ s ∈ c.sections, IsSection c.assignments s

/-- A policy that the reader has a keyword for. -/
def Npolicy.HasKeyword : Npolicy → Prop
  | .linear _ _ => False
  | _ => True

instance : DecidablePred Npolicy.HasKeyword
  | .linear _ _ => inferInstanceAs (Decidable False)
  | .raw | .quantile | .scale _ => inferInstanceAs (Decidable True)

/-- The code of a normalized score is still short enough behind the second keyword, and its number
is in the range of the policy. -/
def Grade.Fits (ap : Assignment) : Grade → Prop
  | .useNorm norm code => ap.npolicy = .raw ∨
      ((Key.USELIKEAVG ++ 32 :: code).length < 64 ∧ normInRange ap.reread norm.sixPlaces = true)
  | _ => True

/-- All grades of the course fit. -/
def Course.Fits (c : Course) : Prop :=
  ∀ s ∈ c.sections, ∀ student ∈ s.roster, ∀ score ∈ student.rawscores,
    ∀ ap ∈ c.assignments[score.asgt]?, score.grade.Fits ap

end CLanguage.Gradebook
