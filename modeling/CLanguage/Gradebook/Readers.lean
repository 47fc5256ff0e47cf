import CLanguage.Gradebook.Reader

/-!
# Reading the records of a database

One reader for each kind of record, in the order of the source. A reader looks one
token ahead: it leaves the keyword that it does not know in the token buffer, for
the reader that called it.
-/

namespace CLanguage.Gradebook

open Lib Lib.Reporting Grades

namespace Key

def COURSE : Str := ascii ['C', 'O', 'U', 'R', 'S', 'E']
def PROFESSOR : Str := ascii ['P', 'R', 'O', 'F', 'E', 'S', 'S', 'O', 'R']
def ASSISTANT : Str := ascii ['A', 'S', 'S', 'I', 'S', 'T', 'A', 'N', 'T']
def ASSIGNMENT : Str := ascii ['A', 'S', 'S', 'I', 'G', 'N', 'M', 'E', 'N', 'T']
def WEIGHT : Str := ascii ['W', 'E', 'I', 'G', 'H', 'T']
def NORMALIZE : Str := ascii ['N', 'O', 'R', 'M', 'A', 'L', 'I', 'Z', 'E']
def MAXIMUM : Str := ascii ['M', 'A', 'X', 'I', 'M', 'U', 'M']
def FILE : Str := ascii ['F', 'I', 'L', 'E']
def SECTION : Str := ascii ['S', 'E', 'C', 'T', 'I', 'O', 'N']
def STUDENT : Str := ascii ['S', 'T', 'U', 'D', 'E', 'N', 'T']
def SCORE : Str := ascii ['S', 'C', 'O', 'R', 'E']
def USERAW : Str := ascii ['U', 'S', 'E', 'R', 'A', 'W']
def USENORM : Str := ascii ['U', 'S', 'E', 'N', 'O', 'R', 'M']
def USELIKEAVG : Str := ascii ['U', 'S', 'E', 'L', 'I', 'K', 'E', 'A', 'V', 'G']
def USECLASSAVG : Str := ascii ['U', 'S', 'E', 'C', 'L', 'A', 'S', 'S', 'A', 'V', 'G']
def RAW : Str := ascii ['R', 'A', 'W']
def STDLINEAR : Str := ascii ['S', 'T', 'D', 'L', 'I', 'N', 'E', 'A', 'R']
def GENLINEAR : Str := ascii ['G', 'E', 'N', 'L', 'I', 'N', 'E', 'A', 'R']
def QUANTILE : Str := ascii ['Q', 'U', 'A', 'N', 'T', 'I', 'L', 'E']
def SCALE : Str := ascii ['S', 'C', 'A', 'L', 'E']
def BYCLASS : Str := ascii ['B', 'Y', 'C', 'L', 'A', 'S', 'S']
def BYSECTION : Str := ascii ['B', 'Y', 'S', 'E', 'C', 'T', 'I', 'O', 'N']

end Key

/-! ## Assignments -/

/-- `readweight` -/
def readweight (a : Assignment) : Reader Assignment := do
  advancetoken
  match ← scantoken with
  | some f => return { a with weight := some f }
  | none =>
    report
    return { a with weight := none }

/-- `readmax` -/
def readmax (a : Assignment) : Reader Assignment := do
  advancetoken
  match ← scantoken with
  | some f => return { a with max := f }
  | none =>
    report
    return a

/-- The loop of `readnorm`; `found` says that there was a keyword. -/
def readnorm (found : Bool) (a : Assignment) : ℕ → Reader Assignment
  | 0 => stop .fuel
  | fuel + 1 => do
    if ← checktoken Key.RAW then
      readnorm true { a with npolicy := .raw } fuel
    else if ← checktoken Key.STDLINEAR then
      readnorm true { a with npolicy := .linear (.finite 0) (.finite 1) } fuel
    else if ← checktoken Key.GENLINEAR then
      advancetoken
      let mean ← readfloat (.finite 0)
      advancetoken
      let stddev ← readfloat (.finite 1)
      readnorm true { a with npolicy := .linear mean stddev } fuel
    else if ← checktoken Key.QUANTILE then
      readnorm true { a with npolicy := .quantile } fuel
    else if ← checktoken Key.SCALE then
      advancetoken
      let scale ← readfloat (.finite 0)
      readnorm true { a with npolicy := .scale scale } fuel
    else if ← checktoken Key.BYCLASS then
      readnorm true { a with ngroup := .byClass } fuel
    else if ← checktoken Key.BYSECTION then
      readnorm true { a with ngroup := .bySection } fuel
    else if found then return a
    else
      report
      return { a with npolicy := .raw, ngroup := .byClass }

/-- The loop of `readassignments` over the lines behind an assignment. -/
def readclauses (a : Assignment) : ℕ → Reader Assignment
  | 0 => stop .fuel
  | fuel + 1 => do
    if ← checktoken Key.WEIGHT then
      let a ← readweight a
      expectnewline
      readclauses a fuel
    else if ← checktoken Key.NORMALIZE then
      let a ← readnorm false a fuel
      expectnewline
      readclauses a fuel
    else if ← checktoken Key.MAXIMUM then
      let a ← readmax a
      expectnewline
      readclauses a fuel
    else return a

/-- `readassignments` -/
def readassignments : ℕ → Reader (List Assignment)
  | 0 => stop .fuel
  | fuel + 1 => do
    if ← checktoken Key.ASSIGNMENT then
      let name ← readid
      let atype ← readatype
      expectnewline
      let a ← readclauses ⟨name, atype, none, .finite 0, .raw, .byClass⟩ fuel
      let rest ← readassignments fuel
      return a :: rest
    else return []

/-! ## Scores -/

/-- The comparison `a < b` of floats. -/
def floatLt : Binary32 → Binary32 → Bool
  | .nan, _ => false
  | _, .nan => false
  | .infinite negative, .infinite negative' => negative && !negative'
  | .infinite negative, .finite _ => negative
  | .finite _, .infinite negative => !negative
  | .finite p, .finite q => p < q

/-- The check of a normalized score against the policy of its assignment. -/
def normInRange (ap : Assignment) (f : Binary32) : Bool :=
  match ap.npolicy with
  | .raw | .linear _ _ => true
  | .quantile => !(floatLt f (.finite 0) || floatLt (.finite 100) f)
  | .scale scale => !(floatLt f (.finite 0) || floatLt scale f)

/-- The rest of the line behind a substitution. -/
def readcode : Reader Str := do
  advanceeol
  let token ← tokenText
  flushtoken
  return cstr token

/-- `readgrade` for a score of the assignment `ap`. -/
def readgrade (ap : Assignment) : Reader Grade := do
  if ← checktoken Key.USERAW then
    needtoken
    let f ← readfloat (.finite 0)
    let code ← readcode
    return .useRaw f code
  else if ← checktoken Key.USENORM then
    needtoken
    match ← scantoken with
    | some f =>
      if normInRange ap f then pure () else report
      let code ← readcode
      return .useNorm f code
    | none =>
      report
      let code ← readcode
      return .useNorm (.finite 0) code
  else if ← checktoken Key.USELIKEAVG then
    let code ← readcode
    return .useLikeAvg code
  else if ← checktoken Key.USECLASSAVG then
    let code ← readcode
    return .useClassAvg code
  else
    needtoken
    let f ← readfloat (.finite 0)
    return .valid f

/-- The first assignment of a name, with its place. -/
def findAssignment (a : List Assignment) (name : Str) : Option (Assignment × ℕ) :=
  a.zipIdx.find? fun ap => ap.1.name = name

/-- A score up to the end of its line. -/
def readscore (a : List Assignment) : Reader Score := do
  needtoken
  let token ← tokenText
  if token = [] then stop .fatal
  else
    match findAssignment a (cstr token) with
    | none => stop .fatal
    | some (ap, i) =>
      flushtoken
      let grade ← readgrade ap
      return ⟨i, grade⟩

/-- `readscores` -/
def readscores (a : List Assignment) : ℕ → Reader (List Score)
  | 0 => stop .fuel
  | fuel + 1 => do
    if ← checktoken Key.SCORE then
      let s ← readscore a
      expectnewline
      let rest ← readscores a fuel
      return s :: rest
    else return []

/-! ## Students and sections -/

/-- `readstudents` -/
def readstudents (a : List Assignment) : ℕ → Reader (List Student)
  | 0 => stop .fuel
  | fuel + 1 => do
    if ← checktoken Key.STUDENT then
      let id ← readid
      let surname ← readsurname
      let name ← readname
      let rawscores ← readscores a fuel
      let rest ← readstudents a fuel
      return ⟨id, surname, name, rawscores⟩ :: rest
    else return []

/-- `readprofessor` and `readassistant`, which differ in the keyword. -/
def readperson (key : Str) : Reader (Option Person) := do
  if ← checktoken key then
    let surname ← readsurname
    let name ← readname
    return some ⟨surname, name⟩
  else return none

/-- `readprofessor` -/
def readprofessor : Reader (Option Person) := readperson Key.PROFESSOR

/-- `readassistant` -/
def readassistant : Reader (Option Person) := readperson Key.ASSISTANT

/-- The loop at the start of `readsections`, for as many files as are open: whether there is another
token. A file without one is left, the root excepted. -/
def nexttoken : ℕ → Reader Bool
  | 0 => stop .fuel
  | files + 1 => do
    if ← istoken then return true
    advancetoken
    if ← istoken then return true
    if files = 0 then return false
    previousfile
    nexttoken files

/-- The number of open files. -/
def openFiles : Reader ℕ := fun s => .ok (s.prev.length + 1, 0, s)

/-- `readsections` -/
def readsections (files : Str → Option Str) (a : List Assignment) : ℕ → Reader (List Section)
  | 0 => stop .fuel
  | fuel + 1 => do
    let opened ← openFiles
    if ← nexttoken opened then
      if ← checktoken Key.FILE then
        pushfile files
        readsections files a fuel
      else if ← checktoken Key.SECTION then
        let name ← readname
        let assistant ← readassistant
        let roster ← readstudents a fuel
        let rest ← readsections files a fuel
        return ⟨name, assistant, roster⟩ :: rest
      else return []
    else return []

/-! ## The course -/

/-- `readcourse` -/
def readcourse (files : Str → Option Str) (fuel : ℕ) : Reader Course := do
  expecttoken Key.COURSE
  let number ← readid
  let title ← readname
  let professor ← readprofessor
  let assignments ← readassignments fuel
  let sections ← readsections files assignments fuel
  return ⟨number, title, professor, assignments, sections⟩

/-- What `readfile` does with the text of the root. -/
def readroot (files : Str → Option Str) (fuel : ℕ) : Reader Course := do
  gobbleblanklines
  let c ← readcourse files fuel
  gobbleblanklines
  expecteof
  return c

/-- `readfile`: the course and the number of errors. -/
def readfile (files : Str → Option Str) (root : Str) (fuel : ℕ) : Except Stop (Course × ℕ) :=
  match files root with
  | none => .error .fatal
  | some text => (readroot files fuel ⟨[], text, []⟩).map fun r => (r.1, r.2.1)

end CLanguage.Gradebook
