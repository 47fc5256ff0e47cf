import CLanguage.Gradebook.Readers
import CLanguage.Lib.Scripts

/-!
# The parser and what it asks of the token buffer

The readers once more, as scripts over the functions that work on the token buffer and on
the open files (`Op`). A script fixes which of these functions is called when, so that it
can be run on the buffer in memory. With the meanings of the functions in `Reader` the
scripts are the readers (`reader_readroot`).
-/

namespace CLanguage.Gradebook

open Lib Lib.Reporting Grades

/-- The functions that use the token buffer or the open files. -/
inductive Op : Type → Type
  | istoken : Op Bool
  /-- the string at `tokenptr` -/
  | tokenText : Op Str
  | flushtoken : Op Unit
  | gobblewhitespace : Op Unit
  | gobbleblanklines : Op Unit
  | nextchar : Op UInt8
  /-- `flushtoken` and then `nextchar` up to the end of the line -/
  | skipline : Op Unit
  | advancetoken : Op Unit
  | advanceeol : Op Unit
  | previousfile : Op Unit
  /-- how many files are open -/
  | openFiles : Op ℕ
  /-- the end of `pushfile`, with the text of the file -/
  | openfile (text : Str) : Op Unit
  | expecteof : Op Unit
  | report : Op Unit

/-- What the functions do, with the characters in the buffer as a list. -/
def Op.reader : ∀ β, Op β → Reader β
  | _, .istoken => Gradebook.istoken
  | _, .tokenText => Gradebook.tokenText
  | _, .flushtoken => Gradebook.flushtoken
  | _, .gobblewhitespace => Gradebook.gobblewhitespace
  | _, .gobbleblanklines => Gradebook.gobbleblanklines
  | _, .nextchar => Gradebook.nextchar
  | _, .skipline => do
    Gradebook.flushtoken
    fun s =>
      match skipLine s.input with
      | none => .error .fatal
      | some input => .ok ((), 0, { s with input := input })
  | _, .advancetoken => Gradebook.advancetoken
  | _, .advanceeol => Gradebook.advanceeol
  | _, .previousfile => Gradebook.previousfile
  | _, .openFiles => Gradebook.openFiles
  | _, .openfile text => fun s => .ok ((), 0, { s with input := text, prev := s.input :: s.prev })
  | _, .expecteof => Gradebook.expecteof
  | _, .report => Reporting.report

/-- A part of the parser. -/
abbrev Parser := Script Op Stop

namespace Parser

open Script (call)

/-! ## Tokens -/

/-- `if(!istoken()) advancetoken();` -/
def needtoken : Parser Unit := do
  if ← call .istoken then pure () else call .advancetoken

/-- `checktoken` -/
def checktoken (key : Str) : Parser Bool := do
  needtoken
  let token ← call .tokenText
  if token ≠ [] ∧ cstr token = key then
    call .flushtoken
    return true
  else return false

/-- `expecttoken` -/
def expecttoken (key : Str) : Parser Unit := do
  needtoken
  let token ← call .tokenText
  if token ≠ [] ∧ cstr token = key then call .flushtoken else call .report

/-- `expectnewline` -/
def expectnewline : Parser Unit := do
  call .gobblewhitespace
  let c ← call .nextchar
  if c = 10 then call .gobbleblanklines
  else
    call .report
    call .skipline

/-- `pushfile`; `files` are the files that can be opened. -/
def pushfile (files : Str → Option Str) : Parser Unit := do
  call .advanceeol
  let n ← call .tokenText
  if n = [] then call .report
  call .flushtoken
  expectnewline
  match files (cstr n) with
  | none => Script.stop .fatal
  | some text => call (.openfile text)
  call .gobbleblanklines

/-! ## Words and numbers -/

/-- `readid`, `readsurname` and `readatype` -/
def readword : Parser Str := do
  needtoken
  let token ← call .tokenText
  if token = [] then call .report
  call .flushtoken
  return cstr token

/-- `readname` -/
def readname : Parser Str := do
  call .advanceeol
  let token ← call .tokenText
  if token = [] then call .report
  call .flushtoken
  expectnewline
  return cstr token

/-- `istoken() && sscanf(tokenptr, "%f", &f) == 1`, and then `flushtoken` -/
def scantoken : Parser (Option Binary32) := do
  let token ← call .tokenText
  match if token = [] then none else scanFloat (cstr token) with
  | none => return none
  | some f =>
    call .flushtoken
    return some f

/-- A number, or an error and a default. -/
def readfloat (default : Binary32) : Parser Binary32 := do
  match ← scantoken with
  | some f => return f
  | none =>
    call .report
    return default

/-! ## Assignments -/

/-- `readweight` -/
def readweight (a : Assignment) : Parser Assignment := do
  call .advancetoken
  match ← scantoken with
  | some f => return { a with weight := some f }
  | none =>
    call .report
    return { a with weight := none }

/-- `readmax` -/
def readmax (a : Assignment) : Parser Assignment := do
  call .advancetoken
  match ← scantoken with
  | some f => return { a with max := f }
  | none =>
    call .report
    return a

/-- The loop of `readnorm` -/
def readnorm (found : Bool) (a : Assignment) : ℕ → Parser Assignment
  | 0 => Script.stop .fuel
  | fuel + 1 => do
    if ← checktoken Key.RAW then
      readnorm true { a with npolicy := .raw } fuel
    else if ← checktoken Key.STDLINEAR then
      readnorm true { a with npolicy := .linear (.finite 0) (.finite 1) } fuel
    else if ← checktoken Key.GENLINEAR then
      call .advancetoken
      let mean ← readfloat (.finite 0)
      call .advancetoken
      let stddev ← readfloat (.finite 1)
      readnorm true { a with npolicy := .linear mean stddev } fuel
    else if ← checktoken Key.QUANTILE then
      readnorm true { a with npolicy := .quantile } fuel
    else if ← checktoken Key.SCALE then
      call .advancetoken
      let scale ← readfloat (.finite 0)
      readnorm true { a with npolicy := .scale scale } fuel
    else if ← checktoken Key.BYCLASS then
      readnorm true { a with ngroup := .byClass } fuel
    else if ← checktoken Key.BYSECTION then
      readnorm true { a with ngroup := .bySection } fuel
    else if found then return a
    else
      call .report
      return { a with npolicy := .raw, ngroup := .byClass }

/-- The loop of `readassignments` -/
def readclauses (a : Assignment) : ℕ → Parser Assignment
  | 0 => Script.stop .fuel
  | fuel + 1 => do
    if ← checktoken Key.WEIGHT then
      let a ← readweight a
      expectnewline
      readclauses a fuel
    else if ← checktoken Key.NORMALIZE then
      let a ← readnorm false a fuel
      expectnewline
      readclauses a fuel
    else if ← checktoken Key.MAXIMUM then
      let a ← readmax a
      expectnewline
      readclauses a fuel
    else return a

/-- `readassignments` -/
def readassignments : ℕ → Parser (List Assignment)
  | 0 => Script.stop .fuel
  | fuel + 1 => do
    if ← checktoken Key.ASSIGNMENT then
      let name ← readword
      let atype ← readword
      expectnewline
      let a ← readclauses ⟨name, atype, none, .finite 0, .raw, .byClass⟩ fuel
      let rest ← readassignments fuel
      return a :: rest
    else return []

/-! ## Scores -/

/-- The rest of the line behind a substitution. -/
def readcode : Parser Str := do
  call .advanceeol
  let token ← call .tokenText
  call .flushtoken
  return cstr token

/-- `readgrade` -/
def readgrade (ap : Assignment) : Parser Grade := do
  if ← checktoken Key.USERAW then
    needtoken
    let f ← readfloat (.finite 0)
    let code ← readcode
    return .useRaw f code
  else if ← checktoken Key.USENORM then
    needtoken
    match ← scantoken with
    | some f =>
      if normInRange ap f then pure () else call .report
      let code ← readcode
      return .useNorm f code
    | none =>
      call .report
      let code ← readcode
      return .useNorm (.finite 0) code
  else if ← checktoken Key.USELIKEAVG then
    let code ← readcode
    return .useLikeAvg code
  else if ← checktoken Key.USECLASSAVG then
    let code ← readcode
    return .useClassAvg code
  else
    needtoken
    let f ← readfloat (.finite 0)
    return .valid f

/-- A score up to the end of its line. -/
def readscore (a : List Assignment) : Parser Score := do
  needtoken
  let token ← call .tokenText
  if token = [] then Script.stop .fatal
  else
    match findAssignment a (cstr token) with
    | none => Script.stop .fatal
    | some (ap, i) =>
      call .flushtoken
      let grade ← readgrade ap
      return ⟨i, grade⟩

/-- `readscores` -/
def readscores (a : List Assignment) : ℕ → Parser (List Score)
  | 0 => Script.stop .fuel
  | fuel + 1 => do
    if ← checktoken Key.SCORE then
      let s ← readscore a
      expectnewline
      let rest ← readscores a fuel
      return s :: rest
    else return []

/-! ## Students and sections -/

/-- `readstudents` -/
def readstudents (a : List Assignment) : ℕ → Parser (List Student)
  | 0 => Script.stop .fuel
  | fuel + 1 => do
    if ← checktoken Key.STUDENT then
      let id ← readword
      let surname ← readword
      let name ← readname
      let rawscores ← readscores a fuel
      let rest ← readstudents a fuel
      return ⟨id, surname, name, rawscores⟩ :: rest
    else return []

/-- `readprofessor` and `readassistant` -/
def readperson (key : Str) : Parser (Option Person) := do
  if ← checktoken key then
    let surname ← readword
    let name ← readname
    return some ⟨surname, name⟩
  else return none

/-- The loop at the start of `readsections` -/
def nexttoken : ℕ → Parser Bool
  | 0 => Script.stop .fuel
  | files + 1 => do
    if ← call .istoken then return true
    call .advancetoken
    if ← call .istoken then return true
    if files = 0 then return false
    call .previousfile
    nexttoken files

/-- `readsections` -/
def readsections (files : Str → Option Str) (a : List Assignment) : ℕ → Parser (List Section)
  | 0 => Script.stop .fuel
  | fuel + 1 => do
    let opened ← call .openFiles
    if ← nexttoken opened then
      if ← checktoken Key.FILE then
        pushfile files
        readsections files a fuel
      else if ← checktoken Key.SECTION then
        let name ← readname
        let assistant ← readperson Key.ASSISTANT
        let roster ← readstudents a fuel
        let rest ← readsections files a fuel
        return ⟨name, assistant, roster⟩ :: rest
      else return []
    else return []

/-! ## The course -/

/-- `readcourse` -/
def readcourse (files : Str → Option Str) (fuel : ℕ) : Parser Course := do
  expecttoken Key.COURSE
  let number ← readword
  let title ← readname
  let professor ← readperson Key.PROFESSOR
  let assignments ← readassignments fuel
  let sections ← readsections files assignments fuel
  return ⟨number, title, professor, assignments, sections⟩

/-- `readfile`, from the first character of the root on -/
def readroot (files : Str → Option Str) (fuel : ℕ) : Parser Course := do
  call .gobbleblanklines
  let c ← readcourse files fuel
  call .gobbleblanklines
  call .expecteof
  return c

/-! ## The readers -/

/-- The reader that a part of the parser is. -/
abbrev reader {α : Type} (x : Parser α) : Reader α := x.interp Op.reader

variable {key : Str} {files : Str → Option Str} {a : List Assignment} {ap : Assignment}

@[simp] theorem reader_needtoken : reader needtoken = Gradebook.needtoken := by
  simp only [needtoken, Gradebook.needtoken, Script.interp_bind, Script.interp_ite,
    Script.interp_call, Script.interp_pure, Op.reader]

@[simp] theorem reader_checktoken : reader (checktoken key) = Gradebook.checktoken key := by
  simp [checktoken, Gradebook.checktoken, Op.reader]

@[simp] theorem reader_expecttoken : reader (expecttoken key) = Gradebook.expecttoken key := by
  simp [expecttoken, Gradebook.expecttoken, Op.reader]

@[simp] theorem reader_expectnewline : reader expectnewline = Gradebook.expectnewline := by
  simp only [expectnewline, Gradebook.expectnewline, Script.interp_bind, Script.interp_ite,
    Script.interp_call, Op.reader] <;> rfl

@[simp] theorem reader_pushfile : reader (pushfile files) = Gradebook.pushfile files := by
  simp only [pushfile, Gradebook.pushfile, Script.interp_bind, Script.interp_ite,
    Script.interp_call, reader_expectnewline, Op.reader]
  refine bind_congr fun _ => bind_congr fun n => ?_
  cases files (cstr n) <;> simp <;> rfl

@[simp] theorem reader_readword : reader readword = Gradebook.readword := by
  simp [readword, Gradebook.readword, Op.reader]

@[simp] theorem reader_readname : reader readname = Gradebook.readname := by
  simp [readname, Gradebook.readname, Op.reader]

@[simp] theorem reader_scantoken : reader scantoken = Gradebook.scantoken := by
  simp only [scantoken, Gradebook.scantoken, Script.interp_bind, Script.interp_call, Op.reader]
  refine bind_congr fun token => ?_
  generalize (if token = [] then none else scanFloat (cstr token)) = scanned
  cases scanned <;> simp [Op.reader]

@[simp] theorem reader_readfloat (default : Binary32) :
    reader (readfloat default) = Gradebook.readfloat default := by
  simp only [readfloat, Gradebook.readfloat, Script.interp_bind, reader_scantoken]
  refine bind_congr fun f => ?_
  cases f <;> simp [Op.reader]

@[simp] theorem reader_readweight (a : Assignment) :
    reader (readweight a) = Gradebook.readweight a := by
  simp only [readweight, Gradebook.readweight, Script.interp_bind, Script.interp_call,
    reader_scantoken, Op.reader]
  refine bind_congr fun _ => bind_congr fun f => ?_
  cases f <;> simp [Op.reader]

@[simp] theorem reader_readmax (a : Assignment) : reader (readmax a) = Gradebook.readmax a := by
  simp only [readmax, Gradebook.readmax, Script.interp_bind, Script.interp_call,
    reader_scantoken, Op.reader]
  refine bind_congr fun _ => bind_congr fun f => ?_
  cases f <;> simp [Op.reader]

@[simp] theorem reader_readnorm (found : Bool) (a : Assignment) (fuel : ℕ) :
    reader (readnorm found a fuel) = Gradebook.readnorm found a fuel := by
  induction fuel generalizing found a with
  | zero => rfl
  | succ fuel ih => simp [readnorm, Gradebook.readnorm, ih, Op.reader]

@[simp] theorem reader_readclauses (a : Assignment) (fuel : ℕ) :
    reader (readclauses a fuel) = Gradebook.readclauses a fuel := by
  induction fuel generalizing a with
  | zero => rfl
  | succ fuel ih => simp [readclauses, Gradebook.readclauses, ih]

@[simp] theorem reader_readassignments (fuel : ℕ) :
    reader (readassignments fuel) = Gradebook.readassignments fuel := by
  induction fuel with
  | zero => rfl
  | succ fuel ih =>
    simp [readassignments, Gradebook.readassignments, readid, readatype, ih]

@[simp] theorem reader_readcode : reader readcode = Gradebook.readcode := by
  simp [readcode, Gradebook.readcode, Op.reader]

@[simp] theorem reader_readgrade : reader (readgrade ap) = Gradebook.readgrade ap := by
  simp only [readgrade, Gradebook.readgrade, Script.interp_bind, Script.interp_ite,
    Script.interp_pure, reader_checktoken, reader_needtoken, reader_readfloat, reader_readcode,
    reader_scantoken]
  -- the branches differ in the check of a normalized score only
  refine bind_congr fun raw => if_congr Iff.rfl rfl ?_
  refine bind_congr fun norm => if_congr Iff.rfl ?_ rfl
  refine bind_congr fun _ => bind_congr fun f => ?_
  cases f <;> simp [Op.reader]

@[simp] theorem reader_readscore : reader (readscore a) = Gradebook.readscore a := by
  simp only [readscore, Gradebook.readscore, Script.interp_bind, Script.interp_call,
    Script.interp_ite, reader_needtoken, Op.reader]
  refine bind_congr fun _ => bind_congr fun token => ?_
  cases findAssignment a (cstr token) <;> simp [Op.reader]

@[simp] theorem reader_readscores (fuel : ℕ) :
    reader (readscores a fuel) = Gradebook.readscores a fuel := by
  induction fuel with
  | zero => rfl
  | succ fuel ih => simp [readscores, Gradebook.readscores, ih]

@[simp] theorem reader_readstudents (fuel : ℕ) :
    reader (readstudents a fuel) = Gradebook.readstudents a fuel := by
  induction fuel with
  | zero => rfl
  | succ fuel ih => simp [readstudents, Gradebook.readstudents, readid, readsurname, ih]

@[simp] theorem reader_readperson : reader (readperson key) = Gradebook.readperson key := by
  simp [readperson, Gradebook.readperson, readsurname]

@[simp] theorem reader_nexttoken (opened : ℕ) :
    reader (nexttoken opened) = Gradebook.nexttoken opened := by
  induction opened with
  | zero => rfl
  | succ opened ih => simp [nexttoken, Gradebook.nexttoken, Op.reader, ih]

@[simp] theorem reader_readsections (fuel : ℕ) :
    reader (readsections files a fuel) = Gradebook.readsections files a fuel := by
  induction fuel with
  | zero => rfl
  | succ fuel ih =>
    simp [readsections, Gradebook.readsections, readassistant, Op.reader, ih]

@[simp] theorem reader_readcourse (fuel : ℕ) :
    reader (readcourse files fuel) = Gradebook.readcourse files fuel := by
  simp [readcourse, Gradebook.readcourse, readid, readprofessor]

/-- The scripts are the readers. -/
theorem reader_readroot (fuel : ℕ) :
    reader (readroot files fuel) = Gradebook.readroot files fuel := by
  simp [readroot, Gradebook.readroot, Op.reader]

end Parser

end CLanguage.Gradebook
