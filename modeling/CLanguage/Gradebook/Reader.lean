import CLanguage.Gradebook.Course
import CLanguage.Lib.Reporting

/-!
# Reading a database

The functions of the reader, on a state that consists of the token buffer and of
what is left of the open files. `getc` delivers into a `char`, so that the byte 255
cannot be told from the end of a file. `error` counts and goes on, `fatal` stops;
so does a token that does not fit into its buffer. Recursions take fuel.

The texts of the messages, the warnings and the line numbers, which only appear in
them, are left out.
-/

namespace CLanguage.Gradebook

open Lib Lib.Reporting Grades

/-- What ends a run early. -/
inductive Stop
  | fatal
  | overrun
  | fuel
  deriving DecidableEq

/-- The characters between `tokenptr` and `tokenend`, the rest of the file that is read and the rests
of the files that wait for it. -/
structure Input where
  token : Str
  input : Str
  prev : List Str
  deriving DecidableEq

abbrev Reader := Reporting Stop Input

/-- The characters of a buffer up to its null byte. -/
def cstr (token : Str) : Str := token.takeWhile (· ≠ 0)

/-! ## Characters -/

/-- `getc` into a `char`; `none` is `EOF`. -/
def getc : Str → Option UInt8 × Str
  | [] => (none, [])
  | b :: input => if b = 255 then (none, input) else (some b, input)

/-- `ungetc` -/
def ungetc : Option UInt8 → Str → Str
  | none, input => input
  | some b, input => b :: input

/-- `iswhitespace` -/
def iswhitespace (b : UInt8) : Bool := b = 44 || b = 58 || b = 32 || b = 9 || b = 12

/-- The loop of `gobblewhitespace`. -/
def skipWhitespace : Str → Str
  | [] => []
  | b :: input =>
    if b = 255 then input
    else if iswhitespace b then skipWhitespace input
    else b :: input

/-- The characters up to the end of the line and with it, `none` at the end of the file. -/
def skipLine : Str → Option Str
  | [] => none
  | b :: input => if b = 255 then none else if b = 10 then some input else skipLine input

/-- The loop of `gobbleblanklines`. -/
def skipBlankLines : ℕ → Str → Except Stop Str
  | 0, _ => .error .fuel
  | fuel + 1, input =>
    let (c, rest) := getc input
    if c = some 35 then
      match skipLine rest with
      | none => .error .fatal
      | some rest => skipBlankLines fuel rest
    else
      let (c, rest) := getc (ungetc c rest)
      if c = some 10 then skipBlankLines fuel (skipWhitespace rest)
      else .ok (ungetc c rest)

/-- The characters of a token and what follows it. -/
def takeToken : Str → Str × Str
  | [] => ([], [])
  | b :: input =>
    if b = 255 then ([], input)
    else if iswhitespace b || b = 10 then ([], b :: input)
    else (b :: (takeToken input).1, (takeToken input).2)

/-- The characters before the end of the line and what follows them, `none` at the end of the
file. -/
def takeLine : Str → Option (Str × Str)
  | [] => none
  | b :: input =>
    if b = 255 then none
    else if b = 10 then some ([], b :: input)
    else (takeLine input).map fun r => (b :: r.1, r.2)

/-! ## Tokens -/

/-- `istoken` -/
def istoken : Reader Bool := fun s => .ok (s.token ≠ [], 0, s)

/-- The string at `tokenptr`. -/
def tokenText : Reader Str := fun s => .ok (s.token, 0, s)

/-- `flushtoken` -/
def flushtoken : Reader Unit := fun s => .ok ((), 0, { s with token := [] })

/-- `gobblewhitespace` -/
def gobblewhitespace : Reader Unit := fun s =>
  if s.token ≠ [] then .ok ((), 0, s)
  else .ok ((), 0, { s with input := skipWhitespace s.input })

/-- `gobbleblanklines` -/
def gobbleblanklines : Reader Unit := fun s =>
  if s.token ≠ [] then .ok ((), 0, s)
  else
    match skipBlankLines (s.input.length + 1) s.input with
    | .error e => .error e
    | .ok input => .ok ((), 0, { s with input := input })

/-- `nextchar` -/
def nextchar : Reader UInt8 := fun s =>
  match s.token with
  | b :: token => .ok (b, 0, { s with token := token })
  | [] =>
    match getc s.input with
    | (none, _) => .error .fatal
    | (some b, input) => .ok (b, 0, { s with input := input })

/-- The buffer has 64 characters, one of them for the null byte. -/
def fillToken (token input : Str) : Reader Unit := fun s =>
  if token.length < 64 then .ok ((), 0, { s with token := token ++ [0], input := input })
  else .error .overrun

/-- `advancetoken` -/
def advancetoken : Reader Unit := do
  if ← istoken then report
  flushtoken
  gobblewhitespace
  fun s =>
    let (token, input) := takeToken s.input
    if token = [] then .ok ((), 0, { s with input := input }) else fillToken token input s

/-- `advanceeol` -/
def advanceeol : Reader Unit := do
  if ← istoken then report
  flushtoken
  gobblewhitespace
  fun s =>
    match takeLine s.input with
    | none => .error .fatal
    | some (token, input) => fillToken token input s

/-- `if(!istoken()) advancetoken();` -/
def needtoken : Reader Unit := do
  if ← istoken then pure () else advancetoken

/-- `checktoken` -/
def checktoken (key : Str) : Reader Bool := do
  needtoken
  let token ← tokenText
  if token ≠ [] ∧ cstr token = key then
    flushtoken
    return true
  else return false

/-- `expecttoken` -/
def expecttoken (key : Str) : Reader Unit := do
  needtoken
  let token ← tokenText
  if token ≠ [] ∧ cstr token = key then flushtoken else report

/-- `expectnewline` -/
def expectnewline : Reader Unit := do
  gobblewhitespace
  let c ← nextchar
  if c = 10 then gobbleblanklines
  else
    report
    flushtoken
    fun s =>
      match skipLine s.input with
      | none => .error .fatal
      | some input => .ok ((), 0, { s with input := input })

/-! ## The stack of files -/

/-- `previousfile` -/
def previousfile : Reader Unit := fun s =>
  match s.prev with
  | [] => .error .fatal
  | input :: prev => .ok ((), 0, { s with input := input, prev := prev })

/-- `expecteof` -/
def expecteof : Reader Unit := fun s =>
  let (c, input) := if s.token = [] then getc s.input else (some 0, s.input)
  if s.token = [] ∧ c = none ∧ s.prev = [] then .ok ((), 0, { s with input := input })
  else .ok ((), 1, ⟨[], (s.input :: s.prev).getLastD [], []⟩)

/-- `pushfile`; `files` are the files that can be opened. -/
def pushfile (files : Str → Option Str) : Reader Unit := do
  advanceeol
  let n ← tokenText
  if n = [] then report
  flushtoken
  expectnewline
  match files (cstr n) with
  | none => stop .fatal
  | some text => fun s => .ok ((), 0, { s with input := text, prev := s.input :: s.prev })
  gobbleblanklines

/-! ## Words and numbers -/

/-- `readid`, `readsurname` and `readatype`, which differ in their messages. -/
def readword : Reader Str := do
  needtoken
  let token ← tokenText
  if token = [] then report
  flushtoken
  return cstr token

/-- `readid` -/
def readid : Reader Str := readword

/-- `readsurname` -/
def readsurname : Reader Str := readword

/-- `readatype` -/
def readatype : Reader Str := readword

/-- `readname` -/
def readname : Reader Str := do
  advanceeol
  let token ← tokenText
  if token = [] then report
  flushtoken
  expectnewline
  return cstr token

/-- `istoken() && sscanf(tokenptr, "%f", &f) == 1`, where the token is flushed if this holds. -/
def scantoken : Reader (Option Binary32) := do
  let token ← tokenText
  match if token = [] then none else scanFloat (cstr token) with
  | none => return none
  | some f =>
    flushtoken
    return some f

/-- A number, or an error and a default. -/
def readfloat (default : Binary32) : Reader Binary32 := do
  match ← scantoken with
  | some f => return f
  | none =>
    report
    return default

end CLanguage.Gradebook
