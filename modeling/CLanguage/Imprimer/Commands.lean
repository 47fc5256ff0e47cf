import Mathlib.Algebra.Group.Nat.Defs
import Mathlib.Data.List.Basic

/-!
# The printer spooler

The tables of the program and the commands that change them. There are two command
loops: one reads a command file (`-i`), one reads at the prompt. The declarations
(`type`, `printer`, `conversion`) and `print` have the same text in both and are one
definition each; the two loops differ in the other commands, in `fileCommand` and
`command`.

What is printed, the times of a job and the scratch file of the prompt are left out.
The tables have fixed sizes that the code does not check: a `Fault` is a write or
read outside of an array or a buffer.
-/

namespace CLanguage.Imprimer

/-- A C string without its terminator. -/
abbrev Str := List Char

scoped instance lawfulBEqStr : LawfulBEq Str := inferInstance

/-- `PRINTER` -/
structure Printer where
  id : ℕ
  name : Str
  type : Str
  enabled : Bool
  busy : Bool
  deriving DecidableEq, Repr

/-- `JOB_STATUS` -/
inductive JobStatus
  | queued
  | running
  | paused
  | completed
  | aborted
  deriving DecidableEq, Repr

/-- `JOB`. The chosen printer is a place in the table of printers. -/
structure Job where
  jobid : ℕ
  status : JobStatus
  fileName : Str
  fileType : Str
  eligiblePrinters : UInt32
  chosenPrinter : Option ℕ
  deriving DecidableEq, Repr

/-- A place of `conv_name`, `conv_src` and `conv_dest`. -/
structure Conversion where
  name : Str
  src : Str
  dest : Str
  deriving DecidableEq, Repr

/-- The tables that `main` keeps. -/
structure Tables where
  types : List Str
  conversions : List Conversion
  printers : List Printer
  jobs : List Job
  deriving DecidableEq, Repr

/-- The program starts with empty tables. -/
def Tables.initial : Tables := ⟨[], [], [], []⟩

/-- Undefined behaviour: an array or a buffer is too small, or `pow` gives a number that
`uint32_t` does not hold. -/
inductive Fault
  | words
  | text
  | types
  | conversions
  | printers
  | jobs
  | fileName
  | printerSet
  deriving DecidableEq, Repr

/-- How the body of a command is left. -/
inductive Flow
  | fallThrough
  | continue
  | break
  | exit
  deriving DecidableEq, Repr

/-- A run of the body of a command. -/
abbrev Outcome := Except Fault (Tables × Flow)

/-- `MAX_PRINTERS` -/
def maxPrinters : ℕ := 32

/-- `MAX_JOBS` -/
def maxJobs : ℕ := 1024

/-- `ANY_PRINTER` -/
def anyPrinter : UInt32 := 0xffffffff

/-- The words that `strtok` finds. -/
def strtok (delimiter : Char) (s : Str) : List Str :=
  (s.splitOn delimiter).filter fun word => !word.isEmpty

/-- A copy into a buffer of 100 characters. -/
def strcpy (s : Str) : Except Fault Str :=
  if s.length < 100 then .ok s else .error .text

/-- A place of a table, which has `size` places. -/
def push {α : Type} (size : ℕ) (fault : Fault) (table : List α) (a : α) :
    Except Fault (List α) :=
  if table.length < size then .ok (table ++ [a]) else .error fault

/-! ### Declarations -/

namespace Tables

/-- `type file_type` -/
def type (s : Tables) (fileType : Str) : Outcome :=
  if fileType ∈ s.types then .ok (s, .fallThrough)
  else do
    let fileType ← strcpy fileType
    let types ← push 100 .types s.types fileType
    return ({ s with types := types }, .fallThrough)

/-- `printer printer_name file_type`. A printer too many is reported and stored all the same. -/
def printer (s : Tables) (name fileType : Str) : Outcome :=
  if s.printers.any (·.name = name) then .ok (s, .continue)
  else if fileType ∉ s.types then .ok (s, .continue)
  else do
    let name ← strcpy name
    let fileType ← strcpy fileType
    let printers ← push maxPrinters .printers s.printers
      { id := s.printers.length, name := name, type := fileType, enabled := false, busy := false }
    return ({ s with printers := printers }, .fallThrough)

/-- The program of a conversion with its arguments, joined in a buffer of 100 characters. -/
def conversionName : List Str → Except Fault Str
  | [program] => .ok program
  | words => strcpy ([' '].intercalate words)

/-- `conversion file_type1 file_type2 conversion_program [arg1 arg2 ...]`. Types that are not
declared are reported and stored all the same. -/
def conversion (s : Tables) (src dest : Str) (program : List Str) : Outcome := do
  let name ← conversionName program
  if s.conversions.any fun c => c.name = name ∨ (c.src = src ∧ c.dest = dest) then
    return (s, .continue)
  else
    let name ← strcpy name
    let src ← strcpy src
    let dest ← strcpy dest
    let conversions ← push 100 .conversions s.conversions ⟨name, src, dest⟩
    return ({ s with conversions := conversions }, .fallThrough)

/-! ### Print jobs -/

/-- The set of the printers with these names and how many of the names were found. -/
def printerSet (printers : List Printer) : List Str → ℕ → ℕ → Except Fault (ℕ × ℕ)
  | [], temp, count => .ok (temp, count)
  | name :: names, temp, count =>
    match printers.find? (·.name = name) with
    | none => printerSet printers names temp count
    | some p =>
      if temp + 2 ^ p.id < 2 ^ 32 then
        printerSet printers names (temp + 2 ^ p.id) (count + 1)
      else .error .printerSet

/-- The eligible printers of a job, unless a name is not that of a printer. -/
def eligible (s : Tables) : List Str → Except Fault (Option UInt32)
  | [] => .ok (some anyPrinter)
  | names => do
    let (temp, count) ← printerSet s.printers names 0 0
    return if count = names.length then some (UInt32.ofNat temp) else none

/-- The last part of a file name. There is room for ten, and there has to be one unless there is no
type to compare it with. -/
def fileType (types : List Str) (fileName : Str) : Except Fault Str :=
  let parts := strtok '.' fileName
  if parts.length ≤ 10 then
    match parts.getLast? with
    | some part => .ok part
    | none => if types = [] then .ok [] else .error .fileName
  else .error .fileName

/-- `print file_name [printer1 printer2 ...]` -/
def print (s : Tables) (file : Str) (names : List Str) : Outcome := do
  match ← s.eligible names with
  | none => return (s, .continue)
  | some eligible =>
    let fileName ← strcpy file
    let type ← fileType s.types file
    if type ∈ s.types then
      let jobs ← push maxJobs .jobs s.jobs
        { jobid := s.jobs.length, status := .queued, fileName := fileName, fileType := type,
          eligiblePrinters := eligible, chosenPrinter := none }
      return ({ s with jobs := jobs }, .fallThrough)
    else return (s, .continue)

/-- The loop of `cancel` on one job. -/
def cancelJob (name : Str) (j : Job) : Job :=
  if j.fileName = name ∧ j.status = .queued then { j with status := .aborted } else j

/-- `cancel`, which takes a file name. It sets a time of the job behind the last one. -/
def cancel (s : Tables) (name : Str) : Outcome :=
  if s.jobs.any (fun j => j.fileName = name ∧ j.status = .queued) ∧ maxJobs ≤ s.jobs.length then
    .error .jobs
  else .ok ({ s with jobs := s.jobs.map (cancelJob name) }, .fallThrough)

/-! ### Printers -/

/-- The loop of `enable` and of `disable`. It stops at a printer of the name that is in the wanted
state already. -/
def setEnabled (enabled : Bool) (name : Str) : List Printer → List Printer
  | [] => []
  | p :: printers =>
    if p.name = name then
      if p.enabled = enabled then p :: printers
      else { p with enabled := enabled } :: setEnabled enabled name printers
    else p :: setEnabled enabled name printers

/-- `enable printer_name` -/
def enable (s : Tables) (name : Str) : Outcome :=
  .ok ({ s with printers := setEnabled true name s.printers }, .fallThrough)

/-- `disable printer_name` -/
def disable (s : Tables) (name : Str) : Outcome :=
  .ok ({ s with printers := setEnabled false name s.printers }, .fallThrough)

end Tables

/-! ### Commands -/

/-- The commands, with their operands. -/
inductive Command
  | help
  | quit
  | type (fileType : Str)
  | printer (name fileType : Str)
  | conversion (src dest : Str) (program : List Str)
  | printers
  | jobs
  | print (file : Str) (names : List Str)
  | cancel (name : Str)
  | pause (name : Str)
  | resume (name : Str)
  | disable (name : Str)
  | enable (name : Str)
  | invalid
  deriving DecidableEq, Repr

/-- The command that a line of words gives: its name has to match and its number of words. -/
def Command.ofWords (cmd : Str) : List Str → Command
  | [] =>
    if cmd = "help".toList then .help
    else if cmd = "quit".toList then .quit
    else if cmd = "printers".toList then .printers
    else if cmd = "jobs".toList then .jobs
    else .invalid
  | [x] =>
    if cmd = "type".toList then .type x
    else if cmd = "print".toList then .print x []
    else if cmd = "cancel".toList then .cancel x
    else if cmd = "pause".toList then .pause x
    else if cmd = "resume".toList then .resume x
    else if cmd = "disable".toList then .disable x
    else if cmd = "enable".toList then .enable x
    else .invalid
  | [x, y] =>
    if cmd = "printer".toList then .printer x y
    else if cmd = "print".toList then .print x [y]
    else .invalid
  | x :: y :: words =>
    if cmd = "conversion".toList then .conversion x y words
    else if cmd = "print".toList then .print x (y :: words)
    else .invalid

namespace Tables

/-- The body of the loop at the prompt, up to the dispatch. -/
def command (s : Tables) : Command → Outcome
  | .help | .printers | .jobs | .invalid => .ok (s, .fallThrough)
  | .quit => .ok (s, .break)
  | .type fileType => s.type fileType
  | .printer name fileType => s.printer name fileType
  | .conversion src dest program => s.conversion src dest program
  | .print file names => s.print file names
  | .cancel name => s.cancel name
  | .pause _ | .resume _ => .ok (s, .break)
  | .disable name => s.disable name
  | .enable name => s.enable name

/-- The body of the loop over a command file. -/
def fileCommand (s : Tables) : Command → Outcome
  | .help | .printers | .jobs | .invalid => .ok (s, .fallThrough)
  | .quit => .ok (s, .exit)
  | .type fileType => s.type fileType
  | .printer name fileType => s.printer name fileType
  | .conversion src dest program => s.conversion src dest program
  | .print file names => s.print file names
  | .cancel _ | .pause _ | .resume _ | .disable _ | .enable _ => .ok (s, .break)

/-- A line, cut into words. There is room for 40. A line without a word is skipped. -/
def line (body : Tables → Command → Outcome) (s : Tables) (input : Str) : Outcome :=
  match strtok ' ' input with
  | [] => .ok (s, .continue)
  | cmd :: words =>
    if words.length < 40 then body s (.ofWords cmd words) else .error .words

/-! ### Dispatch -/

/-- The set that holds the printer alone, `printertest`. -/
def bit (id : ℕ) : UInt32 := UInt32.ofNat (2 ^ id)

end Tables

/-- The printer prints files of the job's type and is one of those named for it. -/
def Printer.Suits (p : Printer) (j : Job) : Prop :=
  j.fileType = p.type ∧ j.eligiblePrinters &&& Tables.bit p.id ≠ 0

instance (p : Printer) (j : Job) : Decidable (p.Suits j) :=
  inferInstanceAs (Decidable (_ ∧ _))

/-- The test of the dispatch. -/
def Printer.Takes (p : Printer) (j : Job) : Prop :=
  p.Suits j ∧ j.status = .queued ∧ p.busy = false ∧ p.enabled = true

instance (p : Printer) (j : Job) : Decidable (p.Takes j) :=
  inferInstanceAs (Decidable (_ ∧ _))

/-- The printer starts to print. -/
def Printer.start (p : Printer) : Printer := { p with busy := true }

/-- The job is printed on the printer at place `k`. -/
def Job.start (j : Job) (k : ℕ) : Job := { j with status := .running, chosenPrinter := some k }

namespace Tables

/-- The loop over the printers for the job at place `i`. It is left at the first printer that takes
the job. -/
def dispatchJob (s : Tables) (i : ℕ) : Tables :=
  match s.jobs[i]? with
  | none => s
  | some j =>
    match s.printers.findIdx? (fun p => decide (p.Takes j)) with
    | none => s
    | some k =>
      { s with printers := s.printers.modify k Printer.start, jobs := s.jobs.set i (j.start k) }

/-- The dispatch, which follows a command that is not left early. -/
def dispatch (s : Tables) : Tables := (List.range s.jobs.length).foldl dispatchJob s

/-! ### The two loops -/

/-- The loop at the prompt over the lines that are typed. -/
def typeLines : Tables → List Str → Except Fault Tables
  | s, [] => .ok s
  | s, input :: lines => do
    match ← line command s input with
    | (s, .fallThrough) => typeLines s.dispatch lines
    | (s, .continue) => typeLines s lines
    | (s, .break) => .ok s
    | (s, .exit) => .ok s

/-- The loop over a command file, with the lines that it leaves. -/
def readLines : Tables → List Str → Except Fault (Tables × List Str)
  | s, [] => .ok (s, [])
  | s, input :: lines => do
    match ← line fileCommand s input with
    | (s, .fallThrough) => readLines s lines
    | (s, .continue) => readLines s lines
    | (s, .break) => .ok (s, input :: lines)
    | (s, .exit) => .ok (s, [])

end Tables

end CLanguage.Imprimer
