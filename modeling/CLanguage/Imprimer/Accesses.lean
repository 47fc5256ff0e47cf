import CLanguage.Imprimer.Machine
import Mathlib.Data.Int.Notation

/-!
# Accesses to the arrays

The arrays of `main` have fixed sizes, and its commands read and write them at indices
that come from the input. `Machine.accesses` lists the accesses of a step, in the order
of the source; an entry that is used several times in one round of a loop is listed
once. The accesses of a command whose strings do not fit into their buffers are those
that it makes if there is more room behind them.

Reading the last part of a file name that has none, and the status line of the dispatch,
which shows the printer at the place of the job, go astray besides the tables that are
full. `Fits` are the conditions on the step under which nothing goes astray.
-/

namespace CLanguage.Imprimer

open CLanguage.Lib

/-- The arrays of `main`. -/
inductive Buffer
  | types
  | convName
  | convSrc
  | convDest
  | printers
  | jobs
  /-- the words of a line -/
  | array
  /-- the parts of a file name -/
  | jobarray
  deriving DecidableEq, Repr

/-- The declared size. -/
def Buffer.size : Buffer → ℕ
  | .types | .convName | .convSrc | .convDest => 100
  | .printers => maxPrinters
  | .jobs => maxJobs
  | .array => 40
  | .jobarray => 10

/-- An access to an array of which the first `filled` entries have been stored. -/
structure Access where
  buffer : Buffer
  index : ℤ
  write : Bool
  filled : ℕ
  deriving DecidableEq, Repr

/-- The access is inside the array, and an entry that is read has been stored. -/
def Access.Ok (a : Access) : Prop :=
  0 ≤ a.index ∧ a.index < a.buffer.size ∧ (a.write = false → a.index < a.filled)

instance (a : Access) : Decidable a.Ok := inferInstanceAs (Decidable (_ ∧ _ ∧ _))

/-- The entry at `i` is read. -/
def Access.read (b : Buffer) (filled : ℕ) (i : ℤ) : Access := ⟨b, i, false, filled⟩

/-- The entry at `i` is written. -/
def Access.put (b : Buffer) (filled : ℕ) (i : ℕ) : Access := ⟨b, i, true, filled⟩

/-- A loop that fills an array with `n` entries. -/
def fill (b : Buffer) (n : ℕ) : List Access := (List.range n).map fun i => .put b i i

/-- The accesses of `n` rounds of a loop from round `i` on. A round with `stop` is the last one. -/
def rounds (body : ℕ → List Access) (stop : ℕ → Bool) : ℕ → ℕ → List Access
  | _, 0 => []
  | i, n + 1 => body i ++ if stop i then [] else rounds body stop (i + 1) n

namespace Tables

variable (s : Tables)

/-- The loop that looks for a type, which is the word at place `word` of `h` words. -/
def findType (type : Str) (h word : ℕ) : List Access :=
  rounds (fun i => [.read .types s.types.length i, .read .array h word])
    (fun i => s.types[i]? = some type) 0 s.types.length

/-- `type` -/
def typeAccesses (type : Str) : List Access :=
  s.findType type 2 1 ++
    if type ∈ s.types then []
    else [.read .array 2 1, .put .types s.types.length s.types.length]

/-- The loop that looks for a printer, which is the word at place `word` of `h` words. -/
def findPrinter (name : Str) (h word : ℕ) : List Access :=
  rounds (fun i => [.read .printers s.printers.length i, .read .array h word])
    (fun i => s.printers[i]?.map Printer.name = some name) 0 s.printers.length

/-- `printer` -/
def printerAccesses (name type : Str) : List Access :=
  let n := s.printers.length
  s.findPrinter name 3 1 ++
    if s.printers.any (·.name = name) then []
    else s.findType type 3 2 ++
      if type ∉ s.types then []
      else [.put .printers n n, .read .array 3 1, .read .array 3 2,
        -- the printer is connected, and its status is shown
        .read .printers (n + 1) n]

/-- The name of the conversion is compared, which is the word at place 3 if it has no arguments. -/
def findConversion (src dest : Str) (program : List Str) : List Access :=
  let h := 3 + program.length
  let n := s.conversions.length
  rounds
    (fun i => [.read .convName n i] ++ (if h = 4 then [.read .array h 3] else []) ++
      if s.conversions[i]?.map Conversion.name = some ([' '].intercalate program) then []
      else [.read .convSrc n i, .read .array h 1] ++
        if s.conversions[i]?.map Conversion.src = some src then
          [.read .convDest n i, .read .array h 2]
        else [])
    (fun i => s.conversions[i]?.any fun c =>
      c.name = [' '].intercalate program ∨ (c.src = src ∧ c.dest = dest)) 0 n

/-- The command finds the program or a conversion between the types. -/
def Conversed (src dest : Str) (program : List Str) : Prop :=
  ∃ c ∈ s.conversions, c.name = [' '].intercalate program ∨ (c.src = src ∧ c.dest = dest)

instance (src dest : Str) (program : List Str) : Decidable (s.Conversed src dest program) :=
  inferInstanceAs (Decidable (∃ c ∈ s.conversions, _))

/-- `conversion` -/
def conversionAccesses (src dest : Str) (program : List Str) : List Access :=
  let h := 3 + program.length
  let n := s.conversions.length
  s.findType dest h 2 ++ s.findType src h 1 ++
    (if h = 4 then [] else (List.range program.length).map fun (i : ℕ) => .read .array h (3 + i)) ++
    s.findConversion src dest program ++
    if s.Conversed src dest program then []
    else (if h = 4 then [.read .array h 3] else []) ++
      [.put .convName n n, .read .array h 1, .put .convSrc n n, .read .array h 2,
        .put .convDest n n]

/-- `print` behind the printers: the file name is taken apart and its type looked for. -/
def fileAccesses (file : Str) (h : ℕ) : List Access :=
  let parts := strtok '.' file
  let q := parts.length
  let n := s.jobs.length
  [.read .array h 1] ++ fill .jobarray q ++
    rounds (fun i => [.read .jobarray q (q - 1), .read .types s.types.length i])
      (fun i => s.types[i]? = parts.getLast?) 0 s.types.length ++
    if ∃ type ∈ s.types, parts.getLast? = some type then
      -- the job is filled in, and its status is shown
      [.put .jobs n n, .read .jobarray q (q - 1), .read .jobs (n + 1) n]
    else []

/-- `print` -/
def printAccesses (file : Str) (names : List Str) : List Access :=
  let h := 2 + names.length
  (names.zipIdx.flatMap fun name => s.findPrinter name.1 h (2 + name.2)) ++
    if ∀ name ∈ names, name ∈ s.printers.map Printer.name then s.fileAccesses file h else []

/-- `cancel` -/
def cancelAccesses (name : Str) : List Access :=
  let n := s.jobs.length
  (List.range n).flatMap fun i =>
    [.read .jobs n i, .read .array 2 1] ++
      if s.jobs[i]?.any fun j => j.fileName = name ∧ j.status = .queued then
        [.put .jobs n i, .put .jobs n n]
      else []

/-- `disable` and `enable` -/
def setEnabledAccesses (enabled : Bool) (name : Str) : List Access :=
  let n := s.printers.length
  rounds
    (fun i => [.read .printers n i, .read .array 2 1] ++
      if s.printers[i]?.any fun p => p.name = name ∧ p.enabled ≠ enabled then
        [.put .printers n i, .read .printers n i]
      else [])
    (fun i => s.printers[i]?.any fun p => p.name = name ∧ p.enabled = enabled) 0 n

/-- The accesses of a command. -/
def commandAccesses : Command → List Access
  | .help | .quit | .pause _ | .resume _ | .invalid => []
  | .type type => s.typeAccesses type
  | .printer name type => s.printerAccesses name type
  | .conversion src dest program => s.conversionAccesses src dest program
  | .printers =>
    (List.range s.printers.length).map fun (i : ℕ) => .read .printers s.printers.length i
  | .jobs => (List.range s.jobs.length).map fun (i : ℕ) => .read .jobs s.jobs.length i
  | .print file names => s.printAccesses file names
  | .cancel name => s.cancelAccesses name
  | .disable name => s.setEnabledAccesses false name
  | .enable name => s.setEnabledAccesses true name

/-- The accesses of a line at the prompt. -/
def lineAccesses (input : Str) : List Access :=
  fill .array (strtok ' ' input).length ++
    match strtok ' ' input with
    | [] => []
    | cmd :: words => .read .array (words.length + 1) 0 :: s.commandAccesses (.ofWords cmd words)

/-- The printer at place `k` takes the job at place `i`. -/
def TakesAt (i k : ℕ) : Prop := ∃ j ∈ s.jobs[i]?, ∃ p ∈ s.printers[k]?, p.Takes j

instance (i k : ℕ) : Decidable (s.TakesAt i k) := inferInstanceAs (Decidable (∃ j ∈ s.jobs[i]?, _))

/-- The loop over the printers for the job at place `i`, at the printer at place `k`. -/
def dispatchRound (i k : ℕ) : List Access :=
  let n := s.printers.length
  [.read .jobs s.jobs.length i, .read .printers n k] ++
    if s.TakesAt i k then
      [.put .jobs s.jobs.length i, .put .printers n k,
        -- the status of the printer at the place of the job
        .read .printers n i, .read .jobs s.jobs.length i]
    else []

/-- The loop over the printers for the job at place `i`. -/
def dispatchAccesses (i : ℕ) : List Access :=
  rounds (s.dispatchRound i) (fun k => s.TakesAt i k) 0 s.printers.length

end Tables

/-- The accesses of a step. -/
def Machine.accesses (m : Machine) : Event → List Access
  | .line input => if m.control = .prompt then m.tables.lineAccesses input else []
  | .dispatchJob =>
    match m.control with
    | .scan i => if i < m.tables.jobs.length then m.tables.dispatchAccesses i else []
    | _ => []
  | .endDispatch => []

end CLanguage.Imprimer
