import CLanguage.Lib.Outcome
import CLanguage.Imprimer.Commands

/-!
# What a command can do to the tables

`Declares` lists what the commands of a command file do, `Effect` what the commands at
the prompt do: a command leaves the tables as they are or changes one of them, and it
leaves them as they are when the dispatch is skipped. A pass of the dispatch is described
by what it does at one job.
-/

namespace CLanguage.Imprimer

open CLanguage.Lib

variable {s s' : Tables} {flow : Flow} {c : Command} {input : Str} {i k : ℕ} {j : Job}
  {p : Printer}

/-- The changes that a command makes in both loops, with the way its body is left. -/
inductive Declares (s : Tables) : Tables → Flow → Prop
  | keep : Declares s s .fallThrough
  | reject : Declares s s .continue
  | type (t : Str) : Declares s { s with types := s.types ++ [t] } .fallThrough
  | printer (name type : Str) (room : s.printers.length < maxPrinters) :
      Declares s { s with printers := s.printers ++
        [{ id := s.printers.length, name := name, type := type, enabled := false, busy := false }] }
        .fallThrough
  | conversion (conv : Conversion) :
      Declares s { s with conversions := s.conversions ++ [conv] } .fallThrough
  | print (fileName fileType : Str) (eligible : UInt32) (room : s.jobs.length < maxJobs) :
      Declares s { s with jobs := s.jobs ++
        [{ jobid := s.jobs.length, status := .queued, fileName := fileName, fileType := fileType,
           eligiblePrinters := eligible, chosenPrinter := Option.none }] } .fallThrough

/-- The changes that a command makes at the prompt. -/
inductive Effect (s : Tables) : Tables → Flow → Prop
  | declare {s' : Tables} {flow : Flow} (h : Declares s s' flow) : Effect s s' flow
  | leave : Effect s s .break
  | cancel (name : Str) :
      Effect s { s with jobs := s.jobs.map (Tables.cancelJob name) } .fallThrough
  | setEnabled (enabled : Bool) (name : Str) :
      Effect s { s with printers := Tables.setEnabled enabled name s.printers } .fallThrough

theorem push_eq_ok {α : Type} {size : ℕ} {fault : Fault} {table table' : List α} {a : α} :
    push size fault table a = .ok table' ↔ table.length < size ∧ table' = table ++ [a] := by
  rw [push]
  split
  · next h => exact ⟨fun e => ⟨h, (Except.ok.inj e).symm⟩, fun e => congrArg Except.ok e.2.symm⟩
  · next h => exact ⟨nofun, fun e => absurd e.1 h⟩

/-- A command that is left early, in particular one that is rejected, changes nothing. -/
theorem Effect.eq_of_left (h : Effect s s' flow) (left : flow ≠ .fallThrough) : s' = s := by
  cases h with
  | declare h =>
    cases h with
    | reject => rfl
    | _ => exact absurd rfl left
  | leave => rfl
  | _ => exact absurd rfl left

/-- The commands that leave the loop over a command file. -/
def Command.Interrupts : Command → Prop
  | .cancel _ | .pause _ | .resume _ | .disable _ | .enable _ => True
  | _ => False

instance : DecidablePred Command.Interrupts
  | .cancel _ | .pause _ | .resume _ | .disable _ | .enable _ => .isTrue trivial
  | .help | .quit | .type _ | .printer _ _ | .conversion _ _ _ | .printers | .jobs | .print _ _
  | .invalid => .isFalse not_false

theorem fileCommand_eq (stays : ¬ c.Interrupts) (hquit : c ≠ .quit) :
    s.fileCommand c = s.command c := by
  cases c with
  | quit => exact absurd rfl hquit
  | cancel | pause | resume | disable | enable => exact absurd trivial stays
  | _ => rfl

theorem fileCommand_interrupts (h : c.Interrupts) : s.fileCommand c = .ok (s, .break) := by
  cases c with
  | cancel | pause | resume | disable | enable => rfl
  | _ => exact absurd h not_false

namespace Declares

theorem flow_eq (h : Declares s s' flow) : flow = .fallThrough ∨ flow = .continue := by
  cases h with
  | reject => exact .inr rfl
  | _ => exact .inl rfl

theorem of_type {t : Str} (h : s.type t = .ok (s', flow)) : Declares s s' flow := by
  rw [Tables.type] at h
  split at h
  · cases h
    exact .keep
  · obtain ⟨t', -, h⟩ := bind_eq_ok h
    obtain ⟨types, hpush, h⟩ := bind_eq_ok h
    obtain ⟨-, rfl⟩ := push_eq_ok.mp hpush
    cases h
    exact .type t'

theorem of_printer {name fileType : Str} (h : s.printer name fileType = .ok (s', flow)) :
    Declares s s' flow := by
  rw [Tables.printer] at h
  split at h
  · cases h
    exact .reject
  split at h
  · cases h
    exact .reject
  · obtain ⟨name', -, h⟩ := bind_eq_ok h
    obtain ⟨fileType', -, h⟩ := bind_eq_ok h
    obtain ⟨printers, hpush, h⟩ := bind_eq_ok h
    obtain ⟨room, rfl⟩ := push_eq_ok.mp hpush
    cases h
    exact .printer name' fileType' room

theorem of_conversion {src dest : Str} {program : List Str}
    (h : s.conversion src dest program = .ok (s', flow)) : Declares s s' flow := by
  obtain ⟨name, -, h⟩ := bind_eq_ok h
  split at h
  · cases h
    exact .reject
  · obtain ⟨name', -, h⟩ := bind_eq_ok h
    obtain ⟨src', -, h⟩ := bind_eq_ok h
    obtain ⟨dest', -, h⟩ := bind_eq_ok h
    obtain ⟨conversions, hpush, h⟩ := bind_eq_ok h
    obtain ⟨-, rfl⟩ := push_eq_ok.mp hpush
    cases h
    exact .conversion _

theorem of_print {file : Str} {names : List Str} (h : s.print file names = .ok (s', flow)) :
    Declares s s' flow := by
  obtain ⟨eligible, -, h⟩ := bind_eq_ok h
  cases eligible with
  | none =>
    cases h
    exact .reject
  | some eligible =>
    obtain ⟨fileName, -, h⟩ := bind_eq_ok h
    obtain ⟨type, -, h⟩ := bind_eq_ok h
    split at h
    · obtain ⟨jobs, hpush, h⟩ := bind_eq_ok h
      obtain ⟨room, rfl⟩ := push_eq_ok.mp hpush
      cases h
      exact .print fileName type eligible room
    · cases h
      exact .reject

theorem of_fileCommand (h : s.fileCommand c = .ok (s', flow)) (stays : ¬ c.Interrupts)
    (hquit : c ≠ .quit) : Declares s s' flow := by
  cases c with
  | help | printers | jobs | invalid =>
    cases h
    exact .keep
  | quit => exact absurd rfl hquit
  | type t => exact of_type h
  | printer name fileType => exact of_printer h
  | conversion src dest program => exact of_conversion h
  | print file names => exact of_print h
  | cancel | pause | resume | disable | enable => exact absurd trivial stays

end Declares

theorem Effect.of_cancel {name : Str} (h : s.cancel name = .ok (s', flow)) :
    Effect s s' flow := by
  rw [Tables.cancel] at h
  split at h
  · exact absurd h nofun
  · cases h
    exact .cancel name

theorem Effect.of_command (h : s.command c = .ok (s', flow)) : Effect s s' flow := by
  cases c with
  | quit | pause | resume =>
    cases h
    exact .leave
  | cancel name => exact .of_cancel h
  | disable name | enable name =>
    cases h
    exact .setEnabled _ name
  | help | printers | jobs | invalid =>
    cases h
    exact .declare .keep
  | type t => exact .declare (.of_type h)
  | printer name fileType => exact .declare (.of_printer h)
  | conversion src dest program => exact .declare (.of_conversion h)
  | print file names => exact .declare (.of_print h)

/-! ### Lines -/

/-- The command of a line, if it has words and not too many. -/
def lineCommand (input : Str) : Option Command :=
  match strtok ' ' input with
  | [] => none
  | cmd :: words => if words.length < 40 then some (.ofWords cmd words) else none

theorem line_eq_of_some (body : Tables → Command → Outcome) (h : lineCommand input = some c) :
    s.line body input = body s c := by
  rw [lineCommand] at h
  rw [Tables.line]
  split at h
  · exact absurd h nofun
  · next cmd words hwords =>
    obtain ⟨hlt, h⟩ := Option.ite_none_right_eq_some.mp h
    cases h
    simp only [hwords, if_pos hlt]

/-- Without a command a line is blank or too long. -/
theorem line_eq_of_none (h : lineCommand input = none) :
    ∃ r : Outcome, (r = .ok (s, .continue) ∨ r = .error .words) ∧
      ∀ body, s.line body input = r := by
  rw [lineCommand] at h
  split at h
  · next hwords =>
    refine ⟨_, .inl rfl, fun body => ?_⟩
    simp only [Tables.line, hwords]
  · next cmd words hwords =>
    have hlong : ¬ words.length < 40 := fun hlt => by
      rw [if_pos hlt] at h
      exact absurd h nofun
    refine ⟨_, .inr rfl, fun body => ?_⟩
    simp only [Tables.line, hwords, if_neg hlong]

/-- A line of a command file leaves the loop, or does what it does at the prompt. -/
theorem fileLine_cases (s : Tables) (input : Str) :
    (lineCommand input = some .quit ∧ s.line Tables.fileCommand input = .ok (s, .exit)) ∨
    (∃ c, lineCommand input = some c ∧ c.Interrupts ∧
      s.line Tables.fileCommand input = .ok (s, .break)) ∨
    (s.line Tables.fileCommand input = s.line Tables.command input ∧
      (∀ c, lineCommand input = some c → ¬ c.Interrupts ∧ c ≠ .quit) ∧
      ∀ s' flow, s.line Tables.fileCommand input = .ok (s', flow) → Declares s s' flow) := by
  cases hc : lineCommand input with
  | none =>
    obtain ⟨r, hr, hline⟩ := line_eq_of_none (s := s) hc
    refine .inr (.inr ⟨(hline _).trans (hline _).symm, nofun, fun s' flow h => ?_⟩)
    obtain rfl := h.symm.trans (hline _)
    obtain hr | hr := hr
    · cases hr
      exact .reject
    · exact absurd hr nofun
  | some c =>
    by_cases hquit : c = .quit
    · subst hquit
      exact .inl ⟨rfl, line_eq_of_some Tables.fileCommand hc⟩
    by_cases stays : c.Interrupts
    · refine .inr (.inl ⟨c, rfl, stays, ?_⟩)
      rw [line_eq_of_some Tables.fileCommand hc, fileCommand_interrupts stays]
    -- the other commands mean the same in a file as at the prompt
    refine .inr (.inr ⟨?_, ?_, fun s' flow h => ?_⟩)
    · rw [line_eq_of_some _ hc, line_eq_of_some _ hc, fileCommand_eq stays hquit]
    · rintro _ ⟨⟩
      exact ⟨stays, hquit⟩
    · rw [line_eq_of_some _ hc] at h
      exact .of_fileCommand h stays hquit

/-- A line at the prompt. -/
theorem effect_of_line (h : s.line Tables.command input = .ok (s', flow)) :
    Effect s s' flow := by
  cases hc : lineCommand input with
  | none =>
    obtain ⟨r, hr | hr, hline⟩ := line_eq_of_none (s := s) hc
    · cases (hr.symm.trans (hline _).symm).trans h
      exact .declare .reject
    · exact absurd ((hr.symm.trans (hline _).symm).trans h) nofun
  | some c =>
    rw [line_eq_of_some Tables.command hc] at h
    exact .of_command h

/-- What the commands of a command file keep holds after any of them. -/
theorem readLines_invariant {I : Tables → Prop} {lines rest : List Str}
    (keep : ∀ s s' flow, I s → Declares s s' flow → I s')
    (h : s.readLines lines = .ok (s', rest)) (start : I s) : I s' := by
  induction lines generalizing s with
  | nil =>
    cases h
    exact start
  | cons input lines ih =>
    obtain ⟨⟨t, flow⟩, hline, h⟩ := bind_eq_ok h
    obtain ⟨-, hquit⟩ | ⟨c, -, -, hleave⟩ | ⟨-, -, hdeclares⟩ := fileLine_cases s input
    · cases hquit.symm.trans hline
      cases h
      exact start
    · cases hleave.symm.trans hline
      cases h
      exact start
    · have hs := hdeclares t flow hline
      have ht := keep _ _ _ start hs
      obtain rfl | rfl := hs.flow_eq
      · exact ih h ht
      · exact ih h ht

/-! ### The dispatch of one job -/

/-- The cases of the dispatch at one place: nothing is started, or the job of that place is started
on the first printer that takes it. -/
theorem dispatchJob_cases (s : Tables) (i : ℕ) :
    (s.dispatchJob i = s ∧ ∀ j, s.jobs[i]? = some j → ∀ p ∈ s.printers, ¬ p.Takes j) ∨
    ∃ j k p, s.jobs[i]? = some j ∧ s.printers[k]? = some p ∧ p.Takes j ∧
      s.dispatchJob i =
        { s with printers := s.printers.modify k Printer.start, jobs := s.jobs.set i (j.start k) } := by
  rw [Tables.dispatchJob]
  cases hj : s.jobs[i]? with
  | none => exact .inl ⟨rfl, nofun⟩
  | some j =>
    cases hk : s.printers.findIdx? (fun p => decide (p.Takes j)) with
    | none =>
      refine .inl ⟨by simp only [hk], ?_⟩
      rintro j' ⟨⟩ p hp
      exact of_decide_eq_false (List.findIdx?_eq_none_iff.mp hk p hp)
    | some k =>
      obtain ⟨hlt, htakes, -⟩ := List.findIdx?_eq_some_iff_getElem.mp hk
      exact .inr ⟨j, k, s.printers[k], rfl, List.getElem?_eq_getElem hlt,
        of_decide_eq_true htakes, by simp only [hk]⟩

@[simp] theorem length_jobs_dispatchJob : (s.dispatchJob i).jobs.length = s.jobs.length := by
  obtain ⟨h, -⟩ | ⟨j, k, p, -, -, -, h⟩ := dispatchJob_cases s i
  · rw [h]
  · rw [h, List.length_set]

end CLanguage.Imprimer
