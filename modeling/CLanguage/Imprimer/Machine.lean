import CLanguage.Lib.Run
import CLanguage.Imprimer.Effects

/-!
# The spooler as a state machine

The loop at the prompt, step by step: a step reads a line and executes its command, or
dispatches one job. The prompt can follow a command file, whose loop is over by then, so
the machine starts with the tables that any command file leaves (`Started`). A command
that runs into undefined behaviour has no step.

`run_typeLines` says that the loop of the code is a run of this machine.
-/

namespace CLanguage.Imprimer

open CLanguage.Lib

variable {s s' : Tables} {flow : Flow} {input : Str} {lines rest : List Str}

/-- Where the loop is: at the prompt, in the dispatch before the job at a place, or left. -/
inductive Control
  | prompt
  | scan (i : ℕ)
  | ended
  deriving DecidableEq, Repr

/-- A state of the program. -/
structure Machine where
  tables : Tables
  control : Control
  deriving DecidableEq, Repr

/-- Where a command leads. -/
def Flow.control : Flow → Control
  | .fallThrough => .scan 0
  | .continue => .prompt
  | .break => .ended
  | .exit => .ended

/-- What happens in a step. -/
inductive Event
  | line (input : Str)
  | dispatchJob
  | endDispatch
  deriving DecidableEq, Repr

inductive Step : Machine → Event → Machine → Prop
  | line {s s' : Tables} {flow : Flow} {input : Str}
      (h : s.line Tables.command input = .ok (s', flow)) :
      Step ⟨s, .prompt⟩ (.line input) ⟨s', flow.control⟩
  | dispatchJob {s : Tables} {i : ℕ} (h : i < s.jobs.length) :
      Step ⟨s, .scan i⟩ .dispatchJob ⟨s.dispatchJob i, .scan (i + 1)⟩
  | endDispatch {s : Tables} {i : ℕ} (h : ¬ i < s.jobs.length) :
      Step ⟨s, .scan i⟩ .endDispatch ⟨s, .prompt⟩

/-- The tables with which the prompt is reached. Without a command file they are empty. -/
def Started (s : Tables) : Prop :=
  ∃ lines rest, Tables.initial.readLines lines = .ok (s, rest)

theorem started_initial : Started .initial := ⟨[], [], rfl⟩

/-- A state that some sequence of lines leads to. -/
def Reachable (m : Machine) : Prop :=
  ∃ s events, Started s ∧ Run Step ⟨s, .prompt⟩ events m

/-! ### The loop of the code -/

theorem run_dispatch (s : Tables) (i n : ℕ) (h : i + n = s.jobs.length) :
    ∃ events, Run Step ⟨s, .scan i⟩ events
      ⟨(List.range' i n).foldl Tables.dispatchJob s, .prompt⟩ := by
  induction n generalizing s i with
  | zero => exact ⟨_, .cons (.endDispatch (by omega)) (.nil _)⟩
  | succ n ih =>
    obtain ⟨events, hrun⟩ := ih (s.dispatchJob i) (i + 1) (by
      rw [length_jobs_dispatchJob]
      omega)
    exact ⟨_, .cons (.dispatchJob (by omega)) hrun⟩

/-- The loop at the prompt is a run that ends at the prompt or leaves the loop. -/
theorem run_typeLines (h : s.typeLines lines = .ok s') :
    ∃ events control, Run Step ⟨s, .prompt⟩ events ⟨s', control⟩ ∧
      (control = .prompt ∨ control = .ended) := by
  induction lines generalizing s with
  | nil =>
    cases h
    exact ⟨[], .prompt, .nil _, .inl rfl⟩
  | cons input lines ih =>
    obtain ⟨⟨t, flow⟩, hline, h⟩ := bind_eq_ok h
    have hstep := Step.line hline
    cases flow with
    | fallThrough =>
      obtain ⟨dispatched, hdispatch⟩ := run_dispatch t 0 t.jobs.length (Nat.zero_add _)
      rw [← List.range_eq_range'] at hdispatch
      obtain ⟨events, control, hrun, hcontrol⟩ := ih h
      exact ⟨_, control, .cons hstep (hdispatch.append hrun), hcontrol⟩
    | «continue» =>
      obtain ⟨events, control, hrun, hcontrol⟩ := ih h
      exact ⟨_, control, .cons hstep hrun, hcontrol⟩
    | «break» | exit =>
      cases h
      exact ⟨_, .ended, .cons hstep (.nil _), .inr rfl⟩

/-! ### Evaluation -/

/-- The step for an event, if there is one. -/
def Machine.next (m : Machine) (e : Event) : Option Machine :=
  match m.control, e with
  | .prompt, .line input =>
    match m.tables.line Tables.command input with
    | .ok (s, flow) => some ⟨s, flow.control⟩
    | .error _ => none
  | .scan i, .dispatchJob =>
    if i < m.tables.jobs.length then some ⟨m.tables.dispatchJob i, .scan (i + 1)⟩ else none
  | .scan i, .endDispatch =>
    if i < m.tables.jobs.length then none else some ⟨m.tables, .prompt⟩
  | _, _ => none

theorem Machine.step_of_next {m m' : Machine} {e : Event} (h : m.next e = some m') :
    Step m e m' := by
  obtain ⟨s, control⟩ := m
  -- one case for each place of the loop, and the one event that is possible there
  cases control with
  | prompt =>
    cases e with
    | line input =>
      simp only [Machine.next] at h
      split at h
      · next hline =>
        cases h
        exact .line hline
      · exact absurd h nofun
    | dispatchJob | endDispatch => exact absurd h nofun
  | scan i =>
    cases e with
    | line input => exact absurd h nofun
    | dispatchJob =>
      obtain ⟨hlt, h⟩ := Option.ite_none_right_eq_some.mp h
      cases h
      exact .dispatchJob hlt
    | endDispatch =>
      obtain ⟨hlt, h⟩ := Option.ite_none_left_eq_some.mp h
      cases h
      exact .endDispatch hlt
  | ended => exact absurd h nofun

/-- A reachable state found by evaluation, with what is observed there. -/
theorem Reachable.of_events {β : Type} (events : List Event) (observe : Machine → β) {b : β}
    (h : (events.foldlM Machine.next ⟨.initial, .prompt⟩).map observe = some b) :
    ∃ m, Reachable m ∧ observe m = b := by
  have sound : ∀ m e m', Machine.next m e = some m' → Step m e m' :=
    fun _ _ _ hnext => Machine.step_of_next hnext
  obtain ⟨m, hrun, hobserve⟩ := Run.exists_of_foldlM sound h
  exact ⟨m, ⟨_, _, started_initial, hrun⟩, hobserve⟩

end CLanguage.Imprimer
