import CLanguage.Lib.Growing
import CLanguage.Imprimer.Matching
import Mathlib

/-!
# The life of a job

Between any two states of a run the tables only grow: types and conversions are added
behind the old ones, a printer keeps its place, name and type and stays busy once it is,
and a job keeps everything but its status and its printer. A queued job is started or
canceled, and that is the last thing that happens to it: the spooler has no step that
completes, pauses or ends a job. So a printer prints one job in the life of the program,
and no more jobs are started than there are printers.

## Main results

* `jobs_advance` — the tables grow along every run
* `printer_prints_once` — a printer that prints a job prints no other one
-/

namespace CLanguage.Imprimer

open CLanguage.Lib

variable {s s' : Tables} {flow : Flow} {m m' : Machine} {e : Event} {events : List Event}
  {i k : ℕ} {j j' j'' : Job} {p p' p'' : Printer}

/-! ### Jobs and printers -/

/-- What can happen to a job. -/
inductive Job.Leads (j : Job) : Job → Prop
  | stay : j.Leads j
  | start (queued : j.status = .queued) (k : ℕ) : j.Leads (j.start k)
  | cancel (queued : j.status = .queued) : j.Leads { j with status := .aborted }

/-- A job that is not queued stays as it is. -/
theorem Job.Leads.eq (h : j.Leads j') (settled : j.status ≠ .queued) : j' = j := by
  cases h with
  | stay => rfl
  | start queued | cancel queued => exact absurd queued settled

instance : Std.Refl Job.Leads := ⟨fun _ => .stay⟩

instance : IsTrans Job Job.Leads := ⟨by
  intro j j' j'' h h'
  cases h with
  | stay => exact h'
  | start queued k =>
    obtain rfl := h'.eq (by decide : JobStatus.running ≠ .queued)
    exact .start queued k
  | cancel queued =>
    obtain rfl := h'.eq (by decide : JobStatus.aborted ≠ .queued)
    exact .cancel queued⟩

/-- A printer keeps its number, name and type, and stays busy. -/
structure Printer.Leads (p p' : Printer) : Prop where
  id : p'.id = p.id
  name : p'.name = p.name
  type : p'.type = p.type
  busy : p.busy = true → p'.busy = true

instance : Std.Refl Printer.Leads := ⟨fun _ => ⟨rfl, rfl, rfl, id⟩⟩

instance : IsTrans Printer Printer.Leads := ⟨fun _ _ _ h h' =>
  ⟨h'.id.trans h.id, h'.name.trans h.name, h'.type.trans h.type, fun busy => h'.busy (h.busy busy)⟩⟩

/-! ### Steps -/

/-- The tables `s'` have grown from `s`. -/
structure Tables.Leads (s s' : Tables) : Prop where
  types : s.types <+: s'.types
  conversions : s.conversions <+: s'.conversions
  printers : Grows Printer.Leads s.printers s'.printers
  jobs : Grows Job.Leads s.jobs s'.jobs

theorem Tables.Leads.refl (s : Tables) : s.Leads s :=
  ⟨List.prefix_rfl, List.prefix_rfl, .refl _, .refl _⟩

theorem Tables.Leads.trans {s s' s'' : Tables} (h : s.Leads s') (h' : s'.Leads s'') :
    s.Leads s'' :=
  ⟨h.types.trans h'.types, h.conversions.trans h'.conversions, h.printers.trans h'.printers,
    h.jobs.trans h'.jobs⟩

theorem Declares.leads (h : Declares s s' flow) : s.Leads s' := by
  have hsame := Tables.Leads.refl s
  cases h with
  | keep | reject => exact hsame
  | type t => exact { hsame with types := List.prefix_append _ _ }
  | printer => exact { hsame with printers := .append _ _ }
  | conversion => exact { hsame with conversions := List.prefix_append _ _ }
  | print => exact { hsame with jobs := .append _ _ }

theorem Job.leads_cancelJob (name : Str) (j : Job) : j.Leads (Tables.cancelJob name j) := by
  rw [Tables.cancelJob]
  split
  · next h => exact .cancel h.2
  · exact .stay

/-- The loop of `enable` and `disable` sets flags. -/
theorem grows_setEnabled (enabled : Bool) (name : Str) (printers : List Printer) :
    Grows Printer.Leads printers (Tables.setEnabled enabled name printers) := by
  intro k p hp
  obtain ⟨flag, hflag⟩ := getElem?_setEnabled enabled name printers k
  rw [hp, Option.map_some] at hflag
  exact ⟨_, hflag, rfl, rfl, rfl, id⟩

theorem Effect.leads (h : Effect s s' flow) : s.Leads s' := by
  have hsame := Tables.Leads.refl s
  cases h with
  | declare h => exact h.leads
  | leave => exact hsame
  | cancel name => exact { hsame with jobs := .map fun j _ => j.leads_cancelJob name }
  | setEnabled enabled name => exact { hsame with printers := grows_setEnabled enabled name _ }

theorem leads_dispatchJob (s : Tables) (i : ℕ) : s.Leads (s.dispatchJob i) := by
  have hsame := Tables.Leads.refl s
  obtain ⟨h, -⟩ | ⟨j, k, p, hj, hp, htakes, h⟩ := dispatchJob_cases s i
  · rw [h]
    exact hsame
  · rw [h]
    exact { hsame with
      printers := .modify hp ⟨rfl, rfl, rfl, fun _ => rfl⟩
      jobs := .set hj (.start htakes.2.1 k) }

theorem Step.leads (step : Step m e m') : m.tables.Leads m'.tables := by
  cases step with
  | line h => exact (effect_of_line h).leads
  | dispatchJob => exact leads_dispatchJob _ _
  | endDispatch => exact .refl _

/-- A job that was queued when it was new. -/
def Job.Lives (j : Job) : Prop :=
  ∃ j₀ : Job, j₀.status = .queued ∧ j₀.chosenPrinter = none ∧ j₀.Leads j

theorem Job.Lives.leads (lives : j.Lives) (h : j.Leads j') : j'.Lives := by
  obtain ⟨j₀, hqueued, hnone, hleads⟩ := lives
  exact ⟨j₀, hqueued, hnone, trans_of Job.Leads hleads h⟩

theorem Declares.lives (h : Declares s s' flow) (lives : ∀ j ∈ s.jobs, j.Lives) :
    ∀ j ∈ s'.jobs, j.Lives := by
  cases h with
  | print fileName fileType eligible =>
    intro j hj
    obtain hj | hj := List.mem_append.mp hj
    · exact lives j hj
    · rw [List.mem_singleton.mp hj]
      exact ⟨_, rfl, rfl, .stay⟩
  | _ => exact lives

theorem Step.lives (step : Step m e m') (lives : ∀ j ∈ m.tables.jobs, j.Lives) :
    ∀ j ∈ m'.tables.jobs, j.Lives := by
  cases step with
  | line h =>
    cases effect_of_line h with
    | declare h => exact h.lives lives
    | leave => exact lives
    | cancel name =>
      intro j' hj'
      obtain ⟨j, hj, rfl⟩ := List.mem_map.mp hj'
      exact (lives j hj).leads (j.leads_cancelJob name)
    | setEnabled => exact lives
  | @dispatchJob s n hn =>
    obtain ⟨h, -⟩ | ⟨j, k, p, hj, -, htakes, h⟩ := dispatchJob_cases s n
    · rw [h]
      exact lives
    · rw [h]
      intro j' hj'
      obtain hj' | rfl := List.mem_or_eq_of_mem_set hj'
      · exact lives j' hj'
      · exact (lives j (List.mem_of_getElem? hj)).leads (.start htakes.2.1 k)
  | endDispatch => exact lives

/-! ### Runs -/

theorem leads_of_run (run : Run Step m events m') : m.tables.Leads m'.tables :=
  run.invariant (I := fun m' => m.tables.Leads m'.tables) (fun _ _ _ h step => h.trans step.leads)
    (.refl _)

theorem Reachable.run (reachable : Reachable m) (run : Run Step m events m') : Reachable m' := by
  obtain ⟨s, before, started, hrun⟩ := reachable
  exact ⟨s, before ++ events, started, hrun.append run⟩

theorem Reachable.lives (reachable : Reachable m) : ∀ j ∈ m.tables.jobs, j.Lives := by
  obtain ⟨s, events, ⟨lines, rest, hstart⟩, hrun⟩ := reachable
  have hs : ∀ j ∈ s.jobs, j.Lives :=
    readLines_invariant (I := fun s => ∀ j ∈ s.jobs, j.Lives) (fun _ _ _ hs h => h.lives hs) hstart
      fun _ hj => absurd hj List.not_mem_nil
  exact hrun.invariant (I := fun m => ∀ j ∈ m.tables.jobs, j.Lives) (fun _ _ _ hm h => h.lives hm) hs

/-- Along every run of the spooler the tables only grow, and every job has been queued and then
at most started or canceled. -/
theorem jobs_advance (reachable : Reachable m) (run : Run Step m events m') :
    m.tables.Leads m'.tables ∧ ∀ j ∈ m'.tables.jobs, j.Lives :=
  ⟨leads_of_run run, (reachable.run run).lives⟩

/-- The spooler while it prints a file on its only printer. -/
def printing : Machine where
  tables := {
    types := ["ps".toList]
    conversions := []
    printers := [⟨0, "alice".toList, "ps".toList, true, true⟩]
    jobs := [⟨0, .running, "a.ps".toList, "ps".toList, anyPrinter, some 0⟩] }
  control := .prompt

theorem printing_reachable : Reachable printing := by
  obtain ⟨m, hm, heq⟩ := Reachable.of_events
    [.line "type ps".toList, .endDispatch, .line "printer alice ps".toList, .endDispatch,
      .line "enable alice".toList, .endDispatch, .line "print a.ps".toList, .dispatchJob,
      .endDispatch] (fun m => m) (show _ = some printing by decide +kernel)
  exact heq ▸ hm

/-- A second job is queued and canceled while the first one is printed. -/
def cancelSecond : List Event :=
  [.line "print b.ps".toList, .dispatchJob, .dispatchJob, .endDispatch, .line "cancel b.ps".toList]

theorem exists_cancelSecond : ∃ m', Run Step printing cancelSecond m' ∧
    m'.tables.jobs.map Job.status = [.running, .aborted] :=
  Run.exists_of_foldlM (fun _ _ _ h => Machine.step_of_next h)
    (show _ = some [JobStatus.running, .aborted] by decide +kernel)

/-- The jobs of that run. -/
theorem jobs_advance_example : ∃ m' : Machine,
    m'.tables.jobs.map Job.status = [.running, .aborted] ∧
    printing.tables.Leads m'.tables ∧ ∀ j ∈ m'.tables.jobs, j.Lives := by
  obtain ⟨m', hrun, hstatus⟩ := exists_cancelSecond
  exact ⟨m', hstatus, jobs_advance printing_reachable hrun⟩

/-- A job that is printed is printed on its printer ever after. -/
theorem Tables.Leads.prints (h : s.Leads s') (prints : s.Prints i k) : s'.Prints i k := by
  obtain ⟨j, hj, hrunning, hchosen⟩ := prints
  obtain ⟨j', hj', hleads⟩ := h.jobs i j hj
  obtain rfl := hleads.eq (by rw [hrunning]; decide)
  exact ⟨j', hj', hrunning, hchosen⟩

/-- The running jobs are at most as many as the printers. -/
theorem Matched.countP_running_le (matched : Matched s) :
    s.jobs.countP (fun j => j.status = .running) ≤ s.printers.length := by
  refine countP_le (fun i => (s.jobs[i]?.bind Job.chosenPrinter).getD 0) ?_ ?_
  · intro i j hj hrunning
    obtain ⟨k, p, hchosen, hp, -⟩ := matched.running i j hj (of_decide_eq_true hrunning)
    simp only [hj, Option.bind_some, hchosen, Option.getD_some]
    exact (List.getElem?_eq_some_iff.mp hp).1
  · intro i i' j j' hj hj' hrunning hrunning' heq
    have hrunning := of_decide_eq_true hrunning
    have hrunning' := of_decide_eq_true hrunning'
    obtain ⟨k, -, hchosen, -⟩ := matched.running i j hj hrunning
    obtain ⟨k', -, hchosen', -⟩ := matched.running i' j' hj' hrunning'
    simp only [hj, hj', Option.bind_some, hchosen, hchosen', Option.getD_some] at heq
    subst heq
    exact matched.unique i i' k ⟨j, hj, hrunning, hchosen⟩ ⟨j', hj', hrunning', hchosen'⟩

/-- **A printer prints one job in the life of the program**: whatever follows, it goes on printing
that job and never prints another one. So the jobs that are ever started are at most as many as
the printers, and those are at most 32. -/
theorem printer_prints_once (reachable : Reachable m) (run : Run Step m events m') :
    (∀ i k, m.tables.Prints i k → ∀ i', m'.tables.Prints i' k ↔ i' = i) ∧
      m'.tables.jobs.countP (fun j => j.status = .running) ≤ m'.tables.printers.length ∧
      m'.tables.printers.length ≤ maxPrinters := by
  have hmatched := (reachable.run run).matched
  refine ⟨fun i k prints i' => ?_, hmatched.countP_running_le, hmatched.room⟩
  have hprints := (leads_of_run run).prints prints
  constructor
  · exact fun h => hmatched.unique i' i k h hprints
  · rintro rfl
    exact hprints

/-- The printer of that run. -/
theorem printer_prints_once_example : ∃ m' : Machine,
    m'.tables.jobs.map Job.status = [.running, .aborted] ∧
    ∀ i', m'.tables.Prints i' 0 ↔ i' = 0 := by
  obtain ⟨m', hrun, hstatus⟩ := exists_cancelSecond
  exact ⟨m', hstatus, (printer_prints_once printing_reachable hrun).1 0 0 ⟨_, rfl, rfl, rfl⟩⟩

end CLanguage.Imprimer
