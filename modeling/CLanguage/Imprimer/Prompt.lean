import CLanguage.Imprimer.Matching

/-!
# No job waits for a free printer

When the prompt is shown, no printer takes a queued job. A pass of the dispatch gets
there because its steps only make printers busy: a job that was passed over is not taken
later on. `Settled` is the invariant, with the place that the dispatch has reached.
-/

namespace CLanguage.Imprimer

open CLanguage.Lib

variable {s s' : Tables} {flow : Flow} {m m' : Machine} {e : Event} {i n : ℕ} {j : Job}
  {p : Printer}

/-- None of the first `n` jobs is taken by a printer. -/
def Tables.SettledTo (s : Tables) (n : ℕ) : Prop :=
  ∀ i < n, ∀ j : Job, s.jobs[i]? = some j → ∀ p ∈ s.printers, ¬ p.Takes j

/-- The jobs that the dispatch is through with: at the prompt and after the loop, all of them. -/
def Machine.Settled (m : Machine) : Prop :=
  match m.control with
  | .scan n => m.tables.SettledTo n
  | .prompt | .ended => ∀ n, m.tables.SettledTo n

theorem Printer.Takes.of_start (h : p.start.Takes j) : False :=
  absurd h.2.2.1 nofun

theorem Printer.not_takes_start (k : ℕ) : ¬ p.Takes (j.start k) :=
  fun h => absurd h.2.1 nofun

/-- A printer of the table after a start was there before, or is busy. -/
theorem mem_modify_start {printers : List Printer} {k : ℕ}
    (h : p ∈ printers.modify k Printer.start) : p ∈ printers ∨ ∃ q, p = Printer.start q := by
  obtain ⟨i, hi⟩ := List.mem_iff_getElem?.mp h
  rw [List.getElem?_modify] at hi
  obtain ⟨q, hq, rfl⟩ := Option.map_eq_some_iff.mp hi
  split
  · exact .inr ⟨q, rfl⟩
  · exact .inl (List.mem_of_getElem? hq)

/-- The dispatch gets one job further. -/
theorem Tables.SettledTo.dispatchJob (settled : s.SettledTo n) :
    (s.dispatchJob n).SettledTo (n + 1) := by
  obtain ⟨h, hnone⟩ | ⟨j, k, p, hj, hp, -, h⟩ := dispatchJob_cases s n
  · rw [h]
    intro i hi j hj
    obtain hlt | rfl := Nat.lt_succ_iff_lt_or_eq.mp hi
    · exact settled i hlt j hj
    · exact hnone j hj
  · rw [h]
    intro i hi j' hj' q hq htakes
    obtain hlt | rfl := Nat.lt_succ_iff_lt_or_eq.mp hi
    · rw [List.getElem?_set_ne (Nat.ne_of_gt hlt)] at hj'
      obtain hq | ⟨q, rfl⟩ := mem_modify_start hq
      · exact settled i hlt j' hj' q hq htakes
      · exact htakes.of_start
    · -- the job that was just started
      rw [List.getElem?_set_self (List.getElem?_eq_some_iff.mp hj).1] at hj'
      cases hj'
      exact Printer.not_takes_start k htakes

theorem Machine.Settled.step (settled : m.Settled) (step : Step m e m') : m'.Settled := by
  cases step with
  | @line s s' flow input h =>
    have heffect := effect_of_line h
    cases flow with
    | fallThrough => exact fun i hi => absurd hi (Nat.not_lt_zero i)
    | «continue» | «break» | exit =>
      -- a command that skips the dispatch has changed nothing
      obtain rfl := heffect.eq_of_left nofun
      exact settled
  | dispatchJob h => exact Tables.SettledTo.dispatchJob settled
  | @endDispatch s i h =>
    intro n i' _ j hj
    have hlt : i' < s.jobs.length := (List.getElem?_eq_some_iff.mp hj).1
    exact settled i' (by omega) j hj

/-! ### The first prompt -/

/-- A command file enables no printer. -/
theorem Declares.disabled (h : Declares s s' flow) (disabled : ∀ p ∈ s.printers, p.enabled = false) :
    ∀ p ∈ s'.printers, p.enabled = false := by
  cases h with
  | printer name type room =>
    intro p hp
    obtain hp | hp := List.mem_append.mp hp
    · exact disabled p hp
    · obtain rfl := List.mem_singleton.mp hp
      rfl
  | _ => exact disabled

theorem disabled_of_readLines {lines rest : List Str}
    (h : Tables.initial.readLines lines = .ok (s, rest)) : ∀ p ∈ s.printers, p.enabled = false :=
  readLines_invariant (I := fun s => ∀ p ∈ s.printers, p.enabled = false)
    (fun _ _ _ hs h => h.disabled hs) h nofun

theorem Printer.not_takes_of_disabled (h : p.enabled = false) : ¬ p.Takes j :=
  fun htakes => Bool.false_ne_true (h.symm.trans htakes.2.2.2)

theorem Started.settled (started : Started s) : Machine.Settled ⟨s, .prompt⟩ := by
  obtain ⟨lines, rest, h⟩ := started
  intro n i hi j hj p hp
  exact Printer.not_takes_of_disabled (disabled_of_readLines h p hp)

theorem Reachable.settled (reachable : Reachable m) : m.Settled := by
  obtain ⟨s, events, started, hrun⟩ := reachable
  exact hrun.invariant (fun _ _ _ hm h => hm.step h) started.settled

/-! ### Job numbers -/

/-- The number of a job is its place. -/
def Tables.Numbered (s : Tables) : Prop :=
  ∀ (i : ℕ) (j : Job), s.jobs[i]? = some j → j.jobid = i

theorem Tables.Numbered.declares (numbered : s.Numbered) (h : Declares s s' flow) :
    s'.Numbered := by
  cases h with
  | print fileName fileType eligible room =>
    intro i j hj
    obtain hj | ⟨rfl, rfl⟩ := getElem?_append_singleton.mp hj
    · exact numbered i j hj
    · rfl
  | _ => exact numbered

theorem jobid_cancelJob (name : Str) (j : Job) : (Tables.cancelJob name j).jobid = j.jobid := by
  rw [Tables.cancelJob]
  split
  · rfl
  · rfl

theorem Tables.Numbered.step (step : Step m e m') (numbered : m.tables.Numbered) :
    m'.tables.Numbered := by
  cases step with
  | line h =>
    cases effect_of_line h with
    | declare h => exact numbered.declares h
    | leave => exact numbered
    | cancel name =>
      intro i j' hj'
      rw [List.getElem?_map] at hj'
      obtain ⟨j, hj, rfl⟩ := Option.map_eq_some_iff.mp hj'
      rw [jobid_cancelJob]
      exact numbered i j hj
    | setEnabled => exact numbered
  | @dispatchJob s n hn =>
    obtain ⟨h, -⟩ | ⟨j, k, p, hj, -, -, h⟩ := dispatchJob_cases s n
    · rw [h]
      exact numbered
    · rw [h]
      intro i j' hj'
      -- the job that is started keeps its id, and so do the other ones
      by_cases hi : n = i
      · subst hi
        rw [List.getElem?_set_self hn] at hj'
        cases hj'
        exact numbered n j hj
      · rw [List.getElem?_set_ne hi] at hj'
        exact numbered i j' hj'
  | endDispatch => exact numbered

theorem Reachable.numbered (reachable : Reachable m) : m.tables.Numbered := by
  obtain ⟨s, events, ⟨lines, rest, hstart⟩, hrun⟩ := reachable
  have hs : s.Numbered := readLines_invariant (fun _ _ _ hs h => hs.declares h) hstart nofun
  exact hrun.invariant (I := fun m => m.tables.Numbered) (fun _ _ _ hm h => hm.step h) hs

/-! ### Starting a job -/

/-- No command starts a job. -/
theorem Effect.not_starts (h : Effect s s' flow) {j' : Job} (before : s.jobs[i]? = some j)
    (after : s'.jobs[i]? = some j') (queued : j.status = .queued) : j'.status ≠ .running := by
  intro hrunning
  suffices h : j' = j by
    subst h
    exact absurd (queued.symm.trans hrunning) nofun
  cases h with
  | declare h =>
    cases h with
    | print =>
      have hi : i < s.jobs.length := (List.getElem?_eq_some_iff.mp before).1
      rw [List.getElem?_append_left hi] at after
      exact Option.some.inj (after.symm.trans before)
    | _ => exact Option.some.inj (after.symm.trans before)
  | leave => exact Option.some.inj (after.symm.trans before)
  | cancel name =>
    rw [List.getElem?_map, before] at after
    exact ((cancelJob_eq_running hrunning).mp (Option.some.inj after)).symm
  | setEnabled => exact Option.some.inj (after.symm.trans before)

/-- The job that a step starts is taken by its printer, and the dispatch has reached it. -/
theorem Step.starts (step : Step m e m') {j' : Job} {k : ℕ} (before : m.tables.jobs[i]? = some j)
    (after : m'.tables.jobs[i]? = some j') (queued : j.status = .queued)
    (running : j'.status = .running) (chosen : j'.chosenPrinter = some k) :
    m.control = .scan i ∧ ∃ p, m.tables.printers[k]? = some p ∧ p.Takes j ∧
      ∀ i' < i, m'.tables.jobs[i']? = m.tables.jobs[i']? := by
  -- the step changes the job, whose status is another one afterwards
  have hchange : m'.tables.jobs[i]? ≠ m.tables.jobs[i]? := by
    intro hsame
    obtain rfl := Option.some.inj (after.symm.trans (hsame.trans before))
    exact absurd (queued.symm.trans running) nofun
  cases step with
  | line h => exact absurd running ((effect_of_line h).not_starts before after queued)
  | @dispatchJob s n hn =>
    obtain ⟨h, -⟩ | ⟨j₀, k₀, p, hj₀, hp, htakes, h⟩ := dispatchJob_cases s n
    · exact absurd (by rw [h]) hchange
    · rw [h] at after hchange
      by_cases hi : n = i
      · subst hi
        rw [List.getElem?_set_self hn] at after
        cases after
        cases chosen
        obtain rfl := Option.some.inj (hj₀.symm.trans before)
        refine ⟨rfl, p, hp, htakes, fun i' hi' => ?_⟩
        rw [h]
        exact List.getElem?_set_ne (Nat.ne_of_gt hi')
      · exact absurd (List.getElem?_set_ne hi) hchange
  | endDispatch => exact absurd rfl hchange

/-- At every prompt no queued job has a printer that could take it. When a job is started on a
printer, no job with a smaller number that could have used that printer is left in the queue. -/
theorem no_job_waits (reachable : Reachable m) :
    (m.control = .prompt → ∀ j ∈ m.tables.jobs, j.status = .queued → ∀ p ∈ m.tables.printers,
      ¬ (p.enabled = true ∧ p.busy = false ∧ p.type = j.fileType ∧
        j.eligiblePrinters &&& Tables.bit p.id ≠ 0)) ∧
    ∀ (e : Event) (m' : Machine), Step m e m' → ∀ (i k : ℕ) (j j' : Job) (p : Printer),
      m.tables.jobs[i]? = some j → m'.tables.jobs[i]? = some j' →
      j.status = .queued → j'.status = .running → j'.chosenPrinter = some k →
      m.tables.printers[k]? = some p →
      ∀ l ∈ m'.tables.jobs, l.jobid < j'.jobid → l.status = .queued →
        ¬ (p.type = l.fileType ∧ l.eligiblePrinters &&& Tables.bit p.id ≠ 0) := by
  have hsettled := reachable.settled
  refine ⟨?_, ?_⟩
  · rintro hprompt j hj hqueued p hp ⟨henabled, hfree, htype, heligible⟩
    obtain ⟨i, hi⟩ := List.mem_iff_getElem?.mp hj
    rw [Machine.Settled, hprompt] at hsettled
    exact hsettled (i + 1) i (Nat.lt_succ_self i) j hi p hp
      ⟨⟨htype.symm, heligible⟩, hqueued, hfree, henabled⟩
  · rintro e m' hstep i k j j' p hj hj' hqueued hrunning hchosen hp l hl hlt hl' ⟨htype, heligible⟩
    obtain ⟨hscan, q, hq, htakes, hsame⟩ := hstep.starts hj hj' hqueued hrunning hchosen
    obtain rfl : p = q := Option.some.inj (hp.symm.trans hq)
    -- the smaller number stands in front, where the dispatch has been
    obtain ⟨i', hi'⟩ := List.mem_iff_getElem?.mp hl
    have hnumbered : m'.tables.Numbered := reachable.numbered.step hstep
    rw [hnumbered i' l hi', hnumbered i j' hj'] at hlt
    rw [hsame i' hlt] at hi'
    rw [Machine.Settled, hscan] at hsettled
    exact hsettled i' hlt l hi' p (List.mem_of_getElem? hp)
      ⟨⟨htype.symm, heligible⟩, hl', htakes.2.2.1, htakes.2.2.2⟩

/-- The second of two jobs waits for the printer of the first. -/
theorem no_job_waits_example :
    ∃ m, Reachable m ∧ m.control = .prompt ∧ ∃ j ∈ m.tables.jobs, j.status = .queued ∧
      ∀ p ∈ m.tables.printers, ¬ (p.enabled = true ∧ p.busy = false ∧ p.type = j.fileType ∧
        j.eligiblePrinters &&& Tables.bit p.id ≠ 0) := by
  obtain ⟨m, hm, hobserved⟩ := Reachable.of_events
    [.line "type ps".toList, .endDispatch, .line "printer alice ps".toList, .endDispatch,
      .line "enable alice".toList, .endDispatch, .line "print a.ps".toList, .dispatchJob,
      .endDispatch, .line "print b.ps".toList, .dispatchJob, .dispatchJob, .endDispatch]
    (fun m => (m.control, m.tables.jobs[1]?))
    (show _ = some (.prompt, some ⟨1, .queued, "b.ps".toList, "ps".toList, anyPrinter, none⟩) by
      decide +kernel)
  obtain ⟨hprompt, hjob⟩ := Prod.mk.inj hobserved
  have hmem := List.mem_of_getElem? hjob
  exact ⟨m, hm, hprompt, _, hmem, rfl, (no_job_waits hm).1 hprompt _ hmem rfl⟩

end CLanguage.Imprimer
