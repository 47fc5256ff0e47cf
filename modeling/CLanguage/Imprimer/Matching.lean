import CLanguage.Imprimer.Machine

/-!
# Running jobs and busy printers

`Matched` is the invariant of the tables: a running job has a busy printer that suits it,
and the running jobs and the busy printers correspond one to one. Only the dispatch makes
new pairs, and it takes a printer that is not busy and a job that is not running. No
command sets a printer free.
-/

namespace CLanguage.Imprimer

open CLanguage.Lib

variable {s s' : Tables} {flow : Flow} {m m' : Machine} {e : Event} {i k : ℕ} {j : Job}
  {p : Printer}

/-- The job at place `i` is being printed on the printer at place `k`. -/
def Tables.Prints (s : Tables) (i k : ℕ) : Prop :=
  ∃ j, s.jobs[i]? = some j ∧ j.status = .running ∧ j.chosenPrinter = some k

/-- The tables fit together. -/
structure Matched (s : Tables) : Prop where
  room : s.printers.length ≤ maxPrinters
  id : ∀ (k : ℕ) (p : Printer), s.printers[k]? = some p → p.id = k
  running : ∀ (i : ℕ) (j : Job), s.jobs[i]? = some j → j.status = .running →
    ∃ (k : ℕ) (p : Printer), j.chosenPrinter = some k ∧ s.printers[k]? = some p ∧
      p.busy = true ∧ p.Suits j
  unique : ∀ i i' k, s.Prints i k → s.Prints i' k → i = i'
  busy : ∀ (k : ℕ) (p : Printer), s.printers[k]? = some p → p.busy = true → ∃ i, s.Prints i k

/-! ### Tables that grow -/

/-- Adding jobs that do not run, or stopping to run jobs that do not run either, changes no pair. -/
theorem Matched.of_jobs (matched : Matched s) {jobs : List Job}
    (same : ∀ (i : ℕ) (j : Job), j.status = .running →
      (jobs[i]? = some j ↔ s.jobs[i]? = some j)) :
    Matched { s with jobs := jobs } := by
  have hprints : ∀ i k, Tables.Prints { s with jobs := jobs } i k ↔ s.Prints i k := by
    intro i k
    constructor
    · rintro ⟨j, hj, hrunning, hchosen⟩
      exact ⟨j, (same i j hrunning).mp hj, hrunning, hchosen⟩
    · rintro ⟨j, hj, hrunning, hchosen⟩
      exact ⟨j, (same i j hrunning).mpr hj, hrunning, hchosen⟩
  refine ⟨matched.room, matched.id, ?_, ?_, ?_⟩
  · intro i j hj hrunning
    exact matched.running i j ((same i j hrunning).mp hj) hrunning
  · intro i i' k h h'
    exact matched.unique i i' k ((hprints i k).mp h) ((hprints i' k).mp h')
  · intro k p hp hbusy
    obtain ⟨i, hi⟩ := matched.busy k p hp hbusy
    exact ⟨i, (hprints i k).mpr hi⟩

/-- Printers may be added that are not busy, and be enabled and disabled. -/
theorem Matched.of_printers (matched : Matched s) {printers : List Printer}
    (room : printers.length ≤ maxPrinters)
    (id : ∀ (k : ℕ) (p : Printer), printers[k]? = some p → p.id = k)
    (keep : ∀ (k : ℕ) (p : Printer), s.printers[k]? = some p → ∃ p' : Printer,
      printers[k]? = some p' ∧ p'.busy = p.busy ∧ p'.type = p.type ∧ p'.id = p.id)
    (old : ∀ (k : ℕ) (p' : Printer), printers[k]? = some p' → p'.busy = true →
      ∃ p : Printer, s.printers[k]? = some p ∧ p.busy = true) :
    Matched { s with printers := printers } := by
  refine ⟨room, id, ?_, matched.unique, ?_⟩
  · intro i j hj hrunning
    obtain ⟨k, p, hchosen, hp, hbusy, hsuits⟩ := matched.running i j hj hrunning
    obtain ⟨p', hp', hbusy', htype, hid⟩ := keep k p hp
    refine ⟨k, p', hchosen, hp', hbusy'.trans hbusy, ?_⟩
    rw [Printer.Suits, htype, hid]
    exact hsuits
  · intro k p' hp' hbusy'
    obtain ⟨p, hp, hbusy⟩ := old k p' hp' hbusy'
    exact matched.busy k p hp hbusy

/-! ### The loop of `enable` and `disable` -/

theorem length_setEnabled (enabled : Bool) (name : Str) (printers : List Printer) :
    (Tables.setEnabled enabled name printers).length = printers.length := by
  induction printers with
  | nil => rfl
  | cons p printers ih =>
    rw [Tables.setEnabled]
    split
    · split
      · rfl
      · simp only [List.length_cons, ih]
    · simp only [List.length_cons, ih]

/-- Nothing but the flag `enabled` changes. -/
theorem getElem?_setEnabled (enabled : Bool) (name : Str) (printers : List Printer) (k : ℕ) :
    ∃ flag : Printer → Bool, (Tables.setEnabled enabled name printers)[k]? =
      printers[k]?.map fun p => { p with enabled := flag p } := by
  induction printers generalizing k with
  | nil => exact ⟨Printer.enabled, rfl⟩
  | cons p printers ih =>
    have hsame : ∀ o : Option Printer, o = o.map fun p => { p with enabled := p.enabled } :=
      fun o => (Option.map_id' (x := o)).symm
    rw [Tables.setEnabled]
    split
    · split
      · exact ⟨Printer.enabled, hsame _⟩
      · cases k with
        | zero => exact ⟨fun _ => enabled, rfl⟩
        | succ k => exact ih k
    · cases k with
      | zero => exact ⟨Printer.enabled, rfl⟩
      | succ k => exact ih k

/-! ### Commands -/

theorem getElem?_append_singleton {α : Type} {as : List α} {a b : α} {i : ℕ} :
    (as ++ [a])[i]? = some b ↔ as[i]? = some b ∨ (i = as.length ∧ b = a) := by
  rw [List.getElem?_append]
  split
  · next h => simp [Nat.ne_of_lt h]
  · next h =>
    rw [List.getElem?_eq_none (Nat.le_of_not_lt h), List.getElem?_singleton]
    constructor
    · intro hb
      obtain ⟨hi, hab⟩ := Option.ite_none_right_eq_some.mp hb
      exact .inr ⟨by omega, (Option.some.inj hab).symm⟩
    · rintro (hb | ⟨rfl, rfl⟩)
      · exact absurd hb nofun
      · rw [Nat.sub_self, if_pos rfl]

theorem Matched.declares (matched : Matched s) (h : Declares s s' flow) : Matched s' := by
  cases h with
  | keep | reject => exact matched
  | type t => exact ⟨matched.room, matched.id, matched.running, matched.unique, matched.busy⟩
  | conversion conv => exact ⟨matched.room, matched.id, matched.running, matched.unique, matched.busy⟩
  | printer name type room =>
    refine matched.of_printers ?_ ?_ ?_ ?_
    · rw [List.length_append]
      exact room
    · intro k p hp
      obtain hp | ⟨rfl, rfl⟩ := getElem?_append_singleton.mp hp
      · exact matched.id k p hp
      · rfl
    · intro k p hp
      exact ⟨p, getElem?_append_singleton.mpr (.inl hp), rfl, rfl, rfl⟩
    · intro k p hp hbusy
      obtain hp | ⟨-, rfl⟩ := getElem?_append_singleton.mp hp
      · exact ⟨p, hp, hbusy⟩
      · exact absurd hbusy nofun
  | print fileName fileType eligible room =>
    refine matched.of_jobs fun i j hrunning => ?_
    rw [getElem?_append_singleton]
    refine ⟨fun h => h.resolve_right ?_, .inl⟩
    -- the new job is queued
    rintro ⟨-, rfl⟩
    exact absurd hrunning nofun

/-- A job that runs is not cancelled, and no job starts to run. -/
theorem cancelJob_eq_running {name : Str} (h : j.status = .running) {j' : Job} :
    Tables.cancelJob name j' = j ↔ j' = j := by
  rw [Tables.cancelJob]
  split
  · next hc =>
    constructor
    · rintro rfl
      exact absurd h nofun
    · rintro rfl
      exact absurd (hc.2.symm.trans h) nofun
  · exact Iff.rfl

theorem Matched.effect (matched : Matched s) (h : Effect s s' flow) : Matched s' := by
  cases h with
  | declare h => exact matched.declares h
  | leave => exact matched
  | cancel name =>
    -- a running job is not canceled
    refine matched.of_jobs fun i j hrunning => ?_
    rw [List.getElem?_map, Option.map_eq_some_iff]
    constructor
    · rintro ⟨j', hj', hcancel⟩
      rwa [← (cancelJob_eq_running hrunning).mp hcancel]
    · exact fun hj => ⟨j, hj, (cancelJob_eq_running hrunning).mpr rfl⟩
  | setEnabled enabled name =>
    -- only the flag of printers changes
    refine matched.of_printers ?_ ?_ ?_ ?_
    · rw [length_setEnabled]
      exact matched.room
    · intro k p' hp'
      obtain ⟨flag, hflag⟩ := getElem?_setEnabled enabled name s.printers k
      obtain ⟨p, hp, rfl⟩ := Option.map_eq_some_iff.mp (hflag.symm.trans hp')
      exact matched.id k p hp
    · intro k p hp
      obtain ⟨flag, hflag⟩ := getElem?_setEnabled enabled name s.printers k
      rw [hflag, hp]
      exact ⟨_, rfl, rfl, rfl, rfl⟩
    · intro k p' hp' hbusy
      obtain ⟨flag, hflag⟩ := getElem?_setEnabled enabled name s.printers k
      obtain ⟨p, hp, rfl⟩ := Option.map_eq_some_iff.mp (hflag.symm.trans hp')
      exact ⟨p, hp, hbusy⟩

/-! ### The dispatch -/

/-- A job starts on a printer that nobody uses. -/
theorem Matched.start (matched : Matched s) (hj : s.jobs[i]? = some j)
    (hp : s.printers[k]? = some p) (takes : p.Takes j) :
    Matched { s with printers := s.printers.modify k Printer.start
                     jobs := s.jobs.set i (j.start k) } := by
  obtain ⟨hsuits, hqueued, hfree, -⟩ := takes
  have hi : i < s.jobs.length := (List.getElem?_eq_some_iff.mp hj).1
  -- before, nothing is printed on `k`
  have hunused : ∀ i', ¬ s.Prints i' k := by
    rintro i' ⟨j', hj', hrunning, hchosen⟩
    obtain ⟨k', p', hchosen', hp', hbusy, -⟩ := matched.running i' j' hj' hrunning
    obtain rfl : k = k' := Option.some.inj (hchosen.symm.trans hchosen')
    obtain rfl : p = p' := Option.some.inj (hp.symm.trans hp')
    exact Bool.false_ne_true (hfree.symm.trans hbusy)
  have hprinter : ∀ (k' : ℕ) (q : Printer), s.printers[k']? = some q →
      (s.printers.modify k Printer.start)[k']? = some (if k = k' then q.start else q) := by
    intro k' q hq
    rw [List.getElem?_modify, hq]
    rfl
  have hprints : ∀ i' k', Tables.Prints { s with
      printers := s.printers.modify k Printer.start, jobs := s.jobs.set i (j.start k) } i' k' ↔
      (i' = i ∧ k' = k) ∨ (i' ≠ i ∧ s.Prints i' k') := by
    intro i' k'
    by_cases h : i' = i
    · subst h
      simp only [Tables.Prints, List.getElem?_set_self hi]
      constructor
      · rintro ⟨_, ⟨⟩, -, ⟨⟩⟩
        exact .inl ⟨trivial, rfl⟩
      · rintro (⟨-, rfl⟩ | ⟨hne, -⟩)
        · exact ⟨j.start k', rfl, rfl, rfl⟩
        · exact absurd rfl hne
    · simp [Tables.Prints, List.getElem?_set_ne (Ne.symm h), h]
  refine ⟨?_, ?_, ?_, ?_, ?_⟩
  · rw [List.length_modify]
    exact matched.room
  · intro k' q' hq'
    rw [List.getElem?_modify] at hq'
    obtain ⟨q, hq, rfl⟩ := Option.map_eq_some_iff.mp hq'
    rw [← matched.id k' q hq]
    split
    · rfl
    · rfl
  · intro i' j' hj' hrunning
    by_cases h : i = i'
    · subst h
      rw [List.getElem?_set_self hi] at hj'
      cases hj'
      refine ⟨k, p.start, rfl, ?_, rfl, hsuits⟩
      rw [hprinter k p hp, if_pos rfl]
    · rw [List.getElem?_set_ne h] at hj'
      obtain ⟨k', q, hchosen, hq, hbusy, hq'⟩ := matched.running i' j' hj' hrunning
      have hne : k ≠ k' := by
        rintro rfl
        exact hunused i' ⟨j', hj', hrunning, hchosen⟩
      refine ⟨k', q, hchosen, ?_, hbusy, hq'⟩
      rw [hprinter k' q hq, if_neg hne]
  · intro i₁ i₂ k' h₁ h₂
    obtain ⟨rfl, rfl⟩ | ⟨-, hold₁⟩ := (hprints i₁ k').mp h₁
    · obtain ⟨rfl, -⟩ | ⟨-, hold₂⟩ := (hprints i₂ k').mp h₂
      · rfl
      · exact absurd hold₂ (hunused i₂)
    · obtain ⟨-, rfl⟩ | ⟨-, hold₂⟩ := (hprints i₂ k').mp h₂
      · exact absurd hold₁ (hunused i₁)
      · exact matched.unique i₁ i₂ k' hold₁ hold₂
  · intro k' q' hq' hbusy
    rw [List.getElem?_modify] at hq'
    obtain ⟨q, hq, rfl⟩ := Option.map_eq_some_iff.mp hq'
    by_cases h : k = k'
    · exact ⟨i, (hprints i k').mpr (.inl ⟨rfl, h.symm⟩)⟩
    · rw [if_neg h] at hbusy
      obtain ⟨i', hi'⟩ := matched.busy k' q hq hbusy
      refine ⟨i', (hprints i' k').mpr (.inr ⟨?_, hi'⟩)⟩
      -- the job that starts was not running
      rintro rfl
      obtain ⟨j', hj', hrunning, -⟩ := hi'
      obtain rfl : j = j' := Option.some.inj (hj.symm.trans hj')
      exact absurd (hqueued.symm.trans hrunning) nofun

theorem Matched.dispatchJob (matched : Matched s) (i : ℕ) : Matched (s.dispatchJob i) := by
  obtain ⟨h, -⟩ | ⟨j, k, p, hj, hp, htakes, h⟩ := dispatchJob_cases s i
  · rw [h]
    exact matched
  · rw [h]
    exact matched.start hj hp htakes

/-! ### Runs -/

theorem matched_initial : Matched .initial :=
  ⟨Nat.zero_le _, nofun, nofun, fun _ _ _ ⟨_, h, _⟩ => absurd h nofun, nofun⟩

theorem Matched.step (step : Step m e m') (matched : Matched m.tables) : Matched m'.tables := by
  cases step with
  | line h => exact matched.effect (effect_of_line h)
  | dispatchJob => exact matched.dispatchJob _
  | endDispatch => exact matched

theorem Reachable.matched (reachable : Reachable m) : Matched m.tables := by
  obtain ⟨s, events, ⟨lines, rest, hstart⟩, hrun⟩ := reachable
  have hs : Matched s :=
    readLines_invariant (fun _ _ _ hs h => hs.declares h) hstart matched_initial
  exact hrun.invariant (I := fun m => Matched m.tables) (fun _ _ _ hm h => hm.step h) hs

/-- In every state of the spooler a running job has a printer of its own: one that it chose, that
is busy, prints files of the job's type and is eligible for it. No other running job has chosen
it, and every busy printer was chosen by a running job. -/
theorem running_jobs_have_printers (reachable : Reachable m) :
    (∀ (i : ℕ) (j : Job), m.tables.jobs[i]? = some j → j.status = .running →
      ∃ (k : ℕ) (p : Printer), j.chosenPrinter = some k ∧ m.tables.printers[k]? = some p ∧
        p.busy = true ∧ p.type = j.fileType ∧ j.eligiblePrinters &&& Tables.bit p.id ≠ 0) ∧
    (∀ (i i' : ℕ) (j j' : Job), m.tables.jobs[i]? = some j → m.tables.jobs[i']? = some j' →
      j.status = .running → j'.status = .running → j.chosenPrinter = j'.chosenPrinter → i = i') ∧
    (∀ (k : ℕ) (p : Printer), m.tables.printers[k]? = some p → p.busy = true →
      ∃! i : ℕ, ∃ j : Job, m.tables.jobs[i]? = some j ∧ j.status = .running ∧ j.chosenPrinter = some k) := by
  have hmatched := reachable.matched
  refine ⟨?_, ?_, ?_⟩
  · intro i j hj hrunning
    obtain ⟨k, p, hchosen, hp, hbusy, htype, heligible⟩ := hmatched.running i j hj hrunning
    exact ⟨k, p, hchosen, hp, hbusy, htype.symm, heligible⟩
  · intro i i' j j' hj hj' hrunning hrunning' hsame
    obtain ⟨k, -, hchosen, -⟩ := hmatched.running i j hj hrunning
    exact hmatched.unique i i' k ⟨j, hj, hrunning, hchosen⟩
      ⟨j', hj', hrunning', hsame.symm.trans hchosen⟩
  · intro k p hp hbusy
    obtain ⟨i, hi⟩ := hmatched.busy k p hp hbusy
    exact ⟨i, hi, fun i' hi' => hmatched.unique i' i k hi' hi⟩

/-- A job that is printed. -/
theorem running_jobs_have_printers_example :
    ∃ m, Reachable m ∧ ∃ (j : Job) (k : ℕ) (p : Printer), m.tables.jobs[0]? = some j ∧
      j.status = .running ∧ m.tables.printers[k]? = some p ∧ p.busy = true := by
  obtain ⟨m, hm, hjob⟩ := Reachable.of_events
    [.line "type ps".toList, .endDispatch, .line "printer alice ps".toList, .endDispatch,
      .line "enable alice".toList, .endDispatch, .line "print a.ps".toList, .dispatchJob]
    (fun m => m.tables.jobs[0]?)
    (show _ = some (some ⟨0, .running, "a.ps".toList, "ps".toList, anyPrinter, some 0⟩) by
      decide +kernel)
  obtain ⟨k, p, -, hp, hbusy, -⟩ := (running_jobs_have_printers hm).1 0 _ hjob rfl
  exact ⟨m, hm, _, k, p, hjob, rfl, hp, hbusy⟩

end CLanguage.Imprimer
