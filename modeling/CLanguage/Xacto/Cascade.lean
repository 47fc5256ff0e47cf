import CLanguage.Xacto.Calls

/-!
# The cascade of an abort

`Returns` is the meaning of a call of `trans_abort` that returns, without its round
count: one rule for each way through the function and through its walk over the
list. Facts about every cascade are proved by induction on it.

## Main results

* `Returns.of_abort`, `Returns.abort_fuel` — a call returns in some number of rounds
  exactly if it returns
* `Returns.invariant` — what the single writes preserve, every cascade preserves
-/

namespace CLanguage.Xacto

open Manager

/-- What a call is about to do: abort a transaction, or go on with the walk of one at a node. -/
inductive Task
  | abort (tp : ℕ)
  | walk (tp a : ℕ)

variable {m m' m₁ : Manager} {tp a b : ℕ}

/-- The dependencies that the walk of `tp` looks at in `b` include `tp`. -/
def Finds (m : Manager) (tp b : ℕ) : Prop :=
  ∃ d ∈ (m.trans b).depends.take 2, (m.trans d).id = (m.trans tp).id

/-- The walk of `tp` goes past `b`. -/
def Passes (m : Manager) (tp b : ℕ) : Prop :=
  (m.trans b).id = (m.trans tp).id ∨ (¬ Finds m tp b ∧ (m.trans b).depends.length < 2)

instance (m : Manager) (tp b : ℕ) : Decidable (Finds m tp b) :=
  inferInstanceAs (Decidable (∃ d ∈ _, _))

instance (m : Manager) (tp b : ℕ) : Decidable (Passes m tp b) := instDecidableOr

/-- `trans_abort` and its walk, where they return. -/
inductive Returns : Manager → Task → Manager → Prop
  | again {m m' : Manager} {tp : ℕ} (free : (m.trans tp).mutex = false)
      (status : (m.trans tp).status = .aborted) (unref : transUnref m tp = .ok m') :
      Returns m (.abort tp) m'
  | cascade {m m₁ m' : Manager} {tp : ℕ} (free : (m.trans tp).mutex = false)
      (status : (m.trans tp).status = .pending)
      (walk : Returns ((m.setMutex tp true).setStatus tp .aborted) (.walk tp 0) m₁)
      (unref : transUnref (m₁.unlock tp) tp = .ok m') : Returns m (.abort tp) m'
  | done {m : Manager} {tp a : ℕ} (last : (m.trans a).next = 0) : Returns m (.walk tp a) m
  | pass {m m' : Manager} {tp a b : ℕ} (link : (m.trans a).next = b) (node : b ≠ 0)
      (passes : Passes m tp b) (walk : Returns m (.walk tp b) m') : Returns m (.walk tp a) m'
  | dependent {m m₁ m' : Manager} {tp a b : ℕ} (link : (m.trans a).next = b) (node : b ≠ 0)
      (other : (m.trans b).id ≠ (m.trans tp).id) (finds : Finds m tp b)
      (abort : Returns m (.abort b) m₁) (walk : Returns m₁ (.walk tp (m₁.trans a).next) m') :
      Returns m (.walk tp a) m'

/-! ### The rounds -/

/-- The inner loop returns with what it looks at first, or not at all. -/
theorem scanDependencies_eq_ok {fuel : ℕ} {rest : List ℕ} {found : Bool}
    (h : scanDependencies fuel m tp rest = .ok found) :
    (rest = [] ∧ found = false) ∨
      ∃ d rest', rest = d :: rest' ∧ (m.trans d).id = (m.trans tp).id ∧ found = true := by
  induction fuel with
  | zero => exact absurd h nofun
  | succ fuel ih =>
    cases rest with
    | nil =>
      rw [scanDependencies] at h
      exact .inl ⟨rfl, (Except.ok.inj h).symm⟩
    | cons d rest =>
      rw [scanDependencies] at h
      split at h
      · next hid => exact .inr ⟨d, rest, rfl, hid, (Except.ok.inj h).symm⟩
      · exact ih h

private theorem returns_of_fuel (fuel : ℕ) :
    (∀ m tp m', transAbort fuel m tp = .ok m' → Returns m (.abort tp) m') ∧
      ∀ m tp a m', abortDependents fuel m tp a = .ok m' → Returns m (.walk tp a) m' := by
  induction fuel with
  | zero => exact ⟨fun _ _ _ h => absurd h nofun, fun _ _ _ _ h => absurd h nofun⟩
  -- each function calls the other with less fuel
  | succ fuel ih =>
    obtain ⟨habort, hwalk⟩ := ih
    constructor
    · intro m tp m' h
      rw [transAbort] at h
      obtain ⟨s, hlock, h⟩ := Lib.bind_eq_ok h
      obtain ⟨hfree, rfl⟩ := lock_eq_ok.mp hlock
      have hstatus : ((m.setMutex tp true).trans tp).status = (m.trans tp).status := by
        rw [trans_setMutex]
      simp only [hstatus] at h
      cases hcase : (m.trans tp).status with
      | committed =>
        simp only [hcase] at h
        exact absurd h nofun
      | aborted =>
        simp only [hcase, unlock_setMutex hfree] at h
        exact .again hfree hcase h
      | pending =>
        simp only [hcase] at h
        obtain ⟨m₁, hrun, h⟩ := Lib.bind_eq_ok h
        exact .cascade hfree hcase (hwalk _ _ _ _ hrun) h
    · intro m tp a m' h
      rw [abortDependents] at h
      split at h
      · next hlast =>
        obtain rfl := Except.ok.inj h
        exact .done hlast
      · next hnode =>
        split at h
        · next hid => exact .pass rfl hnode (.inl hid) (hwalk _ _ _ _ h)
        · next hid =>
          split at h
          · next hnil =>
            refine .pass rfl hnode (.inr ⟨?_, by simp [hnil]⟩) (hwalk _ _ _ _ h)
            rintro ⟨d, hd, -⟩
            simp [hnil] at hd
          · next d rest hdepends =>
            split at h
            · next hfirst =>
              obtain ⟨m₁, hrun, h⟩ := Lib.bind_eq_ok h
              exact .dependent rfl hnode hid ⟨d, by simp [hdepends], hfirst⟩ (habort _ _ _ hrun)
                (hwalk _ _ _ _ h)
            · next hfirst =>
              obtain ⟨found, hscan, h⟩ := Lib.bind_eq_ok h
              -- a scan that ends has no second dependency, or finds it to be `tp`
              rcases scanDependencies_eq_ok hscan with ⟨rfl, rfl⟩ | ⟨e, rest', rfl, hsecond, rfl⟩
              · refine .pass rfl hnode (.inr ⟨?_, by simp [hdepends]⟩) (hwalk _ _ _ _ h)
                rintro ⟨e, he, hid⟩
                obtain rfl : e = d := by simpa [hdepends] using he
                exact hfirst hid
              · obtain ⟨m₁, hrun, h⟩ := Lib.bind_eq_ok h
                exact .dependent rfl hnode hid ⟨e, by simp [hdepends], hsecond⟩
                  (habort _ _ _ hrun) (hwalk _ _ _ _ h)

theorem Returns.of_abort {fuel : ℕ} (h : transAbort fuel m tp = .ok m') :
    Returns m (.abort tp) m' := (returns_of_fuel fuel).1 m tp m' h

theorem abortDependents_pass (fuel : ℕ) (hlink : (m.trans a).next = b) (hnode : b ≠ 0)
    (hpass : Passes m tp b) :
    abortDependents (fuel + 2) m tp a = abortDependents (fuel + 1) m tp b := by
  rw [abortDependents]
  simp only [hlink, if_neg hnode]
  rcases hpass with hid | ⟨hfinds, hlength⟩
  · rw [if_pos hid]
  · split
    · rfl
    · split
      · rfl
      · next d rest hdepends =>
        obtain rfl : rest = [] := by
          rw [hdepends, List.length_cons] at hlength
          exact List.eq_nil_of_length_eq_zero (by omega)
        have hfirst : (m.trans d).id ≠ (m.trans tp).id := fun h => hfinds ⟨d, by simp [hdepends], h⟩
        rw [if_neg hfirst, scanDependencies]
        rfl

theorem abortDependents_dependent (fuel : ℕ) (hlink : (m.trans a).next = b) (hnode : b ≠ 0)
    (hother : (m.trans b).id ≠ (m.trans tp).id) (hfinds : Finds m tp b) :
    abortDependents (fuel + 2) m tp a =
      transAbort (fuel + 1) m b >>= fun m => abortDependents (fuel + 1) m tp (m.trans a).next := by
  rw [abortDependents]
  simp only [hlink, if_neg hnode, if_neg hother]
  obtain ⟨d, hd, hid⟩ := hfinds
  split
  · next hnil => simp [hnil] at hd
  · next e rest hdepends =>
    split
    · rfl
    · next hfirst =>
      cases rest with
      | nil =>
        obtain rfl : d = e := by simpa [hdepends] using hd
        exact absurd hid hfirst
      | cons e' rest =>
        -- not the first dependency, so the second, which is all that `Finds` allows
        have hsecond : (m.trans e').id = (m.trans tp).id := by
          have hd' : d = e ∨ d = e' := by simpa [hdepends] using hd
          rcases hd' with rfl | rfl
          · exact absurd hid hfirst
          · exact hid
        rw [scanDependencies, if_pos hsecond]
        rfl

theorem transAbort_again {fuel : ℕ} (hfree : (m.trans tp).mutex = false)
    (hstatus : (m.trans tp).status = .aborted) :
    transAbort (fuel + 1) m tp = transUnref m tp := by
  rw [transAbort, lock_eq_ok.mpr ⟨hfree, rfl⟩]
  simp only [Except.bind, bind, trans_setMutex, hstatus, unlock_setMutex hfree]

theorem transAbort_cascade {fuel : ℕ} (hfree : (m.trans tp).mutex = false)
    (hstatus : (m.trans tp).status = .pending) :
    transAbort (fuel + 1) m tp =
      abortDependents fuel ((m.setMutex tp true).setStatus tp .aborted) tp 0 >>=
        fun m => transUnref (m.unlock tp) tp := by
  rw [transAbort, lock_eq_ok.mpr ⟨hfree, rfl⟩]
  simp only [Except.bind, bind, trans_setMutex, hstatus]

/-- A task, with a number of rounds. -/
def Task.run (fuel : ℕ) (m : Manager) : Task → Except Stop Manager
  | .abort tp => transAbort fuel m tp
  | .walk tp a => abortDependents fuel m tp a

/-- A task that returns does so from some number of rounds on. -/
theorem Returns.exists_fuel {task : Task} (h : Returns m task m') :
    ∃ enough, ∀ fuel, task.run (enough + fuel) m = .ok m' := by
  induction h with
  | again free status unref =>
    refine ⟨1, fun fuel => ?_⟩
    rw [Nat.add_comm, Task.run, transAbort_again free status]
    exact unref
  | cascade free status walk unref ih =>
    obtain ⟨enough, hwalk⟩ := ih
    refine ⟨enough + 1, fun fuel => ?_⟩
    rw [Nat.add_right_comm, Task.run, transAbort_cascade free status]
    exact Lib.bind_ok (hwalk fuel) unref
  | done last =>
    refine ⟨1, fun fuel => ?_⟩
    rw [Nat.add_comm, Task.run, abortDependents]
    exact if_pos last
  | pass link node passes walk ih =>
    obtain ⟨enough, hwalk⟩ := ih
    refine ⟨enough + 2, fun fuel => ?_⟩
    rw [Nat.add_right_comm, Task.run, abortDependents_pass (enough + fuel) link node passes]
    exact hwalk (fuel + 1)
  | dependent link node other finds abort walk iha ihw =>
    obtain ⟨enough, habort⟩ := iha
    obtain ⟨enough', hwalk⟩ := ihw
    refine ⟨enough + enough' + 2, fun fuel => ?_⟩
    rw [Nat.add_right_comm, Task.run,
      abortDependents_dependent (enough + enough' + fuel) link node other finds]
    -- both calls get the same fuel, the sum is enough for each
    have habort' := habort (enough' + fuel + 1)
    have hwalk' := hwalk (enough + fuel + 1)
    rw [show enough + (enough' + fuel + 1) = enough + enough' + fuel + 1 by omega] at habort'
    rw [show enough' + (enough + fuel + 1) = enough + enough' + fuel + 1 by omega] at hwalk'
    exact Lib.bind_ok habort' hwalk'

/-! ### What every cascade preserves -/

/-- A relation between the states before and after that holds of every write, and of one write
after another, holds of every cascade. -/
theorem Returns.relates {P : Manager → Manager → Prop} (refl : ∀ m, P m m)
    (trans : ∀ {m m₁ m'}, P m m₁ → P m₁ m' → P m m')
    (mutex : ∀ m tp held, P m (m.setMutex tp held))
    (abort : ∀ m tp, (m.trans tp).status = .pending → P m (m.setStatus tp .aborted))
    (unref : ∀ m tp m', transUnref m tp = .ok m' → P m m') {task : Task}
    (h : Returns m task m') : P m m' := by
  induction h with
  | again free status last => exact unref _ _ _ last
  | @cascade m m₁ m' tp free status walk last ih =>
    have hpending : ((m.setMutex tp true).trans tp).status = .pending := by
      rw [trans_setMutex]
      exact status
    have hbegin := trans (mutex m tp true) (abort _ tp hpending)
    exact trans (trans hbegin ih) (trans (mutex m₁ tp false) (unref _ _ _ last))
  | done last => exact refl _
  | pass link node passes walk ih => exact ih
  | dependent link node other finds abort walk iha ihw => exact trans iha ihw

/-- What the calls of one transaction's clients leave alone in all others, and a cascade leaves
alone everywhere. -/
structure SameGraph (m m' : Manager) : Prop where
  id : ∀ a, (m'.trans a).id = (m.trans a).id
  depends : ∀ a, (m'.trans a).depends = (m.trans a).depends
  fresh : m'.fresh = m.fresh
  counter : m'.counter = m.counter

theorem SameGraph.refl (m : Manager) : SameGraph m m :=
  ⟨fun _ => rfl, fun _ => rfl, rfl, rfl⟩

theorem SameGraph.trans (h : SameGraph m m₁) (h' : SameGraph m₁ m') : SameGraph m m' where
  id a := (h'.id a).trans (h.id a)
  depends a := (h'.depends a).trans (h.depends a)
  fresh := h'.fresh.trans h.fresh
  counter := h'.counter.trans h.counter

theorem sameGraph_setMutex {held : Bool} : SameGraph m (m.setMutex tp held) :=
  ⟨fun _ => by rw [trans_setMutex], fun _ => by rw [trans_setMutex], rfl, rfl⟩

theorem sameGraph_setStatus {status : TransStatus} : SameGraph m (m.setStatus tp status) :=
  ⟨fun _ => by rw [trans_setStatus], fun _ => by rw [trans_setStatus], rfl, rfl⟩

theorem sameGraph_unref (h : transUnref m tp = .ok m') : SameGraph m m' := by
  obtain ⟨-, ⟨-, -, rfl⟩ | ⟨-, rfl⟩⟩ := transUnref_eq_ok.mp h
  · exact ⟨fun _ => by rw [trans_remove], fun _ => by rw [trans_remove], rfl, rfl⟩
  · exact ⟨fun _ => by rw [dropReference, trans_setRefcnt],
      fun _ => by rw [dropReference, trans_setRefcnt], rfl, rfl⟩

theorem Returns.sameGraph {task : Task} (h : Returns m task m') : SameGraph m m' :=
  h.relates SameGraph.refl SameGraph.trans (fun _ _ _ => sameGraph_setMutex)
    (fun _ _ _ => sameGraph_setStatus) fun _ _ _ => sameGraph_unref

theorem status_unref (h : transUnref m tp = .ok m') (a : ℕ) :
    (m'.trans a).status = (m.trans a).status := by
  obtain ⟨-, ⟨-, -, rfl⟩ | ⟨-, rfl⟩⟩ := transUnref_eq_ok.mp h
  · rw [trans_remove]
  · rw [dropReference, trans_setRefcnt]

/-- A cascade only aborts what was pending. -/
theorem Returns.status {task : Task} (h : Returns m task m') (a : ℕ) :
    (m'.trans a).status = (m.trans a).status ∨
      ((m.trans a).status = .pending ∧ (m'.trans a).status = .aborted) := by
  refine h.relates (P := fun m m' => (m'.trans a).status = (m.trans a).status ∨
      ((m.trans a).status = .pending ∧ (m'.trans a).status = .aborted))
    (fun _ => .inl rfl) ?_ ?_ ?_ ?_
  · intro m m₁ m' h h'
    rcases h with h | ⟨hp, ha⟩
    · rw [h] at h'
      exact h'
    · rcases h' with h' | ⟨hp', -⟩
      · exact .inr ⟨hp, h'.trans ha⟩
      · exact absurd (ha.symm.trans hp') nofun
  · intro m tp held
    rw [trans_setMutex]
    exact .inl rfl
  · intro m tp hpending
    rw [trans_setStatus]
    by_cases ha : a = tp
    · exact .inr ⟨ha ▸ hpending, if_pos ha⟩
    · exact .inl (if_neg ha)
  · intro m tp m' hunref
    exact .inl (status_unref hunref a)

end CLanguage.Xacto
