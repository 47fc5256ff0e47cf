import CLanguage.Xacto.Transaction

/-!
# What the calls on transactions do

One equation for each call without loops, and for `trans_commit` what it can return.
Locking and unlocking cancel out: a call that starts with its mutexes free is a
plain change of the fields.
-/

namespace CLanguage.Xacto

namespace Manager

variable {m m' : Manager} {tp a b : ℕ}

@[simp] theorem trans_setNext :
    (m.setNext tp b).trans a =
      { m.trans a with next := if a = tp then b else (m.trans a).next } := by
  rw [setNext, trans_modify]
  split
  · next h => rw [h]
  · rfl

@[simp] theorem trans_setPrev :
    (m.setPrev tp b).trans a =
      { m.trans a with prev := if a = tp then b else (m.trans a).prev } := by
  rw [setPrev, trans_modify]
  split
  · next h => rw [h]
  · rfl

@[simp] theorem trans_setRefcnt {n : ℕ} :
    (m.setRefcnt tp n).trans a =
      { m.trans a with refcnt := if a = tp then n else (m.trans a).refcnt } := by
  rw [setRefcnt, trans_modify]
  split
  · next h => rw [h]
  · rfl

@[simp] theorem trans_setStatus {status : TransStatus} :
    (m.setStatus tp status).trans a =
      { m.trans a with status := if a = tp then status else (m.trans a).status } := by
  rw [setStatus, trans_modify]
  split
  · next h => rw [h]
  · rfl

@[simp] theorem trans_setMutex {held : Bool} :
    (m.setMutex tp held).trans a =
      { m.trans a with mutex := if a = tp then held else (m.trans a).mutex } := by
  rw [setMutex, trans_modify]
  split
  · next h => rw [h]
  · rfl

@[simp] theorem trans_unlock :
    (m.unlock tp).trans a =
      { m.trans a with mutex := if a = tp then false else (m.trans a).mutex } := trans_setMutex

theorem lock_eq_ok :
    m.lock tp = .ok m' ↔ (m.trans tp).mutex = false ∧ m' = m.setMutex tp true := by
  rw [lock]
  split
  · next h => simp [h]
  · next h => simp [h, eq_comm]

/-- One reference more. -/
def addReference (m : Manager) (tp : ℕ) : Manager := m.setRefcnt tp (increment (m.trans tp).refcnt)

/-- One reference less. -/
def dropReference (m : Manager) (tp : ℕ) : Manager := m.setRefcnt tp (decrement (m.trans tp).refcnt)

/-- Unlinked from the list and freed. -/
def remove (m : Manager) (tp : ℕ) : Manager :=
  ((m.setNext (m.trans tp).prev (m.trans tp).next).setPrev (m.trans tp).next
    (m.trans tp).prev).modify tp fun t => { t with freed := true }

end Manager

open Manager

variable {m m' : Manager} {tp dtp a : ℕ}

/-- A change of the count between lock and unlock. -/
theorem unlock_setRefcnt (hfree : (m.trans tp).mutex = false) (n : ℕ) :
    ((m.setMutex tp true).setRefcnt tp n).unlock tp = m.setRefcnt tp n := by
  refine Manager.ext (funext fun a => ?_) rfl rfl
  simp only [trans_unlock, trans_setRefcnt, trans_setMutex]
  split
  · next h => simp [h, hfree]
  · rfl

theorem transRef_eq (hfree : (m.trans tp).mutex = false) :
    transRef m tp = .ok (m.addReference tp) := by
  rw [transRef, lock_eq_ok.mpr ⟨hfree, rfl⟩]
  refine congrArg Except.ok ?_
  simp only [unlock_setRefcnt hfree, trans_setMutex, addReference]

/-- Dropping the last reference unlinks and frees, dropping another one counts. -/
theorem transUnref_eq (hfree : (m.trans tp).mutex = false) :
    transUnref m tp =
      if decrement (m.trans tp).refcnt = 0 then
        if (m.trans tp).freed then .error .doubleFree else .ok (m.remove tp)
      else .ok (m.dropReference tp) := by
  rw [transUnref, lock_eq_ok.mpr ⟨hfree, rfl⟩]
  simp only [Except.bind, bind, trans_setMutex, if_true]
  split
  · rw [free]
    have hnext : (if tp = (m.trans tp).prev then (m.trans tp).next else (m.trans tp).next) =
        (m.trans tp).next := ite_self _
    simp only [trans_unlock, trans_setNext, trans_setPrev, trans_setMutex, hnext]
    split
    · rfl
    · refine congrArg Except.ok (Manager.ext (funext fun a => ?_) rfl rfl)
      rw [remove, trans_modify, trans_modify]
      simp only [trans_unlock, trans_setNext, trans_setPrev, trans_setMutex]
      split
      · simp [hfree]
      · rfl
  · refine congrArg Except.ok ?_
    simp only [unlock_setRefcnt hfree, dropReference]

theorem transRef_eq_ok :
    transRef m tp = .ok m' ↔ (m.trans tp).mutex = false ∧ m' = m.addReference tp := by
  by_cases hfree : (m.trans tp).mutex = false
  · rw [transRef_eq hfree]
    simp [hfree, eq_comm]
  · rw [transRef, lock, if_pos (by simpa using hfree)]
    simp [hfree, bind, Except.bind]

theorem transUnref_eq_ok :
    transUnref m tp = .ok m' ↔ (m.trans tp).mutex = false ∧
      ((decrement (m.trans tp).refcnt = 0 ∧ (m.trans tp).freed = false ∧ m' = m.remove tp) ∨
        (decrement (m.trans tp).refcnt ≠ 0 ∧ m' = m.dropReference tp)) := by
  by_cases hfree : (m.trans tp).mutex = false
  · rw [transUnref_eq hfree]
    by_cases hlast : decrement (m.trans tp).refcnt = 0
    · rw [if_pos hlast]
      cases (m.trans tp).freed <;> simp [hfree, hlast, eq_comm]
    · rw [if_neg hlast, Except.ok.injEq]
      constructor
      · exact fun h => ⟨hfree, .inr ⟨hlast, h.symm⟩⟩
      · rintro ⟨-, h | h⟩
        · exact absurd h.1 hlast
        · exact h.2.symm
  · rw [transUnref, lock, if_pos (by simpa using hfree)]
    simp [hfree, bind, Except.bind]

@[simp] theorem trans_remove :
    (m.remove tp).trans a =
      { m.trans a with
        next := if a = (m.trans tp).prev then (m.trans tp).next else (m.trans a).next
        prev := if a = (m.trans tp).next then (m.trans tp).prev else (m.trans a).prev
        freed := if a = tp then true else (m.trans a).freed } := by
  rw [remove, trans_modify]
  simp only [trans_setNext, trans_setPrev]
  split
  · next h => rw [h]
  · rfl

/-- A dependency and the reference that goes with it. -/
def addDependency (m : Manager) (tp dtp : ℕ) : Manager :=
  let m := m.modify tp fun t => { t with depends := dtp :: t.depends }
  (m.modify dtp fun t => { t with waitcnt := t.waitcnt + 1 }).addReference dtp

theorem trans_addDependency :
    (addDependency m tp dtp).trans a =
      { m.trans a with
        depends := if a = tp then dtp :: (m.trans a).depends else (m.trans a).depends
        waitcnt := if a = dtp then (m.trans a).waitcnt + 1 else (m.trans a).waitcnt
        refcnt := if a = dtp then increment (m.trans a).refcnt else (m.trans a).refcnt } := by
  rw [addDependency, addReference, trans_setRefcnt]
  simp only [trans_modify]
  by_cases htp : a = tp
  · obtain rfl := htp
    by_cases hdtp : a = dtp
    · simp [hdtp]
    · simp [hdtp]
  · by_cases hdtp : a = dtp
    · obtain rfl := hdtp
      simp [htp]
    · simp [htp, hdtp]

theorem transAddDependency_eq (htp : (m.trans tp).mutex = false)
    (hdtp : (m.trans dtp).mutex = false) (hne : dtp ≠ tp) :
    transAddDependency m tp dtp = .ok (addDependency m tp dtp) := by
  have hdtp' : ((m.setMutex tp true).trans dtp).mutex = false := by
    rw [trans_setMutex, if_neg hne]
    exact hdtp
  rw [transAddDependency, lock_eq_ok.mpr ⟨htp, rfl⟩]
  simp only [Except.bind, bind]
  rw [lock_eq_ok.mpr ⟨hdtp', rfl⟩]
  refine congrArg Except.ok (Manager.ext (funext fun a => ?_) rfl rfl)
  rw [trans_addDependency, trans_unlock, trans_unlock, trans_setRefcnt]
  simp only [trans_modify, trans_setMutex]
  by_cases ha : a = tp
  · obtain rfl := ha
    simp [hne.symm, htp]
  · by_cases ha' : a = dtp
    · obtain rfl := ha'
      simp [ha, hdtp]
    · simp [ha, ha']

/-- The two transactions have to differ: the mutex of one cannot be taken twice. -/
theorem transAddDependency_eq_ok :
    transAddDependency m tp dtp = .ok m' ↔
      (m.trans tp).mutex = false ∧ (m.trans dtp).mutex = false ∧ dtp ≠ tp ∧
        m' = addDependency m tp dtp := by
  constructor
  · intro h
    have h' := h
    rw [transAddDependency] at h
    obtain ⟨s, hlock, h⟩ := Lib.bind_eq_ok h
    obtain ⟨htp, rfl⟩ := lock_eq_ok.mp hlock
    obtain ⟨s, hlock, -⟩ := Lib.bind_eq_ok h
    have hdtp := (lock_eq_ok.mp hlock).1
    rw [trans_setMutex] at hdtp
    have hne : dtp ≠ tp := by
      rintro rfl
      simp at hdtp
    rw [if_neg hne] at hdtp
    rw [transAddDependency_eq htp hdtp hne] at h'
    exact ⟨htp, hdtp, hne, (Except.ok.inj h').symm⟩
  · rintro ⟨htp, hdtp, hne, rfl⟩
    exact transAddDependency_eq htp hdtp hne

theorem trans_transCreate :
    (transCreate m).1.trans a =
      let t : Transaction :=
        if a = m.fresh then
          ⟨m.counter % 2 ^ 32, 1, .pending, [], 0, false, 0, (m.trans 0).prev, false⟩
        else m.trans a
      { t with
        next := if a = (m.trans 0).prev then m.fresh else t.next
        prev := if a = 0 then m.fresh else t.prev } := by
  rw [transCreate]
  simp only [trans_setPrev, trans_setNext, trans_modify]

/-! ### Commit -/

/-- Where the loop of `trans_commit` stands: at a non-empty rest of the dependencies, and unless the
flag is set those before it have committed. -/
def Polled (m : Manager) (tp : ℕ) (d : List ℕ) (flag : Bool) : Prop :=
  d ≠ [] ∧ ∃ seen, (m.trans tp).depends = seen ++ d ∧
    (flag = false → ∀ x ∈ seen, (m.trans x).status = .committed)

theorem polled_start (h : (m.trans tp).depends ≠ []) :
    Polled m tp (m.trans tp).depends false :=
  ⟨h, [], rfl, fun _ _ hx => absurd hx List.not_mem_nil⟩

variable {d : ℕ} {rest d' : List ℕ} {flag flag' : Bool}

theorem Polled.mem (h : Polled m tp (d :: rest) flag) : d ∈ (m.trans tp).depends := by
  obtain ⟨-, seen, hdepends, -⟩ := h
  rw [hdepends]
  exact List.mem_append_right seen List.mem_cons_self

theorem status_of_poll_aborted (h : pollDependency m tp d rest flag = .aborted) :
    (m.trans d).status = .aborted := by
  cases hstatus : (m.trans d).status with
  | pending => cases rest <;> simp [pollDependency, hstatus] at h
  | committed => cases rest <;> cases flag <;> simp [pollDependency, hstatus] at h
  | aborted => rfl

/-- A round that leaves the loop with a commit is at the last dependency with the flag clear. -/
theorem Polled.committed (h : Polled m tp (d :: rest) flag)
    (hpoll : pollDependency m tp d rest flag = .committed) :
    ∀ x ∈ (m.trans tp).depends, (m.trans x).status = .committed := by
  obtain ⟨-, seen, hdepends, hseen⟩ := h
  cases hstatus : (m.trans d).status with
  | pending => cases rest <;> simp [pollDependency, hstatus] at hpoll
  | aborted => simp [pollDependency, hstatus] at hpoll
  | committed =>
    cases rest with
    | cons e rest => simp [pollDependency, hstatus] at hpoll
    | nil =>
      have hflag : flag = false := by
        cases flag
        · rfl
        · simp [pollDependency, hstatus] at hpoll
      intro x hx
      rw [hdepends, List.mem_append, List.mem_singleton] at hx
      rcases hx with hx | rfl
      · exact hseen hflag x hx
      · exact hstatus

theorem Polled.next (h : Polled m tp (d :: rest) flag)
    (hpoll : pollDependency m tp d rest flag = .next d' flag') : Polled m tp d' flag' := by
  have hmem := h.mem
  obtain ⟨-, seen, hdepends, hseen⟩ := h
  cases rest with
  | nil =>
    -- the last dependency: the next round starts over with the flag clear
    have hstart : d' = (m.trans tp).depends ∧ flag' = false := by
      cases hstatus : (m.trans d).status <;> cases flag <;>
        simp [pollDependency, hstatus] at hpoll <;> exact ⟨hpoll.1.symm, hpoll.2⟩
    obtain ⟨rfl, rfl⟩ := hstart
    exact polled_start (List.ne_nil_of_mem hmem)
  | cons e rest =>
    have hnext : d' = e :: rest ∧
        (flag' = false → flag = false ∧ (m.trans d).status = .committed) := by
      cases hstatus : (m.trans d).status <;> cases flag <;>
        simp [pollDependency, hstatus] at hpoll <;> simp [← hpoll.1, ← hpoll.2]
    obtain ⟨rfl, hflag⟩ := hnext
    refine ⟨List.cons_ne_nil e rest, seen ++ [d], by simp [hdepends], fun hclear x hx => ?_⟩
    rw [List.mem_append, List.mem_singleton] at hx
    rcases hx with hx | rfl
    · exact hseen (hflag hclear).1 x hx
    · exact (hflag hclear).2

theorem unlock_setMutex (hfree : (m.trans tp).mutex = false) :
    (m.setMutex tp true).unlock tp = m := by
  refine Manager.ext (funext fun a => ?_) rfl rfl
  simp only [trans_unlock, trans_setMutex]
  split
  · next h => exact Transaction.ext rfl rfl rfl rfl rfl (h ▸ hfree.symm) rfl rfl rfl
  · rfl

theorem unlock_setStatus (hfree : (m.trans tp).mutex = false) (status : TransStatus) :
    ((m.setMutex tp true).setStatus tp status).unlock tp = m.setStatus tp status := by
  refine Manager.ext (funext fun a => ?_) rfl rfl
  simp only [trans_unlock, trans_setStatus, trans_setMutex]
  split
  · next h => simp [h, hfree]
  · rfl

private theorem finishCommit_eq_ok {status : TransStatus} (hfree : (m.trans tp).mutex = false)
    (h : finishCommit (m.setMutex tp true) tp = .ok (m', status)) :
    status = .committed ∧ transUnref (m.setStatus tp .committed) tp = .ok m' := by
  rw [finishCommit, unlock_setStatus hfree] at h
  obtain ⟨s, hunref, h⟩ := Lib.bind_eq_ok h
  obtain ⟨rfl, rfl⟩ := Prod.mk.inj (Except.ok.inj h)
  exact ⟨rfl, hunref⟩

/-- How a commit can return: with an aborted dependency, or with all dependencies committed. Only
in the second case it drops the reference of its caller. -/
inductive Committed (m : Manager) (tp : ℕ) (m' : Manager) : TransStatus → Prop
  | aborted {d : ℕ} (mem : d ∈ (m.trans tp).depends) (status : (m.trans d).status = .aborted)
      (state : m' = m.setStatus tp .aborted) : Committed m tp m' .aborted
  | committed (all : ∀ d ∈ (m.trans tp).depends, (m.trans d).status = .committed)
      (state : transUnref (m.setStatus tp .committed) tp = .ok m') : Committed m tp m' .committed

private theorem pollDependencies_eq_ok {fuel : ℕ} {d : List ℕ} {status : TransStatus}
    (hfree : (m.trans tp).mutex = false) (hpolled : Polled (m.setMutex tp true) tp d flag)
    (h : pollDependencies fuel (m.setMutex tp true) tp d flag = .ok (m', status)) :
    Committed m tp m' status := by
  induction fuel generalizing d flag with
  | zero => exact absurd h nofun
  | succ fuel ih =>
    cases d with
    | nil => exact absurd rfl hpolled.1
    | cons d rest =>
      rw [pollDependencies] at h
      cases hpoll : pollDependency (m.setMutex tp true) tp d rest flag with
      -- the first aborted dependency ends the loop, the mutex is given back
      | aborted =>
        rw [hpoll] at h
        have hmem := hpolled.mem
        have hstatus := status_of_poll_aborted hpoll
        simp only [Except.ok.injEq, Prod.mk.injEq, unlock_setStatus hfree] at h
        obtain ⟨rfl, rfl⟩ := h
        rw [trans_setMutex] at hmem hstatus
        exact .aborted hmem hstatus rfl
      | committed =>
        rw [hpoll] at h
        -- the loop went over all dependencies and found each of them committed
        have hall := hpolled.committed hpoll
        simp only [trans_setMutex] at hall
        obtain ⟨rfl, hunref⟩ := finishCommit_eq_ok hfree h
        exact .committed hall hunref
      | next d' flag' =>
        rw [hpoll] at h
        exact ih (hpolled.next hpoll) h

theorem transCommit_eq_ok {fuel : ℕ} {status : TransStatus}
    (h : transCommit fuel m tp = .ok (m', status)) :
    (m.trans tp).mutex = false ∧ Committed m tp m' status := by
  rw [transCommit] at h
  obtain ⟨s, hlock, h⟩ := Lib.bind_eq_ok h
  obtain ⟨hfree, rfl⟩ := lock_eq_ok.mp hlock
  refine ⟨hfree, ?_⟩
  cases hdepends : ((m.setMutex tp true).trans tp).depends with
  | nil =>
    rw [hdepends] at h
    obtain ⟨rfl, hunref⟩ := finishCommit_eq_ok hfree h
    rw [trans_setMutex] at hdepends
    exact .committed (fun x hx => absurd (hdepends ▸ hx) List.not_mem_nil) hunref
  | cons d rest =>
    rw [hdepends] at h
    refine pollDependencies_eq_ok hfree ?_ h
    rw [← hdepends]
    exact polled_start (hdepends ▸ List.cons_ne_nil d rest)

end CLanguage.Xacto
