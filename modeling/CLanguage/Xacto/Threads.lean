import CLanguage.Lib.Run
import CLanguage.Xacto.Cascade

/-!
# Threads

Any number of threads that call the transaction manager at the same time. A call
without a loop is one step. `trans_commit` and `trans_abort` are cut where other
threads can come in between: the commit at every status that it reads, and between
what it reads and what it writes; the abort at every node of its walk. Both hold the
mutex of their transaction meanwhile, and the reference of the caller is dropped in a
step of its own.

A thread whose way is blocked takes no step: one that waits for a mutex, one in the
inner loop of `trans_abort` that never ends, and one that is about to end the process
because its transaction has committed.

## Main definitions

* `Frame`, `Machine` — where the threads stand, and the memory they share
* `Machine.Step` — the steps, labelled with the thread and what it does

## Main results

* `run_of_commit`, `run_of_abort` — a call that nobody disturbs is a run of its thread
-/

namespace CLanguage.Xacto

open Manager Lib

/-- Where a thread stands in a call, with the local variables that it still needs. -/
inductive Frame
  /-- in the loop of `trans_commit`, at the first of the dependencies -/
  | poll (tp : ℕ) (d : List ℕ) (flag : Bool)
  /-- in `trans_commit`, about to write the status -/
  | commit (tp : ℕ)
  /-- in `trans_commit`, with a dependency that had aborted -/
  | giveUp (tp d : ℕ)
  /-- about to lock in `trans_abort` -/
  | abort (tp : ℕ)
  /-- in the walk of `trans_abort` -/
  | walk (tp a : ℕ)
  /-- in the walk of `trans_abort`, back from the abort of the node behind `a` -/
  | advance (tp a : ℕ)
  /-- about to drop the reference of the caller -/
  | unref (tp : ℕ)
  deriving DecidableEq

/-- The transaction that the call is about. -/
def Frame.tp : Frame → ℕ
  | .poll tp _ _ | .commit tp | .giveUp tp _ | .abort tp | .walk tp _ | .advance tp _
  | .unref tp => tp

/-- The memory, and the calls of every thread, the innermost one first. -/
@[ext]
structure Machine where
  trans : Manager
  threads : ℕ → List Frame

/-- What a step does. -/
inductive Action
  | create
  | ref (tp : ℕ)
  | unref (tp : ℕ)
  | addDependency (tp dtp : ℕ)
  | callCommit (tp : ℕ)
  /-- the commit of `tp` reads the status of the dependency `d` -/
  | read (tp d : ℕ) (status : TransStatus)
  /-- the commit of `tp` writes `TRANS_COMMITTED` -/
  | setCommitted (tp : ℕ)
  /-- the commit of `tp` writes `TRANS_ABORTED` and returns it -/
  | returnAborted (tp : ℕ)
  | callAbort (tp : ℕ)
  /-- any other step inside a call -/
  | internal
  deriving DecidableEq

/-- How `trans_commit` goes on when it has read the dependencies. -/
def startCommit (m : Manager) (tp : ℕ) : Frame :=
  match (m.trans tp).depends with
  | [] => .commit tp
  | d :: rest => .poll tp (d :: rest) false

/-- How the loop goes on after a round. -/
def Poll.frame (tp d : ℕ) : Poll → Frame
  | .aborted => .giveUp tp d
  | .committed => .commit tp
  | .next d flag => .poll tp d flag

namespace Machine

/-- No thread has called yet. -/
def initial : Machine := ⟨transInit, fun _ => []⟩

/-- The memory and the calls of one thread change. -/
def goto (s : Machine) (m : Manager) (t : ℕ) (frames : List Frame) : Machine :=
  ⟨m, Function.update s.threads t frames⟩

/-- The steps of the threads. A dependency is only added to a transaction that is pending, and
calls are about transactions that exist. -/
inductive Step (s : Machine) : ℕ × Action → Machine → Prop
  | create {t : ℕ} (idle : s.threads t = []) :
      Step s (t, .create) (s.goto (transCreate s.trans).1 t [])
  | ref {t tp : ℕ} {m : Manager} (idle : s.threads t = []) (known : tp < s.trans.fresh)
      (call : transRef s.trans tp = .ok m) : Step s (t, .ref tp) (s.goto m t [])
  | unref {t tp : ℕ} {m : Manager} (idle : s.threads t = []) (known : tp < s.trans.fresh)
      (call : transUnref s.trans tp = .ok m) : Step s (t, .unref tp) (s.goto m t [])
  | addDependency {t tp dtp : ℕ} {m : Manager} (idle : s.threads t = [])
      (known : tp < s.trans.fresh) (known' : dtp < s.trans.fresh)
      (pending : (s.trans.trans tp).status = .pending)
      (call : transAddDependency s.trans tp dtp = .ok m) :
      Step s (t, .addDependency tp dtp) (s.goto m t [])
  | callCommit {t tp : ℕ} {m : Manager} (idle : s.threads t = []) (known : tp < s.trans.fresh)
      (lock : s.trans.lock tp = .ok m) :
      Step s (t, .callCommit tp) (s.goto m t [startCommit m tp])
  | read {t tp d : ℕ} {rest : List ℕ} {flag : Bool} {frames : List Frame}
      (stack : s.threads t = .poll tp (d :: rest) flag :: frames) :
      Step s (t, .read tp d (s.trans.trans d).status)
        (s.goto s.trans t ((pollDependency s.trans tp d rest flag).frame tp d :: frames))
  | endLoop {t tp : ℕ} {flag : Bool} {frames : List Frame}
      (stack : s.threads t = .poll tp [] flag :: frames) :
      Step s (t, .internal) (s.goto (s.trans.unlock tp) t (.unref tp :: frames))
  | setCommitted {t tp : ℕ} {frames : List Frame} (stack : s.threads t = .commit tp :: frames) :
      Step s (t, .setCommitted tp)
        (s.goto ((s.trans.setStatus tp .committed).unlock tp) t (.unref tp :: frames))
  | returnAborted {t tp d : ℕ} {frames : List Frame}
      (stack : s.threads t = .giveUp tp d :: frames) :
      Step s (t, .returnAborted tp) (s.goto ((s.trans.setStatus tp .aborted).unlock tp) t frames)
  | callAbort {t tp : ℕ} (idle : s.threads t = []) (known : tp < s.trans.fresh) :
      Step s (t, .callAbort tp) (s.goto s.trans t [.abort tp])
  | again {t tp : ℕ} {frames : List Frame} (stack : s.threads t = .abort tp :: frames)
      (free : (s.trans.trans tp).mutex = false) (status : (s.trans.trans tp).status = .aborted) :
      Step s (t, .internal) (s.goto s.trans t (.unref tp :: frames))
  | cascade {t tp : ℕ} {frames : List Frame} (stack : s.threads t = .abort tp :: frames)
      (free : (s.trans.trans tp).mutex = false) (status : (s.trans.trans tp).status = .pending) :
      Step s (t, .internal)
        (s.goto ((s.trans.setMutex tp true).setStatus tp .aborted) t (.walk tp 0 :: frames))
  | walkEnd {t tp a : ℕ} {frames : List Frame} (stack : s.threads t = .walk tp a :: frames)
      (last : (s.trans.trans a).next = 0) :
      Step s (t, .internal) (s.goto (s.trans.unlock tp) t (.unref tp :: frames))
  | pass {t tp a : ℕ} {frames : List Frame} (stack : s.threads t = .walk tp a :: frames)
      (node : (s.trans.trans a).next ≠ 0) (passes : Passes s.trans tp (s.trans.trans a).next) :
      Step s (t, .internal) (s.goto s.trans t (.walk tp (s.trans.trans a).next :: frames))
  | dependent {t tp a : ℕ} {frames : List Frame} (stack : s.threads t = .walk tp a :: frames)
      (node : (s.trans.trans a).next ≠ 0)
      (other : (s.trans.trans (s.trans.trans a).next).id ≠ (s.trans.trans tp).id)
      (finds : Finds s.trans tp (s.trans.trans a).next) :
      Step s (t, .internal)
        (s.goto s.trans t (.abort (s.trans.trans a).next :: .advance tp a :: frames))
  | advance {t tp a : ℕ} {frames : List Frame} (stack : s.threads t = .advance tp a :: frames) :
      Step s (t, .internal) (s.goto s.trans t (.walk tp (s.trans.trans a).next :: frames))
  | dropReference {t tp : ℕ} {m : Manager} {frames : List Frame}
      (stack : s.threads t = .unref tp :: frames) (call : transUnref s.trans tp = .ok m) :
      Step s (t, .internal) (s.goto m t frames)

variable {s : Machine} {m m' m₁ : Manager} {t tp : ℕ} {frames : List Frame} {task : Task}

@[simp] theorem goto_trans : (s.goto m t frames).trans = m := rfl

@[simp] theorem goto_threads : (s.goto m t frames).threads t = frames := Function.update_self ..

@[simp] theorem goto_goto {frames' : List Frame} :
    (s.goto m t frames).goto m' t frames' = s.goto m' t frames' :=
  congrArg (Machine.mk m') (Function.update_idem ..)

/-! ### Calls that nobody disturbs -/

/-- There are steps from one state to another. -/
def Reaches (s s' : Machine) : Prop := ∃ labels, Run Step s labels s'

theorem Reaches.refl (s : Machine) : Reaches s s := ⟨[], .nil s⟩

theorem Reaches.head {s s₁ s' : Machine} {label : ℕ × Action} (step : Step s label s₁)
    (rest : Reaches s₁ s') : Reaches s s' := by
  obtain ⟨labels, hrun⟩ := rest
  exact ⟨label :: labels, .cons step hrun⟩

theorem Reaches.trans {s s₁ s' : Machine} (first : Reaches s s₁) (rest : Reaches s₁ s') :
    Reaches s s' := by
  obtain ⟨labels, hrun⟩ := first
  obtain ⟨labels', hrun'⟩ := rest
  exact ⟨labels ++ labels', hrun.append hrun'⟩

/-- A step of the thread whose calls were just set. -/
theorem Reaches.step {m : Manager} {frames frames' frames₁ : List Frame} {action : Action}
    (step : Step (s.goto m t frames) (t, action) ((s.goto m t frames).goto m₁ t frames₁))
    (rest : Reaches (s.goto m₁ t frames₁) (s.goto m' t frames')) :
    Reaches (s.goto m t frames) (s.goto m' t frames') := by
  rw [goto_goto] at step
  exact .head step rest

theorem reaches_unref (h : transUnref m tp = .ok m') :
    Reaches (s.goto m t (.unref tp :: frames)) (s.goto m' t frames) :=
  .step (.dropReference goto_threads h) (.refl _)

theorem reaches_finishCommit {status : TransStatus} (h : finishCommit m tp = .ok (m', status)) :
    Reaches (s.goto m t (.commit tp :: frames)) (s.goto m' t frames) := by
  obtain ⟨m₁, hunref, h⟩ := bind_eq_ok h
  obtain ⟨rfl, -⟩ := Prod.mk.inj (Except.ok.inj h)
  exact .step (.setCommitted goto_threads) (reaches_unref hunref)

theorem reaches_poll {fuel : ℕ} {d : List ℕ} {flag : Bool} {status : TransStatus}
    (h : pollDependencies fuel m tp d flag = .ok (m', status)) :
    Reaches (s.goto m t (.poll tp d flag :: frames)) (s.goto m' t frames) := by
  -- each round of the loop is one read
  induction fuel generalizing d flag with
  | zero => exact absurd h nofun
  | succ fuel ih =>
    cases d with
    | nil =>
      obtain ⟨m₁, hunref, h⟩ := bind_eq_ok h
      obtain ⟨rfl, -⟩ := Prod.mk.inj (Except.ok.inj h)
      exact .step (.endLoop goto_threads) (reaches_unref hunref)
    | cons d rest =>
      rw [pollDependencies] at h
      refine .step (.read goto_threads) ?_
      rw [goto_trans]
      cases hpoll : pollDependency m tp d rest flag with
      | aborted =>
        rw [hpoll] at h
        obtain ⟨rfl, -⟩ := Prod.mk.inj (Except.ok.inj h)
        exact .step (.returnAborted goto_threads) (.refl _)
      | committed =>
        rw [hpoll] at h
        exact reaches_finishCommit h
      | next d' flag' =>
        rw [hpoll] at h
        exact ih h

/-- A commit that returns is a run of its thread. -/
theorem run_of_commit {fuel : ℕ} {status : TransStatus} (idle : s.threads t = [])
    (known : tp < s.trans.fresh) (h : transCommit fuel s.trans tp = .ok (m', status)) :
    Reaches s (s.goto m' t []) := by
  obtain ⟨m, hlock, h⟩ := bind_eq_ok h
  refine .head (.callCommit idle known hlock) ?_
  cases hdepends : (m.trans tp).depends with
  | nil =>
    rw [hdepends] at h
    rw [startCommit, hdepends]
    exact reaches_finishCommit h
  | cons d rest =>
    rw [hdepends] at h
    rw [startCommit, hdepends]
    exact reaches_poll h

/-- A task as a run of a thread. The walk ends at a node with nothing behind it. -/
def Task.Runs (s : Machine) (t : ℕ) (m m' : Manager) : Task → Prop
  | .abort tp => ∀ frames, Reaches (s.goto m t (.abort tp :: frames)) (s.goto m' t frames)
  | .walk tp a => ∀ frames, ∃ b, (m'.trans b).next = 0 ∧
    Reaches (s.goto m t (.walk tp a :: frames)) (s.goto m' t (.walk tp b :: frames))

/-- An abort that returns, with its cascade, is a run of its thread. -/
theorem runs_of_returns (h : Returns m task m') : Task.Runs s t m m' task := by
  induction h with
  | again free status unref =>
    intro frames
    exact .step (.again goto_threads free status) (reaches_unref unref)
  | cascade free status walk unref ih =>
    intro frames
    obtain ⟨b, hlast, hwalk⟩ := ih frames
    refine .step (.cascade goto_threads free status) (hwalk.trans ?_)
    exact .step (.walkEnd goto_threads hlast) (reaches_unref unref)
  | @done m tp a last => exact fun frames => ⟨a, last, .refl _⟩
  | pass link node passes walk ih =>
    intro frames
    obtain ⟨b, hlast, hwalk⟩ := ih frames
    subst link
    exact ⟨b, hlast, .step (.pass goto_threads node passes) hwalk⟩
  | @dependent m m₁ m' tp a b link node other finds abort walk iha ihw =>
    intro frames
    obtain ⟨c, hlast, hwalk⟩ := ihw frames
    subst link
    refine ⟨c, hlast, .step (.dependent goto_threads node other finds) ?_⟩
    exact (iha (.advance tp a :: frames)).trans (.step (.advance goto_threads) hwalk)

theorem run_of_abort {fuel : ℕ} (idle : s.threads t = []) (known : tp < s.trans.fresh)
    (h : transAbort fuel s.trans tp = .ok m') : Reaches s (s.goto m' t []) :=
  .head (.callAbort idle known) (runs_of_returns (Returns.of_abort h) [])

end Machine

end CLanguage.Xacto
