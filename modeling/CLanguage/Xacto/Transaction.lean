import CLanguage.Lib.Outcome
import Mathlib.Algebra.Group.Nat.Defs
import Mathlib.Data.Nat.Notation
import Mathlib.Logic.Function.Basic
import Mathlib.Tactic.Common

/-!
# Transactions

The transaction manager. A transaction is named by its address, and the address 0
is the sentinel `trans_list` of the circular list of all transactions. Addresses
are not used again, and a transaction that was freed keeps its content: a pointer
that outlives its transaction still reads the last values. Freeing a transaction a
second time ends the process. Memory for new objects is taken to be available.

`trans_commit` and `trans_abort` contain loops that need not end, so they take the
number of rounds they may run for; a call that has used them up is still running.

## Main definitions

* `Transaction`, `Manager` — the memory of the transaction manager
* `transCreate`, `transRef`, `transUnref`, `transAddDependency` — the calls without loops
* `transCommit` — polling the dependencies
* `transAbort`, `abortDependents` — the cascade and its walk over the list
-/

namespace CLanguage.Xacto

/-- `TRANS_STATUS` -/
inductive TransStatus
  | pending
  | committed
  | aborted
  deriving DecidableEq, Repr

/-- `TRANSACTION`. The dependencies are listed from the newest one on. The semaphore is never
waited for. -/
@[ext]
structure Transaction where
  id : ℕ
  refcnt : ℕ
  status : TransStatus
  depends : List ℕ
  waitcnt : ℕ
  mutex : Bool
  next : ℕ
  prev : ℕ
  freed : Bool
  deriving DecidableEq

/-- The ways in which a call fails to return. -/
inductive Stop
  /-- `exit(-1)` -/
  | exit
  /-- `free` of an object that was freed before -/
  | doubleFree
  /-- a null pointer to a blob was dereferenced -/
  | nullBlob
  /-- the call waits for a mutex that is held -/
  | waiting
  /-- the rounds are used up -/
  | running
  deriving DecidableEq

/-- All transactions. `fresh` is the first address that was never handed out. -/
@[ext]
structure Manager where
  trans : ℕ → Transaction
  counter : ℕ
  fresh : ℕ

namespace Manager

/-- Write to the transaction at an address. -/
def modify (m : Manager) (tp : ℕ) (f : Transaction → Transaction) : Manager :=
  { m with trans := Function.update m.trans tp (f (m.trans tp)) }

theorem trans_modify (m : Manager) (tp a : ℕ) (f : Transaction → Transaction) :
    (m.modify tp f).trans a = if a = tp then f (m.trans tp) else m.trans a :=
  Function.update_apply ..

@[simp] theorem modify_self (m : Manager) (tp : ℕ) (f : Transaction → Transaction) :
    (m.modify tp f).trans tp = f (m.trans tp) := Function.update_self ..

theorem modify_of_ne {m : Manager} {tp a : ℕ} {f : Transaction → Transaction} (h : a ≠ tp) :
    (m.modify tp f).trans a = m.trans a := Function.update_of_ne h ..

@[simp] theorem modify_fresh (m : Manager) (tp : ℕ) (f : Transaction → Transaction) :
    (m.modify tp f).fresh = m.fresh := rfl

@[simp] theorem modify_counter (m : Manager) (tp : ℕ) (f : Transaction → Transaction) :
    (m.modify tp f).counter = m.counter := rfl

def setNext (m : Manager) (tp next : ℕ) : Manager := m.modify tp fun t => { t with next := next }

def setPrev (m : Manager) (tp prev : ℕ) : Manager := m.modify tp fun t => { t with prev := prev }

def setRefcnt (m : Manager) (tp refcnt : ℕ) : Manager :=
  m.modify tp fun t => { t with refcnt := refcnt }

def setStatus (m : Manager) (tp : ℕ) (status : TransStatus) : Manager :=
  m.modify tp fun t => { t with status := status }

def setMutex (m : Manager) (tp : ℕ) (held : Bool) : Manager :=
  m.modify tp fun t => { t with mutex := held }

/-- `pthread_mutex_lock` -/
def lock (m : Manager) (tp : ℕ) : Except Stop Manager :=
  if (m.trans tp).mutex then .error .waiting else .ok (m.setMutex tp true)

/-- `pthread_mutex_unlock` -/
def unlock (m : Manager) (tp : ℕ) : Manager := m.setMutex tp false

/-- `free` -/
def free (m : Manager) (tp : ℕ) : Except Stop Manager :=
  if (m.trans tp).freed then .error .doubleFree
  else .ok (m.modify tp fun t => { t with freed := true })

end Manager

/-- The sum of an `unsigned int` and one. -/
def increment (n : ℕ) : ℕ := (n + 1) % 2 ^ 32

/-- The difference of an `unsigned int` and one. -/
def decrement (n : ℕ) : ℕ := if n = 0 then 2 ^ 32 - 1 else n - 1

/-- `trans_init`: the sentinel is linked to itself and takes the first number. -/
def transInit : Manager where
  trans _ := ⟨0, 0, .pending, [], 0, false, 0, 0, false⟩
  counter := 1
  fresh := 1

/-- `trans_create` -/
def transCreate (m : Manager) : Manager × ℕ :=
  let a := m.fresh
  let tail := (m.trans 0).prev
  let m := { m with fresh := m.fresh + 1 }
  let m := m.modify a fun _ => ⟨m.counter % 2 ^ 32, 1, .pending, [], 0, false, 0, tail, false⟩
  let m := { m with counter := m.counter + 1 }
  ((m.setNext tail a).setPrev 0 a, a)

/-- `trans_ref` -/
def transRef (m : Manager) (tp : ℕ) : Except Stop Manager := do
  let m ← m.lock tp
  let m := m.setRefcnt tp (increment (m.trans tp).refcnt)
  return m.unlock tp

/-- `trans_unref`. The dependency nodes go with the transaction, the references they stand for
stay counted. -/
def transUnref (m : Manager) (tp : ℕ) : Except Stop Manager := do
  let m ← m.lock tp
  if decrement (m.trans tp).refcnt = 0 then
    let m := m.setNext (m.trans tp).prev (m.trans tp).next
    let m := m.setPrev (m.trans tp).next (m.trans tp).prev
    (m.unlock tp).free tp
  else
    let m := m.setRefcnt tp (decrement (m.trans tp).refcnt)
    return m.unlock tp

/-- `trans_add_dependency` -/
def transAddDependency (m : Manager) (tp dtp : ℕ) : Except Stop Manager := do
  let m ← m.lock tp
  let m ← m.lock dtp
  let m := m.modify tp fun t => { t with depends := dtp :: t.depends }
  let m := m.modify dtp fun t => { t with waitcnt := t.waitcnt + 1 }
  let m := m.setRefcnt dtp (increment (m.trans dtp).refcnt)
  return (m.unlock dtp).unlock tp

/-! ## Commit -/

/-- What one round of the loop of `trans_commit` finds: a dependency that has aborted, that all
have committed, or where to read next. -/
inductive Poll
  | aborted
  | committed
  | next (d : List ℕ) (flag : Bool)

/-- One round of the loop, at the dependency `d` and those after it. -/
def pollDependency (m : Manager) (tp d : ℕ) (rest : List ℕ) (flag : Bool) : Poll :=
  if (m.trans d).status = .aborted then .aborted
  else
    let flag := if (m.trans d).status ≠ .committed then true else flag
    match rest with
    | [] => if flag = false then .committed else .next (m.trans tp).depends false
    | _ :: _ => .next rest flag

/-- The way out of `trans_commit` with a commit. -/
def finishCommit (m : Manager) (tp : ℕ) : Except Stop (Manager × TransStatus) := do
  let m ← transUnref ((m.setStatus tp .committed).unlock tp) tp
  return (m, .committed)

/-- The loop of `trans_commit`, and what follows it. -/
def pollDependencies : ℕ → Manager → ℕ → List ℕ → Bool → Except Stop (Manager × TransStatus)
  | 0, _, _, _, _ => .error .running
  | _ + 1, m, tp, [], _ => do
    let m ← transUnref (m.unlock tp) tp
    return (m, .committed)
  | fuel + 1, m, tp, d :: rest, flag =>
    match pollDependency m tp d rest flag with
    | .aborted => .ok ((m.setStatus tp .aborted).unlock tp, .aborted)
    | .committed => finishCommit m tp
    | .next d flag => pollDependencies fuel m tp d flag

/-- `trans_commit` -/
def transCommit (fuel : ℕ) (m : Manager) (tp : ℕ) : Except Stop (Manager × TransStatus) := do
  let m ← m.lock tp
  match (m.trans tp).depends with
  | [] => finishCommit m tp
  | d :: rest => pollDependencies fuel m tp (d :: rest) false

/-! ## Abort -/

/-- The inner loop of `trans_abort`, on the dependencies behind the first one. It never moves on,
so it looks at the same one for ever unless that one is `tp`. -/
def scanDependencies : ℕ → Manager → ℕ → List ℕ → Except Stop Bool
  | 0, _, _, _ => .error .running
  | _ + 1, _, _, [] => .ok false
  | fuel + 1, m, tp, d :: rest =>
    if (m.trans d).id = (m.trans tp).id then .ok true else scanDependencies fuel m tp (d :: rest)

mutual

/-- `trans_abort` -/
def transAbort : ℕ → Manager → ℕ → Except Stop Manager
  | 0, _, _ => .error .running
  | fuel + 1, m, tp => do
    let m ← m.lock tp
    match (m.trans tp).status with
    | .committed => .error .exit
    | .aborted => transUnref (m.unlock tp) tp
    | .pending => do
      let m ← abortDependents fuel (m.setStatus tp .aborted) tp 0
      transUnref (m.unlock tp) tp

/-- The walk of `trans_abort` over the list, from the node behind `a` on. It reads the link of `a`
again after it has aborted that node. -/
def abortDependents : ℕ → Manager → ℕ → ℕ → Except Stop Manager
  | 0, _, _, _ => .error .running
  | fuel + 1, m, tp, a =>
    let b := (m.trans a).next
    if b = 0 then .ok m
    else if (m.trans b).id = (m.trans tp).id then abortDependents fuel m tp b
    else
      match (m.trans b).depends with
      | [] => abortDependents fuel m tp b
      | d :: rest =>
        if (m.trans d).id = (m.trans tp).id then do
          let m ← transAbort fuel m b
          abortDependents fuel m tp (m.trans a).next
        else do
          if ← scanDependencies fuel m tp rest then
            let m ← transAbort fuel m b
            abortDependents fuel m tp (m.trans a).next
          else abortDependents fuel m tp b

end

end CLanguage.Xacto
