import Mathlib.Algebra.GroupWithZero.Nat
import Mathlib.Data.Multiset.AddSub

/-!
# The client registry

`client_registry.c` keeps the descriptors of the connected clients in a table of
1024 entries, guarded by four semaphores. Any number of threads call
`creg_register` and `creg_unregister`, and `creg_wait_for_empty` polls the table
without its mutex.

A call is a little program whose steps are single semaphore operations, single
scans of the table under the mutex and, in `creg_wait_for_empty`, reads of single
entries. `Step` interleaves the steps of all calls in every order.
-/

namespace CLanguage.Registry

/-- `creg_register(fd)`, `creg_unregister(fd)` or `creg_wait_for_empty()`. -/
inductive Op where
  | register (fd : ℤ)
  | unregister (fd : ℤ)
  | waitForEmpty
  deriving DecidableEq

/-- What a call does next. -/
inductive Call where
  /-- `creg_register`: the three waits, the scan and the three posts. -/
  | registerLock (fd : ℤ)
  | registerSlots (fd : ℤ)
  | registerMutex (fd : ℤ)
  | registerScan (fd : ℤ)
  | registerPostMutex (fd : ℤ)
  | registerPostItems (fd : ℤ)
  | registerPostLock (fd : ℤ)
  /-- `creg_unregister`: the two waits and the scan. -/
  | unregisterItems (fd : ℤ)
  | unregisterMutex (fd : ℤ)
  | unregisterScan (fd : ℤ)
  /-- The posts after a scan that found the descriptor. -/
  | foundPostMutex (fd : ℤ)
  | foundPostSlots (fd : ℤ)
  /-- The posts after a scan that did not. -/
  | unknownPostItems (fd : ℤ)
  | unknownPostMutex (fd : ℤ)
  /-- `creg_wait_for_empty`: the wait, the loop with its `i` and `flag`, and its return. -/
  | waitLock
  | waitLoop (i : ℕ) (flag : Bool)
  | waitReturned
  deriving DecidableEq

/-- The table and the values of the semaphores. -/
structure ClientRegistry where
  fdbuf : List ℤ
  mutex : ℕ
  slots : ℕ
  items : ℕ
  lock : ℕ

/-- The length of the table. -/
def capacity : ℕ := 1024

theorem capacity_eq : capacity = 1024 := rfl

/-- `creg_init`. -/
def cregInit : ClientRegistry where
  fdbuf := List.replicate capacity (-1)
  mutex := 1
  slots := capacity
  items := 0
  lock := 1

/-- The scan of `creg_register`: the first free entry takes the descriptor. -/
def place (fd : ℤ) : List ℤ → List ℤ
  | [] => []
  | e :: es => if e = -1 then fd :: es else e :: place fd es

/-- The scan of `creg_unregister`: the first entry with the descriptor is freed. -/
def clear (fd : ℤ) : List ℤ → List ℤ
  | [] => []
  | e :: es => if e = fd then -1 :: es else e :: clear fd es

/-- `sem_wait` goes through if the value is positive. -/
def semWait (value : ℕ) : Option ℕ := if 0 < value then some (value - 1) else none

/-- One pass through the loop of `creg_wait_for_empty`: the call after reading entry `i`. -/
def pollEntry (fdbuf : List ℤ) (i : ℕ) (flag : Bool) : Call :=
  let flag := if i = 0 then false else flag
  let flag := if fdbuf[i]? ≠ some (-1) then true else flag
  if i = 1023 then
    if flag = false then .waitReturned else .waitLoop 0 flag
  else
    .waitLoop (i + 1) flag

/-- The next step of a call: the registry and the rest of the call, `none` after
its return. A step that has to wait is not enabled. -/
def Call.next (r : ClientRegistry) : Call → Option (ClientRegistry × Option Call)
  | .registerLock fd => (semWait r.lock).map fun v => ({ r with lock := v }, some (.registerSlots fd))
  | .registerSlots fd =>
    (semWait r.slots).map fun v => ({ r with slots := v }, some (.registerMutex fd))
  | .registerMutex fd =>
    (semWait r.mutex).map fun v => ({ r with mutex := v }, some (.registerScan fd))
  | .registerScan fd => some ({ r with fdbuf := place fd r.fdbuf }, some (.registerPostMutex fd))
  | .registerPostMutex fd => some ({ r with mutex := r.mutex + 1 }, some (.registerPostItems fd))
  | .registerPostItems fd => some ({ r with items := r.items + 1 }, some (.registerPostLock fd))
  | .registerPostLock _ => some ({ r with lock := r.lock + 1 }, none)
  | .unregisterItems fd =>
    (semWait r.items).map fun v => ({ r with items := v }, some (.unregisterMutex fd))
  | .unregisterMutex fd =>
    (semWait r.mutex).map fun v => ({ r with mutex := v }, some (.unregisterScan fd))
  | .unregisterScan fd =>
    some ({ r with fdbuf := clear fd r.fdbuf },
      some (if fd ∈ r.fdbuf then .foundPostMutex fd else .unknownPostItems fd))
  | .foundPostMutex fd => some ({ r with mutex := r.mutex + 1 }, some (.foundPostSlots fd))
  | .foundPostSlots _ => some ({ r with slots := r.slots + 1 }, none)
  | .unknownPostItems fd => some ({ r with items := r.items + 1 }, some (.unknownPostMutex fd))
  | .unknownPostMutex _ => some ({ r with mutex := r.mutex + 1 }, none)
  | .waitLock => (semWait r.lock).map fun v => ({ r with lock := v }, some (.waitLoop 0 false))
  | .waitLoop i flag => some (r, some (pollEntry r.fdbuf i flag))
  | .waitReturned => none

/-- The first step of a call. -/
def Op.start : Op → Call
  | .register fd => .registerLock fd
  | .unregister fd => .unregisterItems fd
  | .waitForEmpty => .waitLock

/-- The descriptors passed are non-negative. -/
def Op.Proper : Op → Prop
  | .register fd => 0 ≤ fd
  | .unregister fd => 0 ≤ fd
  | .waitForEmpty => True

/-- The registry and the calls in progress. A call of `creg_wait_for_empty` that
has returned stays in the list, without a next step. -/
structure State where
  registry : ClientRegistry
  calls : List Call

def initial : State := ⟨cregInit, []⟩

/-- What a step of the system does. -/
inductive Label where
  | invoke (op : Op)
  | scan (op : Op)
  | internal
  deriving DecidableEq

/-- The label of the next step of a call. -/
def Call.label : Call → Label
  | .registerScan fd => .scan (.register fd)
  | .unregisterScan fd => .scan (.unregister fd)
  | _ => .internal

/-- A new call, or a step of one of the calls in progress. -/
inductive Step : State → Label → State → Prop
  | invoke {r : ClientRegistry} {calls : List Call} {op : Op} (proper : op.Proper) :
      Step ⟨r, calls⟩ (.invoke op) ⟨r, calls ++ [op.start]⟩
  | act {r r' : ClientRegistry} {before after : List Call} {c : Call} {rest : Option Call}
      (next : c.next r = some (r', rest)) :
      Step ⟨r, before ++ c :: after⟩ c.label ⟨r', before ++ (rest.toList ++ after)⟩

end CLanguage.Registry
