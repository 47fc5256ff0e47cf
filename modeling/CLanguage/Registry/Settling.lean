import CLanguage.Lib.Ranks
import CLanguage.Registry.Shutdown
import Mathlib

/-!
# Calls that settle

The calls of a server share four semaphores, and most of them hold one while they wait for
another. Left to themselves they do not block each other: in whatever order they go on, after
a bounded number of steps all calls of `creg_shutdown_all` have returned, and what is left
waits for something that only a new call can bring about. The reads of
`creg_wait_for_empty` are not counted, since it polls the table as long as there is a client.

## Main definitions

* `Works` — a step of a call in progress
* `Server.remaining` — how many of them there can be
* `Server.Settled` — what is left in the end

## Main results

* `settled_of_stuck` — where no call can go on, the server has settled
* `calls_settle` — every server settles
-/

namespace CLanguage.Registry

open Lib

variable {r r' : ClientRegistry} {s : State} {c : Call} {d : Shutdown} {rest : Option Call}
  {rest' : Option Shutdown} {ev : Event} {evs evs' : List Event} {S S' : Server}
  {held : Call → ℕ} {calls : List Call}

/-! ### Steps of the calls in progress -/

/-- The call has taken the lock for `creg_wait_for_empty`. -/
def Call.Polls : Call → Prop
  | .waitLoop _ _ | .waitReturned => True
  | _ => False

/-- A step of a call in progress that is no read of `creg_wait_for_empty`. -/
inductive Works : Server → Event → Server → Prop
  | call {r r' : ClientRegistry} {before after : List Call} {c : Call} {rest : Option Call}
      {shutdowns : List Shutdown} (next : c.next r = some (r', rest)) (works : ¬ c.Polls) :
      Works ⟨⟨r, before ++ c :: after⟩, shutdowns⟩ (.registry c.label)
        ⟨⟨r', before ++ (rest.toList ++ after)⟩, shutdowns⟩
  | shutdown {s : State} {r' : ClientRegistry} {before after : List Shutdown} {d : Shutdown}
      {ev : Event} {rest : Option Shutdown} (next : d.next s.registry = some (r', ev, rest)) :
      Works ⟨s, before ++ d :: after⟩ ev ⟨⟨r', s.calls⟩, before ++ (rest.toList ++ after)⟩

theorem Works.step (h : Works S ev S') : ServerStep S ev S' := by
  cases h with
  | call next works => exact .registry (.act next)
  | shutdown next => exact .act next

/-- How many such steps a call can make. -/
def Call.remaining : Call → ℕ
  | .registerLock _ => 7
  | .registerSlots _ => 6
  | .registerMutex _ | .unregisterItems _ => 5
  | .registerScan _ | .unregisterMutex _ => 4
  | .registerPostMutex _ | .unregisterScan _ => 3
  | .registerPostItems _ | .foundPostMutex _ | .unknownPostItems _ => 2
  | .registerPostLock _ | .foundPostSlots _ | .unknownPostMutex _ | .waitLock => 1
  | .waitLoop _ _ | .waitReturned => 0

/-- How many steps a call of `creg_shutdown_all` can make. -/
def Shutdown.remaining : Shutdown → ℕ
  | .wait => capacity + 2
  | .scan i _ => capacity - i + 1

/-- How many steps all calls can make. -/
def Server.remaining (S : Server) : ℕ :=
  total Call.remaining S.state.calls + (S.shutdowns.map Shutdown.remaining).sum

theorem next_remaining (h : c.next r = some (r', rest)) (works : ¬ c.Polls) :
    total Call.remaining rest.toList < c.remaining := by
  cases move_of_next h with
  | waitPass | waitReturn => exact absurd trivial works
  | _ => simp [Call.remaining]

theorem shutdown_remaining (h : d.next r = some (r', ev, rest')) :
    (rest'.toList.map Shutdown.remaining).sum < d.remaining := by
  cases d with
  | wait =>
    obtain ⟨v, -, hr⟩ := Option.map_eq_some_iff.mp h
    obtain ⟨-, hrest⟩ := Prod.mk.inj hr
    obtain ⟨-, rfl⟩ := Prod.mk.inj hrest
    exact Nat.lt_succ_self _
  | scan i shut =>
    rw [Shutdown.next] at h
    split at h
    · obtain ⟨-, hrest⟩ := Prod.mk.inj (Option.some.inj h)
      obtain ⟨-, rfl⟩ := Prod.mk.inj hrest
      simp only [Option.toList_some, List.map_singleton, List.sum_singleton, Shutdown.remaining]
      omega
    · obtain ⟨-, hrest⟩ := Prod.mk.inj (Option.some.inj h)
      obtain ⟨-, rfl⟩ := Prod.mk.inj hrest
      exact Nat.succ_pos _

theorem works_remaining (h : Works S ev S') : S'.remaining < S.remaining := by
  cases h with
  | @call r r' before after c rest shutdowns next works =>
    have hless := next_remaining next works
    simp only [Server.remaining, total_append, total_cons]
    omega
  | @shutdown s r' before after d ev rest next =>
    have hless := shutdown_remaining next
    simp only [Server.remaining, List.map_append, List.map_cons, List.sum_append, List.sum_cons]
    omega

theorem sum_map_le {α : Type} {f : α → ℕ} {k : ℕ} (h : ∀ a, f a ≤ k) (l : List α) :
    (l.map f).sum ≤ k * l.length := by
  rw [Nat.mul_comm, ← smul_eq_mul, ← List.length_map f]
  apply List.sum_le_card_nsmul
  intro m hm
  obtain ⟨a, -, rfl⟩ := List.mem_map.mp hm
  exact h a

/-- At first every call has at most the steps of a whole one to make. -/
theorem remaining_le (S : Server) :
    S.remaining ≤ 7 * S.state.calls.length + (capacity + 2) * S.shutdowns.length := by
  have hcall : ∀ c : Call, c.remaining ≤ 7 := by
    intro c
    cases c <;> simp [Call.remaining]
  have hshutdown : ∀ d : Shutdown, d.remaining ≤ capacity + 2 := by
    intro d
    cases d with
    | wait => exact Nat.le_refl _
    | scan i shut =>
      rw [Shutdown.remaining]
      omega
  exact Nat.add_le_add (sum_map_le hcall _) (sum_map_le hshutdown _)

/-! ### What is left -/

/-- The value of the semaphore that a call waits for, and 1 for a call that does not wait. -/
def Call.wanted (r : ClientRegistry) : Call → ℕ
  | .registerLock _ | .waitLock => r.lock
  | .registerSlots _ => r.slots
  | .registerMutex _ | .unregisterMutex _ => r.mutex
  | .unregisterItems _ => r.items
  | _ => 1

/-- What a call waits for that no call in progress brings about: `creg_wait_for_empty` does not
give the lock back, a full table gets no free entry and an empty one no client. -/
def Blocked (s : State) : Call → Prop
  | .registerLock _ | .waitLock =>
    (∃ c ∈ s.calls, c.Polls) ∨ (entries s.registry.fdbuf).card = capacity
  | .registerSlots _ => (entries s.registry.fdbuf).card = capacity
  | .unregisterItems _ => entries s.registry.fdbuf = 0
  | .waitLoop _ _ | .waitReturned => True
  | _ => False

/-- Nothing is left but calls that have nothing to do. -/
structure Server.Settled (S : Server) : Prop where
  shutdowns : S.shutdowns = []
  mutex : S.state.registry.mutex = 1
  blocked : ∀ c ∈ S.state.calls, Blocked S.state c

theorem semWait_eq_none {v : ℕ} (h : semWait v = none) : v = 0 := by
  rw [semWait] at h
  split at h
  · cases h
  · next hzero => exact Nat.eq_zero_of_not_pos hzero

/-- A call that cannot go on waits for a semaphore. -/
theorem wanted_eq_zero (h : c.next r = none) (works : ¬ c.Polls) : c.wanted r = 0 := by
  cases c
  case registerLock fd | registerSlots fd | registerMutex fd | unregisterItems fd |
      unregisterMutex fd | waitLock => exact semWait_eq_none (Option.map_eq_none_iff.mp h)
  case waitLoop i flag | waitReturned => exact absurd trivial works
  all_goals cases h

theorem total_eq_zero (h : ∀ c ∈ calls, held c = 0) : total held calls = 0 := by
  apply List.sum_eq_zero
  intro k hk
  obtain ⟨c, hc, rfl⟩ := List.mem_map.mp hk
  exact h c hc

theorem exists_held (h : total held calls ≠ 0) : ∃ c ∈ calls, held c ≠ 0 := by
  by_contra hnone
  push Not at hnone
  exact h (total_eq_zero hnone)

/-- The state of a server in which no call can go on. -/
theorem wanted_of_stuck (stuck : ∀ ev S', ¬ Works S ev S') :
    (∀ c ∈ S.state.calls, c.Polls ∨ c.wanted S.state.registry = 0) ∧
      ∀ d ∈ S.shutdowns, d.next S.state.registry = none := by
  obtain ⟨⟨r, calls⟩, shutdowns⟩ := S
  constructor
  · intro c hc
    obtain ⟨before, after, rfl⟩ := List.append_of_mem hc
    by_cases hpolls : c.Polls
    · exact .inl hpolls
    · refine .inr (wanted_eq_zero ?_ hpolls)
      rw [Option.eq_none_iff_forall_not_mem]
      rintro ⟨r', rest⟩ hnext
      exact stuck _ _ (.call hnext hpolls)
  · intro d hd
    obtain ⟨before, after, rfl⟩ := List.append_of_mem hd
    rw [Option.eq_none_iff_forall_not_mem]
    rintro ⟨r', ev, rest⟩ hnext
    exact stuck _ _ (.shutdown hnext)

/-- Where no call can go on, nobody holds the mutex: its holders always can. -/
theorem mutex_of_stuck (sound : S.Sound)
    (calls : ∀ c ∈ S.state.calls, c.Polls ∨ c.wanted S.state.registry = 0)
    (shutdowns : ∀ d ∈ S.shutdowns, d.next S.state.registry = none) :
    S.state.registry.mutex = 1 ∧ S.shutdowns = [] := by
  have hwaits : ∀ d ∈ S.shutdowns, d = .wait := by
    intro d hd
    have hnext := shutdowns d hd
    cases d with
    | wait => rfl
    | scan i shut =>
      rw [Shutdown.next] at hnext
      split at hnext
      · cases hnext
      · cases hnext
  have hscans : totalHeld S.shutdowns = 0 := by
    apply List.sum_eq_zero
    intro k hk
    obtain ⟨d, hd, rfl⟩ := List.mem_map.mp hk
    rw [hwaits d hd]
    rfl
  have hcalls : total heldMutex S.state.calls = 0 := by
    apply total_eq_zero
    intro c hc
    rcases calls c hc with hpolls | hwanted
    · cases c <;> first | rfl | cases hpolls
    · cases c <;> first | rfl | cases hwanted
  have hmutex : S.state.registry.mutex = 1 := by
    have hcount := sound.counted.mutex
    simp only [Server.restored, ClientRegistry.give] at hcount
    omega
  refine ⟨hmutex, List.eq_nil_iff_forall_not_mem.mpr fun d hd => ?_⟩
  -- with the mutex free, a call of `creg_shutdown_all` could take it
  have hnext := shutdowns d hd
  rw [hwaits d hd] at hnext
  have hzero := semWait_eq_none (Option.map_eq_none_iff.mp hnext)
  omega

theorem settled_of_stuck (sound : S.Sound) (stuck : ∀ ev S', ¬ Works S ev S') : S.Settled := by
  obtain ⟨hcalls, hshutdowns⟩ := wanted_of_stuck stuck
  obtain ⟨hmutex, hnone⟩ := mutex_of_stuck sound hcalls hshutdowns
  -- what waits for the mutex could take it as well, so the counts are those of the table
  have hidle : ∀ c ∈ S.state.calls, heldSlots c = 0 ∧ heldItems c = 0 := by
    intro c hc
    rcases hcalls c hc with hpolls | hwanted
    · cases c <;> first | exact ⟨rfl, rfl⟩ | cases hpolls
    · cases c <;> first | exact ⟨rfl, rfl⟩ | cases hmutex.symm.trans hwanted | cases hwanted
  have hslots := sound.counted.slots
  have hitems := sound.counted.items
  have hlock := sound.counted.lock
  simp only [Server.restored, ClientRegistry.give] at hslots hitems hlock
  rw [total_eq_zero fun c hc => (hidle c hc).1] at hslots
  rw [total_eq_zero fun c hc => (hidle c hc).2] at hitems
  have hfull : S.state.registry.slots = 0 → (entries S.state.registry.fdbuf).card = capacity := by
    intro hzero
    omega
  -- the lock is with a call that polls, or with one that waits for a free entry
  have htaken : S.state.registry.lock = 0 → (∃ c ∈ S.state.calls, c.Polls) ∨
      (entries S.state.registry.fdbuf).card = capacity := by
    intro hzero
    obtain ⟨c, hc, hheld⟩ := exists_held (show total heldLock S.state.calls ≠ 0 by omega)
    rcases hcalls c hc with hpolls | hwanted
    · exact .inl ⟨c, hc, hpolls⟩
    · cases c
      case registerSlots fd => exact .inr (hfull hwanted)
      case registerMutex fd => cases hmutex.symm.trans hwanted
      all_goals first | exact absurd rfl hheld | cases hwanted
  refine ⟨hnone, hmutex, fun c hc => ?_⟩
  rcases hcalls c hc with hpolls | hwanted
  · cases c <;> trivial
  · cases c
    case registerLock fd | waitLock => exact htaken hwanted
    case registerSlots fd => exact hfull hwanted
    case unregisterItems fd =>
      have hzero : S.state.registry.items = 0 := hwanted
      apply Multiset.card_eq_zero.mp
      omega
    case registerMutex fd | unregisterMutex fd => cases hmutex.symm.trans hwanted
    all_goals cases hwanted

/-! ### Reading an empty table -/

theorem pollEntry_free {fdbuf : List ℤ} {i : ℕ} (free : fdbuf[i]? = some (-1)) (flag : Bool) :
    pollEntry fdbuf i flag =
      if i = 1023 then if flag = false then .waitReturned else .waitLoop 0 flag
      else .waitLoop (i + 1) (if i = 0 then false else flag) := by
  rw [pollEntry, free]
  simp only [ne_eq, not_true_eq_false, if_false]
  split_ifs <;> simp_all

theorem poll_step {before after : List Call} {i : ℕ} (flag : Bool) :
    Step ⟨r, before ++ .waitLoop i flag :: after⟩ .internal
      ⟨r, before ++ pollEntry r.fdbuf i flag :: after⟩ := by
  have hact : Step ⟨r, before ++ .waitLoop i flag :: after⟩ .internal
      ⟨r, before ++ ((some (pollEntry r.fdbuf i flag)).toList ++ after)⟩ := .act rfl
  exact hact

/-- A pass through an empty table that has seen no client returns. -/
theorem pass_returns {before after : List Call} (free : FreeBelow r.fdbuf capacity) {i k : ℕ}
    (hk : i + k = 1023) : ∃ ls, Run Step ⟨r, before ++ .waitLoop i false :: after⟩ ls
      ⟨r, before ++ .waitReturned :: after⟩ := by
  have hcapacity := capacity_eq
  have hpoll := pollEntry_free (free i (by omega)) false
  have hstep : Step ⟨r, before ++ .waitLoop i false :: after⟩ .internal _ := poll_step false
  induction k generalizing i with
  | zero =>
    rw [hpoll, if_pos (by omega), if_pos rfl] at hstep
    exact ⟨_, .cons hstep (.nil _)⟩
  | succ k ih =>
    rw [hpoll, if_neg (by omega), ite_self] at hstep
    obtain ⟨ls, hrun⟩ := ih (i := i + 1) (by omega) (pollEntry_free (free (i + 1) (by omega)) false)
      (poll_step false)
    exact ⟨_, .cons hstep hrun⟩

/-- A pass that has seen a client is followed by one that sees none. -/
theorem wait_returns {before after : List Call} (free : FreeBelow r.fdbuf capacity) {i k : ℕ}
    (hk : i + k = 1023) (flag : Bool) : ∃ ls, Run Step ⟨r, before ++ .waitLoop i flag :: after⟩ ls
      ⟨r, before ++ .waitReturned :: after⟩ := by
  cases flag with
  | false => exact pass_returns free hk
  | true =>
    have hcapacity := capacity_eq
    -- at the first entry the flag is cleared
    have hagain : ∃ ls, Run Step ⟨r, before ++ .waitLoop 0 true :: after⟩ ls
        ⟨r, before ++ .waitReturned :: after⟩ := by
      have hstep : Step ⟨r, before ++ .waitLoop 0 true :: after⟩ .internal _ := poll_step true
      rw [pollEntry_free (free 0 (by omega)) true] at hstep
      have hpass : ∃ ls, Run Step ⟨r, before ++ .waitLoop 1 false :: after⟩ ls
          ⟨r, before ++ .waitReturned :: after⟩ := pass_returns free (k := 1022) rfl
      obtain ⟨ls, hrun⟩ := hpass
      exact ⟨_, .cons hstep hrun⟩
    induction k generalizing i with
    | zero =>
      have hstep : Step ⟨r, before ++ .waitLoop i true :: after⟩ .internal _ := poll_step true
      rw [pollEntry_free (free i (by omega)) true, if_pos (by omega)] at hstep
      obtain ⟨ls, hrun⟩ := hagain
      exact ⟨_, .cons hstep hrun⟩
    | succ k ih =>
      by_cases hzero : i = 0
      · rw [hzero]
        exact hagain
      · have hstep : Step ⟨r, before ++ .waitLoop i true :: after⟩ .internal _ := poll_step true
        rw [pollEntry_free (free i (by omega)) true, if_neg (by omega), if_neg hzero] at hstep
        obtain ⟨ls, hrun⟩ := ih (i := i + 1) (by omega)
        exact ⟨_, .cons hstep hrun⟩

theorem freeBelow_of_empty {fdbuf : List ℤ} (length : fdbuf.length = capacity)
    (empty : entries fdbuf = 0) : FreeBelow fdbuf capacity := by
  intro j hj
  rw [← length] at hj
  rw [List.getElem?_eq_getElem hj]
  by_contra hused
  have hmem : fdbuf[j] ∈ entries fdbuf :=
    mem_entries.mpr ⟨List.getElem_mem hj, fun heq => hused (congrArg some heq)⟩
  rw [empty] at hmem
  exact Multiset.notMem_zero _ hmem

/-! ### Every server settles -/

theorem sound_of_run (run : Run ServerStep Server.initial evs S) : S.Sound :=
  run.invariant (I := Server.Sound) (fun _ _ _ h step => h.step step) sound_initial

/-- With an empty table, every call of `creg_wait_for_empty` can return by its own reads. -/
theorem wait_can_return (run : Run ServerStep Server.initial evs S)
    (empty : entries S.state.registry.fdbuf = 0) {before after : List Call}
    (hcalls : S.state.calls = before ++ c :: after) (hpolls : c.Polls) :
    ∃ ls, Run Step S.state ls ⟨S.state.registry, before ++ .waitReturned :: after⟩ := by
  obtain ⟨hcounted, hinformed⟩ := informed_of_run (run_restored run)
  have hfree : FreeBelow S.state.registry.fdbuf capacity :=
    freeBelow_of_empty hcounted.length empty
  obtain ⟨⟨r, calls⟩, shutdowns⟩ := S
  obtain rfl : calls = before ++ c :: after := hcalls
  cases c
  case waitReturned => exact ⟨[], .nil _⟩
  case waitLoop i flag =>
    have hi : i < capacity := (hinformed (.waitLoop i flag) (by simp [Server.restored])).1
    have hcapacity := capacity_eq
    exact wait_returns hfree (show i + (1023 - i) = 1023 by omega) flag
  all_goals cases hpolls

end CLanguage.Registry
