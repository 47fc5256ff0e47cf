import CLanguage.Registry.Drain
import Mathlib

/-!
# Shutting down all clients

`terminate` calls `creg_shutdown_all`, which goes through the table under the mutex and
shuts down every descriptor in it, and then waits for the table to drain. The service
threads go on registering and unregistering in the meantime.

A server is a registry with calls of `creg_shutdown_all` beside the others. With the
mutex that such a call holds given back, its steps are those of the registry, or are not
seen there. So all that is true of the registry's runs is true of the server's.

## Main definitions

* `Shutdown`, `Server`, `ServerStep` — calls of `creg_shutdown_all` among the others
* `Server.restored` — the registry without them

## Main results

* `run_restored` — the calls of `creg_shutdown_all` change nothing
* `shutdown_registered` — what they shut down
-/

namespace CLanguage.Registry

open Lib

/-- What a call of `creg_shutdown_all` does next: the wait, or the loop at entry `i` with the
descriptors that were passed to `shutdown` before, and behind the last entry the post. -/
inductive Shutdown where
  | wait
  | scan (i : ℕ) (shut : List ℤ)
  deriving DecidableEq

/-- What a step of the server does. -/
inductive Event where
  | registry (a : Label)
  | shutdownAll
  | internal
  /-- A call of `creg_shutdown_all` has gone through the table, and posts the mutex. -/
  | shutdown (fds : List ℤ)
  deriving DecidableEq

/-- The step of the registry in a step of the server. -/
def Event.label : Event → Option Label
  | .registry a => some a
  | _ => none

/-- The descriptors that were shut down, behind entry `i`. -/
def shutEntry (fdbuf : List ℤ) (i : ℕ) (shut : List ℤ) : List ℤ :=
  shut ++ fdbuf[i]?.toList.filter fun e => e ≠ -1

/-- The next step of a call of `creg_shutdown_all`. -/
def Shutdown.next (r : ClientRegistry) : Shutdown → Option (ClientRegistry × Event × Option Shutdown)
  | .wait => (semWait r.mutex).map fun v => ({ r with mutex := v }, .internal, some (.scan 0 []))
  | .scan i shut =>
    if i < capacity then some (r, .internal, some (.scan (i + 1) (shutEntry r.fdbuf i shut)))
    else some ({ r with mutex := r.mutex + 1 }, .shutdown shut, none)

/-- The registry with the calls in progress, those of `creg_shutdown_all` apart. -/
structure Server where
  state : State
  shutdowns : List Shutdown

def Server.initial : Server := ⟨Registry.initial, []⟩

/-- A step of the registry, a new call of `creg_shutdown_all` or a step of one. -/
inductive ServerStep : Server → Event → Server → Prop
  | registry {s s' : State} {a : Label} {shutdowns : List Shutdown} (step : Step s a s') :
      ServerStep ⟨s, shutdowns⟩ (.registry a) ⟨s', shutdowns⟩
  | shutdownAll {s : State} {shutdowns : List Shutdown} :
      ServerStep ⟨s, shutdowns⟩ .shutdownAll ⟨s, shutdowns ++ [.wait]⟩
  | act {s : State} {r' : ClientRegistry} {before after : List Shutdown} {c : Shutdown}
      {ev : Event} {rest : Option Shutdown} (next : c.next s.registry = some (r', ev, rest)) :
      ServerStep ⟨s, before ++ c :: after⟩ ev ⟨⟨r', s.calls⟩, before ++ (rest.toList ++ after)⟩

variable {r r' : ClientRegistry} {s s' : State} {c : Call} {d : Shutdown} {rest : Option Call}
  {rest' : Option Shutdown} {a : Label} {ev : Event} {evs : List Event} {S S' : Server}
  {shutdowns : List Shutdown} {fds shut : List ℤ} {i k : ℕ}

/-! ### The registry without the calls -/

/-- Units of the mutex that a call of `creg_shutdown_all` holds. -/
def Shutdown.held : Shutdown → ℕ
  | .wait => 0
  | .scan _ _ => 1

/-- The units that all these calls hold. -/
def totalHeld (shutdowns : List Shutdown) : ℕ := (shutdowns.map Shutdown.held).sum

@[simp] theorem totalHeld_cons (d : Shutdown) (shutdowns : List Shutdown) :
    totalHeld (d :: shutdowns) = d.held + totalHeld shutdowns := by
  simp [totalHeld]

@[simp] theorem totalHeld_append (l l' : List Shutdown) :
    totalHeld (l ++ l') = totalHeld l + totalHeld l' := by
  simp [totalHeld]

/-- The registry with more units of the mutex. -/
def ClientRegistry.give (r : ClientRegistry) (k : ℕ) : ClientRegistry :=
  { r with mutex := r.mutex + k }

/-- The registry with the mutex given back. -/
def Server.restored (S : Server) : State :=
  ⟨S.state.registry.give (totalHeld S.shutdowns), S.state.calls⟩

theorem semWait_add {v w : ℕ} (h : semWait v = some w) (k : ℕ) :
    semWait (v + k) = some (w + k) := by
  obtain rfl := semWait_eq_some h
  rw [semWait, if_pos (by omega)]
  exact congrArg some (by omega)

/-- With more units of the mutex a call can do what it could do without them. -/
theorem next_give (h : c.next r = some (r', rest)) (k : ℕ) :
    c.next (r.give k) = some (r'.give k, rest) := by
  cases c
  case registerMutex fd | unregisterMutex fd =>
    obtain ⟨v, hv, hr⟩ := Option.map_eq_some_iff.mp h
    obtain ⟨rfl, rfl⟩ := Prod.mk.inj hr
    exact Option.map_eq_some_iff.mpr ⟨_, semWait_add hv k, rfl⟩
  case registerLock fd | registerSlots fd | unregisterItems fd | waitLock =>
    obtain ⟨v, hv, hr⟩ := Option.map_eq_some_iff.mp h
    obtain ⟨rfl, rfl⟩ := Prod.mk.inj hr
    exact Option.map_eq_some_iff.mpr ⟨v, hv, rfl⟩
  case registerPostMutex fd | foundPostMutex fd | unknownPostMutex fd =>
    obtain ⟨rfl, rfl⟩ := Prod.mk.inj (Option.some.inj h)
    refine congrArg some (Prod.ext ?_ rfl)
    simp only [ClientRegistry.give, Nat.add_right_comm]
  case waitReturned => cases h
  all_goals
    obtain ⟨rfl, rfl⟩ := Prod.mk.inj (Option.some.inj h)
    rfl

theorem step_give (h : Step s a s') (k : ℕ) :
    Step ⟨s.registry.give k, s.calls⟩ a ⟨s'.registry.give k, s'.calls⟩ := by
  cases h with
  | invoke proper => exact .invoke proper
  | act next => exact .act (next_give next k)

/-- A step of a call of `creg_shutdown_all` takes the mutex, posts it, or reads an entry. -/
theorem shutdown_next (h : d.next r = some (r', ev, rest')) :
    ev.label = none ∧ r'.fdbuf = r.fdbuf ∧
      r'.give (totalHeld rest'.toList) = r.give d.held := by
  cases d with
  | wait =>
    obtain ⟨v, hv, hr⟩ := Option.map_eq_some_iff.mp h
    obtain ⟨rfl, hrest⟩ := Prod.mk.inj hr
    obtain ⟨rfl, rfl⟩ := Prod.mk.inj hrest
    refine ⟨rfl, rfl, ?_⟩
    have hunit := semWait_eq_some hv
    simp [ClientRegistry.give, Shutdown.held, totalHeld, hunit]
  | scan i shut =>
    rw [Shutdown.next] at h
    split at h
    · obtain ⟨rfl, hrest⟩ := Prod.mk.inj (Option.some.inj h)
      obtain ⟨rfl, rfl⟩ := Prod.mk.inj hrest
      exact ⟨rfl, rfl, rfl⟩
    · obtain ⟨rfl, hrest⟩ := Prod.mk.inj (Option.some.inj h)
      obtain ⟨rfl, rfl⟩ := Prod.mk.inj hrest
      exact ⟨rfl, rfl, rfl⟩

theorem give_give (r : ClientRegistry) (k l : ℕ) : (r.give k).give l = r.give (k + l) := by
  simp only [ClientRegistry.give, Nat.add_assoc]

/-- A step of the server is one of the restored registry, or is not seen there. -/
theorem restored_step (h : ServerStep S ev S') :
    (∀ a, ev.label = some a → Step S.restored a S'.restored) ∧
      (ev.label = none → S'.restored = S.restored) := by
  cases h with
  | @registry s s' a shutdowns step =>
    refine ⟨fun b hb => ?_, fun hnone => absurd hnone (Option.some_ne_none a)⟩
    obtain rfl := Option.some.inj hb
    exact step_give step _
  | @shutdownAll s shutdowns =>
    refine ⟨fun b hb => absurd hb.symm (Option.some_ne_none b), fun _ => ?_⟩
    simp [Server.restored, Shutdown.held, totalHeld]
  | @act s r' before after d ev rest' next =>
    obtain ⟨hlabel, -, hgive⟩ := shutdown_next next
    refine ⟨fun b hb => absurd (hlabel.symm.trans hb).symm (Option.some_ne_none b), fun _ => ?_⟩
    have hunits := congrArg (fun r => r.give (totalHeld before + totalHeld after)) hgive
    simp only [give_give] at hunits
    simp only [Server.restored, totalHeld_append, totalHeld_cons]
    rw [Nat.add_left_comm, hunits, Nat.add_left_comm (totalHeld before)]

/-- The labels of the registry's steps in a run of the server. -/
def labels (evs : List Event) : List Label := evs.filterMap Event.label

/-- The runs of the server are runs of the registry. -/
theorem run_restored (run : Run ServerStep S evs S') : Run Step S.restored (labels evs) S'.restored :=
  run.filterMap (fun _ _ _ b h => (restored_step h).1 b) fun _ _ _ h => (restored_step h).2

/-! ### What is shut down -/

/-- A call that does not hold the mutex does not write to the table. -/
theorem next_table (h : c.next r = some (r', rest)) (idle : heldMutex c = 0) :
    r'.fdbuf = r.fdbuf := by
  cases move_of_next h with
  | registerScan | found | unknown => exact absurd idle Nat.one_ne_zero
  | _ => rfl

theorem heldMutex_le_total {calls : List Call} (hc : c ∈ calls) :
    heldMutex c ≤ total heldMutex calls := by
  obtain ⟨before, after, rfl⟩ := List.append_of_mem hc
  rw [total_append, total_cons]
  omega

theorem held_le_total (hd : d ∈ shutdowns) : d.held ≤ totalHeld shutdowns := by
  obtain ⟨before, after, rfl⟩ := List.append_of_mem hd
  rw [totalHeld_append, totalHeld_cons]
  omega

/-- A call of `creg_shutdown_all` has shut down what stands in the entries it has passed. -/
def Shutdown.Passed (fdbuf : List ℤ) : Shutdown → Prop
  | .wait => True
  | .scan i shut => i ≤ capacity ∧ shut = (fdbuf.take i).filter fun e => e ≠ -1

/-- What the calls of a server know about the table. -/
structure Server.Sound (S : Server) : Prop where
  counted : Counted S.restored
  passed : ∀ d ∈ S.shutdowns, d.Passed S.state.registry.fdbuf

theorem shutEntry_take (fdbuf : List ℤ) (i : ℕ) :
    shutEntry fdbuf i ((fdbuf.take i).filter fun e => e ≠ -1) =
      (fdbuf.take (i + 1)).filter fun e => e ≠ -1 := by
  rw [shutEntry, List.take_add_one, List.filter_append]

theorem passed_next (h : d.next r = some (r', ev, rest')) (passed : d.Passed r.fdbuf) :
    ∀ d' ∈ rest'.toList, d'.Passed r.fdbuf := by
  intro d' hd'
  cases d with
  | wait =>
    obtain ⟨v, -, hr⟩ := Option.map_eq_some_iff.mp h
    obtain ⟨-, hrest⟩ := Prod.mk.inj hr
    obtain ⟨-, rfl⟩ := Prod.mk.inj hrest
    rw [List.mem_singleton.mp hd']
    exact ⟨Nat.zero_le _, rfl⟩
  | scan i shut =>
    obtain ⟨hi, rfl⟩ := passed
    rw [Shutdown.next] at h
    split at h
    · next hlt =>
      obtain ⟨-, hrest⟩ := Prod.mk.inj (Option.some.inj h)
      obtain ⟨-, rfl⟩ := Prod.mk.inj hrest
      rw [List.mem_singleton.mp hd', shutEntry_take]
      exact ⟨hlt, rfl⟩
    · obtain ⟨-, hrest⟩ := Prod.mk.inj (Option.some.inj h)
      obtain ⟨-, rfl⟩ := Prod.mk.inj hrest
      cases hd'

/-- While a call goes through the table, no step of the registry writes to it. -/
theorem table_of_scan (sound : S.Sound) (scanning : Shutdown.scan i shut ∈ S.shutdowns)
    (step : Step S.state a s') : s'.registry.fdbuf = S.state.registry.fdbuf := by
  have hmutex := sound.counted.mutex
  have hheld := held_le_total scanning
  cases S with
  | mk s shutdowns =>
    cases step with
    | invoke proper => rfl
    | @act r r' before after c rest next =>
      have hle : heldMutex c ≤ total heldMutex (before ++ c :: after) :=
        heldMutex_le_total (List.mem_append_right _ List.mem_cons_self)
      refine next_table next ?_
      simp only [Server.restored, ClientRegistry.give] at hmutex
      simp only [Shutdown.held] at hheld
      omega

theorem Server.Sound.step (sound : S.Sound) (step : ServerStep S ev S') : S'.Sound := by
  obtain ⟨hseen, hunseen⟩ := restored_step step
  refine ⟨?_, ?_⟩
  · cases hlabel : ev.label with
    | none =>
      rw [hunseen hlabel]
      exact sound.counted
    | some a => exact (sound.counted.step (hseen a hlabel)).1
  · intro d hd
    cases step with
    | @registry s s' a shutdowns step =>
      -- a scan has the mutex, and the table only changes under the mutex
      cases d with
      | wait => trivial
      | scan i shut =>
        have htable := table_of_scan sound hd step
        obtain ⟨hi, hshut⟩ := sound.passed _ hd
        exact ⟨hi, htable.symm ▸ hshut⟩
    | @shutdownAll s shutdowns =>
      rcases List.mem_append.mp hd with hd | hd
      · exact sound.passed d hd
      · rw [List.mem_singleton.mp hd]
        trivial
    | @act s r' before after d₀ ev rest' next =>
      -- no call of `creg_shutdown_all` changes the table
      obtain ⟨-, htable, -⟩ := shutdown_next next
      have hother : ∀ d ∈ before ++ after, d.Passed r'.fdbuf := by
        intro d hd
        rw [htable]
        refine sound.passed d ?_
        rcases List.mem_append.mp hd with hd | hd
        · exact List.mem_append_left _ hd
        · exact List.mem_append_right _ (List.mem_cons_of_mem _ hd)
      rcases List.mem_append.mp hd with hd | hd
      · exact hother d (List.mem_append_left _ hd)
      · rcases List.mem_append.mp hd with hd | hd
        · have hpassed := sound.passed d₀ (List.mem_append_right _ List.mem_cons_self)
          exact htable.symm ▸ passed_next next hpassed d hd
        · exact hother d (List.mem_append_right _ hd)

/-- What a call shuts down is what the table holds when it is through. -/
theorem entries_of_shutdown (sound : S.Sound) (step : ServerStep S (.shutdown fds) S') :
    entries S.state.registry.fdbuf = fds := by
  generalize hev : Event.shutdown fds = ev at step
  cases step with
  | registry step => cases hev
  | shutdownAll => cases hev
  | @act s r' before after d ev rest' next =>
    subst hev
    have hpassed := sound.passed d (List.mem_append_right _ List.mem_cons_self)
    cases d with
    | wait =>
      obtain ⟨v, -, hr⟩ := Option.map_eq_some_iff.mp next
      obtain ⟨-, hrest⟩ := Prod.mk.inj hr
      cases (Prod.mk.inj hrest).1
    | scan i shut =>
      obtain ⟨hi, hshut⟩ := hpassed
      rw [Shutdown.next] at next
      split at next
      · obtain ⟨-, hrest⟩ := Prod.mk.inj (Option.some.inj next)
        cases (Prod.mk.inj hrest).1
      · next hlast =>
        obtain ⟨-, hrest⟩ := Prod.mk.inj (Option.some.inj next)
        have hfds := Event.shutdown.inj (Prod.mk.inj hrest).1
        -- the scan has passed every entry
        have hlength : s.registry.fdbuf.length ≤ i := by
          have hcapacity : s.registry.fdbuf.length = capacity := sound.counted.length
          omega
        rw [← hfds, hshut, List.take_of_length_le hlength]
        rfl

theorem sound_initial : Server.initial.Sound where
  counted := counted_initial
  passed _ h := absurd h List.not_mem_nil

theorem entries_of_run (run : Run ServerStep Server.initial evs S) :
    entries S.state.registry.fdbuf = registered (scans (labels evs)) := by
  obtain ⟨-, hentries, -⟩ := counted_initial.run (run_restored run)
  have hempty : entries initial.registry.fdbuf = 0 :=
    Multiset.card_eq_zero.mp counted_initial.items.symm
  rw [hempty] at hentries
  exact hentries

/-- A call of `creg_wait_for_empty` that has returned has seen free entries only. -/
theorem entries_of_waitReturned {ls : List Label} (run : Run Step initial ls s)
    (returned : Call.waitReturned ∈ s.calls) : entries s.registry.fdbuf = 0 := by
  obtain ⟨hcounted, hinformed⟩ := informed_of_run run
  have hall : FreeBelow s.registry.fdbuf capacity := hinformed _ returned
  apply Multiset.eq_zero_of_forall_notMem
  intro e he
  obtain ⟨hmem, hused⟩ := mem_entries.mp he
  obtain ⟨j, hj, rfl⟩ := List.getElem_of_mem hmem
  have hfree := hall j (hcounted.length ▸ hj)
  rw [List.getElem?_eq_getElem hj] at hfree
  exact hused (Option.some.inj hfree)

/-- Whatever other threads do, a call of `creg_shutdown_all` shuts down the descriptors whose
registration has taken effect before it is through, and not their removal, and no others. Beside
such calls the table is what its scans make of it one after the other, and drained when
`creg_wait_for_empty` has returned. -/
theorem shutdown_registered (run : Run ServerStep Server.initial evs S) :
    entries S.state.registry.fdbuf = registered (scans (labels evs)) ∧
      (∀ before (fds : List ℤ) after, evs = before ++ .shutdown fds :: after →
        (fds : Multiset ℤ) = registered (scans (labels before))) ∧
      (Call.waitReturned ∈ S.state.calls → entries S.state.registry.fdbuf = 0) := by
  refine ⟨entries_of_run run, fun before fds after hevs => ?_, fun returned => ?_⟩
  · subst hevs
    obtain ⟨S₁, hbefore, hrest⟩ := run.exists_of_append
    have hsound : S₁.Sound := hbefore.invariant (fun _ _ _ h step => h.step step) sound_initial
    cases hrest with
    | cons first _ => rw [← entries_of_shutdown hsound first, entries_of_run hbefore]
  · have hrun : Run Step initial (labels evs) S.restored := run_restored run
    have hempty : entries S.restored.registry.fdbuf = 0 := entries_of_waitReturned hrun returned
    exact hempty

/-! ### A call gets through -/

/-- With the mutex, a call goes through the table. -/
theorem scan_reaches (s : State) (hi : i ≤ capacity) :
    Run ServerStep ⟨s, [.scan 0 []]⟩ (List.replicate i .internal)
      ⟨s, [.scan i ((s.registry.fdbuf.take i).filter fun e => e ≠ -1)]⟩ := by
  induction i with
  | zero => exact .nil _
  | succ i ih =>
    have hnext : Shutdown.next s.registry (.scan i ((s.registry.fdbuf.take i).filter fun e => e ≠ -1)) =
        some (s.registry, .internal,
          some (.scan (i + 1) ((s.registry.fdbuf.take (i + 1)).filter fun e => e ≠ -1))) := by
      rw [Shutdown.next, if_pos (Nat.lt_of_succ_le hi), shutEntry_take]
    have hstep : ServerStep ⟨s, [] ++ _ :: []⟩ _ ⟨⟨_, s.calls⟩, [] ++ (_ ++ [])⟩ := .act hnext
    rw [List.replicate_succ']
    exact (ih (Nat.le_of_succ_le hi)).append (.cons hstep (.nil _))

theorem run_registry {ls : List Label} (run : Run Step s ls s') (shutdowns : List Shutdown) :
    Run ServerStep ⟨s, shutdowns⟩ (ls.map .registry) ⟨s', shutdowns⟩ := by
  induction run with
  | nil s => exact .nil _
  | cons first _ ih => exact .cons (.registry first) ih

/-- Two clients register and the first one leaves, before all are shut down. -/
theorem shutdown_registered_example :
    ∃ before S, Run ServerStep Server.initial (before ++ .shutdown [5] :: []) S ∧
      (([5] : List ℤ) : Multiset ℤ) = registered (scans (labels before)) := by
  have hrun : (initial.schedule (
      [.inl (.register 4), .inl (.register 5)] ++ List.replicate 14 (.inr 0) ++
        [.inl (.unregister 4)] ++ List.replicate 5 (.inr 0))).map
          (fun r => (r.2.registry.fdbuf.filter fun e => e ≠ -1, r.2.registry.mutex)) =
      some ([5], 1) := by
    decide +kernel
  obtain ⟨⟨ls, s⟩, hsched, hobserve⟩ := Option.map_eq_some_iff.mp hrun
  obtain ⟨hfilter, hmutex⟩ := Prod.mk.inj hobserve
  have hregistry := State.run_of_schedule hsched
  have hlength : s.registry.fdbuf.length = capacity := (counted_initial.run hregistry).1.length
  -- the call takes the mutex, goes through the table and posts the mutex
  have hlock : Shutdown.next s.registry .wait =
      some ({ s.registry with mutex := 0 }, .internal, some (.scan 0 [])) := by
    rw [Shutdown.next, show s.registry.mutex = 1 from hmutex]
    rfl
  have hscan := scan_reaches ⟨{ s.registry with mutex := 0 }, s.calls⟩ (Nat.le_refl capacity)
  have hshut : (s.registry.fdbuf.take capacity).filter (fun e => e ≠ -1) = [5] := by
    rw [List.take_of_length_le hlength.le]
    exact hfilter
  rw [hshut] at hscan
  have hpost : Shutdown.next { s.registry with mutex := 0 } (.scan capacity [5]) =
      some ({ s.registry with mutex := 1 }, .shutdown [5], none) := by
    rw [Shutdown.next, if_neg (Nat.lt_irrefl _)]
  have hinvoke : ServerStep ⟨s, []⟩ .shutdownAll ⟨s, [] ++ [.wait]⟩ := .shutdownAll
  have hlockStep : ServerStep ⟨s, [] ++ .wait :: []⟩ .internal
      ⟨⟨{ s.registry with mutex := 0 }, s.calls⟩, [] ++ ((some (.scan 0 [])).toList ++ [])⟩ :=
    .act hlock
  have hpostStep : ServerStep ⟨⟨{ s.registry with mutex := 0 }, s.calls⟩,
      [] ++ .scan capacity [5] :: []⟩ (.shutdown [5])
      ⟨⟨{ s.registry with mutex := 1 }, s.calls⟩, [] ++ ((none : Option Shutdown).toList ++ [])⟩ :=
    .act hpost
  have hwhole := (run_registry hregistry []).append
    (.cons hinvoke (.cons hlockStep (hscan.append (.cons hpostStep (.nil _)))))
  rw [← List.cons_append, ← List.cons_append, ← List.append_assoc] at hwhole
  have hresult := shutdown_registered hwhole
  exact ⟨_, _, hwhole, hresult.2.1 _ _ _ rfl⟩

end CLanguage.Registry
