import CLanguage.Lib.Run
import CLanguage.Registry.Model

/-!
# The semaphores count the table

Each semaphore's value and the units that calls in progress hold of it add up:
`slots` and the units taken from it to the free entries, `items` and the units
taken from it to the used ones. So the scan of `creg_register` always finds a
free entry, and the table changes as if each call took effect at once, at its
scan (`table_of_scans`).
-/

namespace CLanguage.Registry

open Lib

variable {r r' : ClientRegistry} {s s' : State} {c : Call} {rest : Option Call} {fd e : ℤ}
  {fdbuf : List ℤ} {a : Label} {calls before after : List Call}

/-! ### The table -/

/-- The entries in use, with their multiplicities. -/
def entries (fdbuf : List ℤ) : Multiset ℤ := ↑(fdbuf.filter fun e => e ≠ -1)

theorem entries_cons_free : entries (-1 :: fdbuf) = entries fdbuf := rfl

theorem entries_cons (h : e ≠ -1) : entries (e :: fdbuf) = e ::ₘ entries fdbuf := by
  rw [entries, List.filter_cons_of_pos (by simpa using h)]
  rfl

theorem mem_entries : e ∈ entries fdbuf ↔ e ∈ fdbuf ∧ e ≠ -1 := by
  simp [entries]

@[simp] theorem length_place : (place fd fdbuf).length = fdbuf.length := by
  induction fdbuf with
  | nil => rfl
  | cons e es ih =>
    rw [place]
    split_ifs
    · rfl
    · rw [List.length_cons, List.length_cons, ih]

@[simp] theorem length_clear : (clear fd fdbuf).length = fdbuf.length := by
  induction fdbuf with
  | nil => rfl
  | cons e es ih =>
    rw [clear]
    split_ifs
    · rfl
    · rw [List.length_cons, List.length_cons, ih]

/-- A free entry takes the descriptor. -/
theorem entries_place (proper : fd ≠ -1) (free : -1 ∈ fdbuf) :
    entries (place fd fdbuf) = fd ::ₘ entries fdbuf := by
  induction fdbuf with
  | nil => exact absurd free List.not_mem_nil
  | cons e es ih =>
    rw [place]
    split_ifs with he
    · subst he
      rw [entries_cons proper, entries_cons_free]
    · have hrest : -1 ∈ es := (List.mem_cons.mp free).resolve_left (Ne.symm he)
      rw [entries_cons he, entries_cons he, ih hrest, Multiset.cons_swap]

/-- One entry with the descriptor is freed, if there is one. -/
theorem entries_clear (proper : fd ≠ -1) : entries (clear fd fdbuf) = (entries fdbuf).erase fd := by
  induction fdbuf with
  | nil => rfl
  | cons e es ih =>
    rw [clear]
    split_ifs with he
    · subst he
      rw [entries_cons_free, entries_cons proper, Multiset.erase_cons_head]
    · by_cases hfree : e = -1
      · subst hfree
        rw [entries_cons_free, entries_cons_free, ih]
      · rw [entries_cons hfree, entries_cons hfree, ih, Multiset.erase_cons_tail _ he]

/-- The used entries are fewer than the table is long exactly if one is free. -/
theorem card_entries_lt : (entries fdbuf).card < fdbuf.length ↔ -1 ∈ fdbuf := by
  rw [entries, Multiset.coe_card, List.length_filter_lt_length_iff_exists]
  simp

/-! ### Units held by calls -/

/-- Units of `mutex` that a call holds. -/
def heldMutex : Call → ℕ
  | .registerScan _ | .registerPostMutex _ | .unregisterScan _ | .foundPostMutex _
  | .unknownPostItems _ | .unknownPostMutex _ => 1
  | _ => 0

/-- Units of `lock` that a call holds; `creg_wait_for_empty` never gives its own back. -/
def heldLock : Call → ℕ
  | .registerSlots _ | .registerMutex _ | .registerScan _ | .registerPostMutex _
  | .registerPostItems _ | .registerPostLock _ | .waitLoop _ _ | .waitReturned => 1
  | _ => 0

/-- Units of `slots` that a call holds for a free entry. -/
def heldSlots : Call → ℕ
  | .registerMutex _ | .registerScan _ | .foundPostMutex _ | .foundPostSlots _ => 1
  | _ => 0

/-- Units of `items` that a call holds, or still has to post, for a used entry. -/
def heldItems : Call → ℕ
  | .registerPostMutex _ | .registerPostItems _ | .unregisterMutex _ | .unregisterScan _
  | .unknownPostItems _ => 1
  | _ => 0

/-- The descriptor of a call is not the mark of a free entry. -/
def Call.Proper : Call → Prop
  | .registerLock fd | .registerSlots fd | .registerMutex fd | .registerScan fd
  | .registerPostMutex fd | .registerPostItems fd | .registerPostLock fd
  | .unregisterItems fd | .unregisterMutex fd | .unregisterScan fd
  | .foundPostMutex fd | .foundPostSlots fd | .unknownPostItems fd | .unknownPostMutex fd => fd ≠ -1
  | _ => True

/-- The units that all calls in progress hold. -/
def total (held : Call → ℕ) (calls : List Call) : ℕ := (calls.map held).sum

variable {held : Call → ℕ}

@[simp] theorem total_nil : total held [] = 0 := rfl

@[simp] theorem total_cons : total held (c :: calls) = held c + total held calls := by
  simp [total]

@[simp] theorem total_append :
    total held (before ++ after) = total held before + total held after := by
  simp [total]

theorem semWait_eq_some {v w : ℕ} (h : semWait v = some w) : v = w + 1 := by
  unfold semWait at h
  split_ifs at h with hpos
  have := Option.some.inj h
  omega

/-! ### One step of a call -/

/-- What a step of a call finds and does: it takes a unit of a semaphore that has one, posts a
semaphore, scans the table or reads an entry. -/
inductive Move (r : ClientRegistry) : Call → ClientRegistry → Option Call → Prop
  | registerLock {fd : ℤ} {v : ℕ} (unit : r.lock = v + 1) :
      Move r (.registerLock fd) { r with lock := v } (some (.registerSlots fd))
  | registerSlots {fd : ℤ} {v : ℕ} (unit : r.slots = v + 1) :
      Move r (.registerSlots fd) { r with slots := v } (some (.registerMutex fd))
  | registerMutex {fd : ℤ} {v : ℕ} (unit : r.mutex = v + 1) :
      Move r (.registerMutex fd) { r with mutex := v } (some (.registerScan fd))
  | registerScan {fd : ℤ} :
      Move r (.registerScan fd) { r with fdbuf := place fd r.fdbuf } (some (.registerPostMutex fd))
  | registerPostMutex {fd : ℤ} :
      Move r (.registerPostMutex fd) { r with mutex := r.mutex + 1 } (some (.registerPostItems fd))
  | registerPostItems {fd : ℤ} :
      Move r (.registerPostItems fd) { r with items := r.items + 1 } (some (.registerPostLock fd))
  | registerPostLock {fd : ℤ} :
      Move r (.registerPostLock fd) { r with lock := r.lock + 1 } none
  | unregisterItems {fd : ℤ} {v : ℕ} (unit : r.items = v + 1) :
      Move r (.unregisterItems fd) { r with items := v } (some (.unregisterMutex fd))
  | unregisterMutex {fd : ℤ} {v : ℕ} (unit : r.mutex = v + 1) :
      Move r (.unregisterMutex fd) { r with mutex := v } (some (.unregisterScan fd))
  | found {fd : ℤ} (mem : fd ∈ r.fdbuf) :
      Move r (.unregisterScan fd) { r with fdbuf := clear fd r.fdbuf } (some (.foundPostMutex fd))
  | unknown {fd : ℤ} (notMem : fd ∉ r.fdbuf) :
      Move r (.unregisterScan fd) { r with fdbuf := clear fd r.fdbuf }
        (some (.unknownPostItems fd))
  | foundPostMutex {fd : ℤ} :
      Move r (.foundPostMutex fd) { r with mutex := r.mutex + 1 } (some (.foundPostSlots fd))
  | foundPostSlots {fd : ℤ} : Move r (.foundPostSlots fd) { r with slots := r.slots + 1 } none
  | unknownPostItems {fd : ℤ} :
      Move r (.unknownPostItems fd) { r with items := r.items + 1 } (some (.unknownPostMutex fd))
  | unknownPostMutex {fd : ℤ} : Move r (.unknownPostMutex fd) { r with mutex := r.mutex + 1 } none
  | waitLock {v : ℕ} (unit : r.lock = v + 1) :
      Move r .waitLock { r with lock := v } (some (.waitLoop 0 false))
  | waitPass {i i' : ℕ} {flag flag' : Bool} (poll : pollEntry r.fdbuf i flag = .waitLoop i' flag') :
      Move r (.waitLoop i flag) r (some (.waitLoop i' flag'))
  | waitReturn {i : ℕ} {flag : Bool} (poll : pollEntry r.fdbuf i flag = .waitReturned) :
      Move r (.waitLoop i flag) r (some .waitReturned)

/-- A call that polls the table is in its loop or has returned. -/
theorem pollEntry_cases (fdbuf : List ℤ) (i : ℕ) (flag : Bool) :
    pollEntry fdbuf i flag = .waitReturned ∨
      ∃ i' flag', pollEntry fdbuf i flag = .waitLoop i' flag' := by
  rw [pollEntry]
  split_ifs
  all_goals first | exact .inl rfl | exact .inr ⟨_, _, rfl⟩

theorem move_of_next (h : c.next r = some (r', rest)) : Move r c r' rest := by
  cases c <;> simp only [Call.next, Option.map_eq_some_iff, Option.some.injEq, Prod.mk.injEq] at h
  case registerLock fd | registerSlots fd | registerMutex fd | unregisterItems fd |
      unregisterMutex fd | waitLock =>
    obtain ⟨v, hv, rfl, rfl⟩ := h
    constructor
    exact semWait_eq_some hv
  -- the scan goes on in two ways
  case unregisterScan fd =>
    obtain ⟨rfl, rfl⟩ := h
    by_cases hmem : fd ∈ r.fdbuf
    · rw [if_pos hmem]
      exact .found hmem
    · rw [if_neg hmem]
      exact .unknown hmem
  case waitLoop i flag =>
    obtain ⟨rfl, rfl⟩ := h
    obtain hpoll | ⟨i', flag', hpoll⟩ := pollEntry_cases r.fdbuf i flag
    · rw [hpoll]
      exact .waitReturn hpoll
    · rw [hpoll]
      exact .waitPass hpoll
  case waitReturned => exact absurd h nofun
  all_goals
    obtain ⟨rfl, rfl⟩ := h
    constructor

theorem next_mutex (h : c.next r = some (r', rest)) :
    r'.mutex + total heldMutex rest.toList = r.mutex + heldMutex c := by
  cases move_of_next h with
  | registerMutex unit | unregisterMutex unit => exact unit.symm
  | _ => rfl

theorem next_lock (h : c.next r = some (r', rest)) :
    r'.lock + total heldLock rest.toList = r.lock + heldLock c := by
  cases move_of_next h with
  | registerLock unit | waitLock unit => exact unit.symm
  | _ => rfl

/-- The effect of an operation on the descriptors in use, as the callers see it. -/
def Op.apply : Op → Multiset ℤ → Multiset ℤ
  | .register fd => (fd ::ₘ ·)
  | .unregister fd => (Multiset.erase · fd)
  | .waitForEmpty => id

/-- The effect of a step: a scan carries out its operation, other steps do nothing. -/
def Label.apply : Label → Multiset ℤ → Multiset ℤ
  | .scan op => op.apply
  | _ => id

/-- Only the scans change the table; a free entry is needed for `creg_register`. -/
theorem next_entries (h : c.next r = some (r', rest)) (proper : c.Proper)
    (free : heldSlots c = 1 → -1 ∈ r.fdbuf) :
    entries r'.fdbuf = c.label.apply (entries r.fdbuf) ∧ r'.fdbuf.length = r.fdbuf.length := by
  cases move_of_next h with
  | registerScan => exact ⟨entries_place proper (free rfl), length_place⟩
  | found | unknown => exact ⟨entries_clear proper, length_clear⟩
  | _ => exact ⟨rfl, rfl⟩

/-- A scan that finds the descriptor frees one entry. -/
theorem card_erase_found (mem : fd ∈ fdbuf) (proper : fd ≠ -1) :
    ((entries fdbuf).erase fd).card + 1 = (entries fdbuf).card :=
  Multiset.card_erase_add_one (mem_entries.mpr ⟨mem, proper⟩)

theorem erase_unknown (notMem : fd ∉ fdbuf) : (entries fdbuf).erase fd = entries fdbuf :=
  Multiset.erase_of_notMem fun hin => notMem (mem_entries.mp hin).1

theorem next_slots (h : c.next r = some (r', rest)) (proper : c.Proper)
    (free : heldSlots c = 1 → -1 ∈ r.fdbuf) :
    r'.slots + total heldSlots rest.toList + (entries r'.fdbuf).card =
      r.slots + heldSlots c + (entries r.fdbuf).card := by
  rw [(next_entries h proper free).1]
  cases move_of_next h with
  | registerSlots unit =>
    -- the unit passes from the semaphore to the call
    rw [unit]
    rfl
  | registerScan =>
    -- the unit of the call becomes an entry in use
    simp only [Call.label, Label.apply, Op.apply, heldSlots, Option.toList_some, total_cons,
      total_nil, Multiset.card_cons]
    omega
  | found mem =>
    have hcard := card_erase_found mem proper
    simp only [Call.label, Label.apply, Op.apply, heldSlots, Option.toList_some, total_cons,
      total_nil]
    omega
  | unknown notMem =>
    simp only [Call.label, Label.apply, Op.apply, erase_unknown notMem]
    rfl
  | _ => rfl

theorem next_items (h : c.next r = some (r', rest)) (proper : c.Proper)
    (free : heldSlots c = 1 → -1 ∈ r.fdbuf) :
    r'.items + total heldItems rest.toList + (entries r.fdbuf).card =
      r.items + heldItems c + (entries r'.fdbuf).card := by
  rw [(next_entries h proper free).1]
  cases move_of_next h with
  | unregisterItems unit =>
    rw [unit]
    rfl
  | registerScan =>
    -- the entry is in use, and its unit is still to be posted
    simp only [Call.label, Label.apply, Op.apply, heldItems, Option.toList_some, total_cons,
      total_nil, Multiset.card_cons]
    omega
  | found mem =>
    have hcard := card_erase_found mem proper
    simp only [Call.label, Label.apply, Op.apply, heldItems, Option.toList_some, total_cons,
      total_nil]
    omega
  | unknown notMem =>
    simp only [Call.label, Label.apply, Op.apply, erase_unknown notMem]
    rfl
  | _ => rfl

/-- The rest of a call passes on its descriptor. -/
theorem next_proper (h : c.next r = some (r', rest)) (proper : c.Proper) :
    ∀ c' ∈ rest.toList, c'.Proper := by
  intro c' hc'
  cases move_of_next h with
  | registerPostLock | foundPostSlots | unknownPostMutex => exact absurd hc' List.not_mem_nil
  | waitLock | waitPass | waitReturn =>
    obtain rfl := List.mem_singleton.mp hc'
    trivial
  | _ =>
    obtain rfl := List.mem_singleton.mp hc'
    exact proper

/-! ### The invariant -/

/-- The semaphores, the units held by the calls and the table add up. -/
structure Counted (s : State) : Prop where
  length : s.registry.fdbuf.length = capacity
  mutex : s.registry.mutex + total heldMutex s.calls = 1
  lock : s.registry.lock + total heldLock s.calls = 1
  slots : s.registry.slots + total heldSlots s.calls + (entries s.registry.fdbuf).card = capacity
  items : s.registry.items + total heldItems s.calls = (entries s.registry.fdbuf).card
  proper : ∀ c ∈ s.calls, c.Proper

theorem counted_initial : Counted initial where
  length := List.length_replicate
  mutex := rfl
  lock := rfl
  slots := by
    have hempty : entries initial.registry.fdbuf = 0 := by
      rw [entries, List.filter_eq_nil_iff.mpr fun e he => by simp [List.eq_of_mem_replicate he]]
      rfl
    rw [hempty]
    rfl
  items := by
    rw [entries, List.filter_eq_nil_iff.mpr fun e he => by simp [List.eq_of_mem_replicate he]]
    rfl
  proper := by simp [initial]

/-- A call that holds a unit of `slots` finds a free entry. -/
theorem Counted.free (h : Counted s) (hc : c ∈ s.calls) (holds : heldSlots c = 1) :
    -1 ∈ s.registry.fdbuf := by
  obtain ⟨before, after, hcalls⟩ := List.append_of_mem hc
  have hslots := h.slots
  rw [hcalls, total_append, total_cons, holds] at hslots
  rw [← card_entries_lt, h.length]
  omega

/-- A new call holds nothing. -/
theorem held_start (op : Op) : heldMutex op.start = 0 ∧ heldLock op.start = 0 ∧
    heldSlots op.start = 0 ∧ heldItems op.start = 0 := by
  cases op <;> exact ⟨rfl, rfl, rfl, rfl⟩

theorem proper_start {op : Op} (h : op.Proper) : op.start.Proper := by
  cases op with
  | register fd => exact fun heq => absurd (heq ▸ h : (0 : ℤ) ≤ -1) (by decide)
  | unregister fd => exact fun heq => absurd (heq ▸ h : (0 : ℤ) ≤ -1) (by decide)
  | waitForEmpty => trivial

/-- Every step keeps the counts and has its effect on the table. -/
theorem Counted.step (h : Counted s) (step : Step s a s') :
    Counted s' ∧ entries s'.registry.fdbuf = a.apply (entries s.registry.fdbuf) := by
  cases step with
  | @invoke r calls op proper =>
    obtain ⟨hmutex, hlock, hslots, hitems⟩ := held_start op
    refine ⟨⟨h.length, ?_, ?_, ?_, ?_, fun c hc => ?_⟩, rfl⟩
    · simpa [hmutex] using h.mutex
    · simpa [hlock] using h.lock
    · simpa [hslots] using h.slots
    · simpa [hitems] using h.items
    · rcases List.mem_append.mp hc with hc | hc
      · exact h.proper c hc
      · exact List.mem_singleton.mp hc ▸ proper_start proper
  | @act r r' before after c rest next =>
    have hmem : c ∈ before ++ c :: after := by simp
    have hproper := h.proper c hmem
    have hfree := fun holds => h.free hmem holds
    obtain ⟨hentries, hlength⟩ := next_entries next hproper hfree
    have hmutex := h.mutex
    have hlock := h.lock
    have hslots := h.slots
    have hitems := h.items
    -- what the step takes or posts is what the call holds more or less
    have hmutex' := next_mutex next
    have hlock' := next_lock next
    have hslots' := next_slots next hproper hfree
    have hitems' := next_items next hproper hfree
    simp only [total_append, total_cons] at hmutex hlock hslots hitems
    refine ⟨⟨hlength.trans h.length, ?_, ?_, ?_, ?_, fun c' hc' => ?_⟩, hentries⟩
    · simp only [total_append]
      omega
    · simp only [total_append]
      omega
    · simp only [total_append]
      omega
    · simp only [total_append]
      omega
    · rcases List.mem_append.mp hc' with hc' | hc'
      · exact h.proper c' (List.mem_append_left _ hc')
      · rcases List.mem_append.mp hc' with hc' | hc'
        · exact next_proper next hproper c' hc'
        · exact h.proper c' (List.mem_append_right _ (List.mem_cons_of_mem _ hc'))

/-! ### Runs -/

/-- The operations that the scans of a run carry out, in order. -/
def scans (labels : List Label) : List Op :=
  labels.filterMap fun
    | .scan op => some op
    | _ => none

/-- The calls that a run makes, in order. -/
def invocations (labels : List Label) : List Op :=
  labels.filterMap fun
    | .invoke op => some op
    | _ => none

/-- The descriptors in use after operations that take effect one after the other. -/
def registered (ops : List Op) : Multiset ℤ := ops.foldl (fun m op => op.apply m) 0

/-- The operation of a call that has not taken effect yet. -/
def Call.pending : Call → Option Op
  | .registerLock fd | .registerSlots fd | .registerMutex fd | .registerScan fd =>
    some (.register fd)
  | .unregisterItems fd | .unregisterMutex fd | .unregisterScan fd => some (.unregister fd)
  | .waitLock | .waitLoop _ _ | .waitReturned => some .waitForEmpty
  | _ => none

/-- The operation that the scan of a label carries out. -/
def Label.scanned : Label → Option Op
  | .scan op => some op
  | _ => none

theorem next_pending (h : c.next r = some (r', rest)) :
    c.pending.toList = c.label.scanned.toList ++ rest.toList.filterMap Call.pending := by
  cases move_of_next h with
  | _ => rfl

theorem scans_cons (ls : List Label) : scans (a :: ls) = a.scanned.toList ++ scans ls := by
  cases a <;> rfl

/-- A run applies its scans to the table, and its calls have taken effect or are pending. -/
theorem Counted.run {ls : List Label} (h : Counted s) (run : Run Step s ls s') :
    Counted s' ∧
      entries s'.registry.fdbuf =
        (scans ls).foldl (fun m op => op.apply m) (entries s.registry.fdbuf) ∧
      (s.calls.filterMap Call.pending ++ invocations ls).Perm
        (scans ls ++ s'.calls.filterMap Call.pending) := by
  induction run with
  | nil s => exact ⟨h, rfl, by simp [invocations, scans]⟩
  | @cons s s' s'' a ls first rest ih =>
    obtain ⟨h', hentries⟩ := h.step first
    obtain ⟨h'', hentries', hperm⟩ := ih h'
    refine ⟨h'', ?_, ?_⟩
    · rw [hentries', hentries, scans_cons, List.foldl_append]
      cases a <;> rfl
    · cases first with
      | @invoke r calls op proper =>
        have hstart : op.start.pending = some op := by cases op <;> rfl
        have hsplit : (calls ++ [op.start]).filterMap Call.pending =
            calls.filterMap Call.pending ++ [op] := by simp [hstart]
        rw [hsplit, List.append_assoc] at hperm
        exact hperm
      | @act r r' before after c rest' next =>
        -- a step of a call: its scan, if it is one, takes the operation from the pending ones
        have hpending := next_pending next
        have hinv : invocations (c.label :: ls) = invocations ls := by
          cases c <;> rfl
        have hsplit : (before ++ c :: after).filterMap Call.pending =
            before.filterMap Call.pending ++ (c.pending.toList ++ after.filterMap Call.pending) := by
          rw [List.filterMap_append, List.filterMap_cons]
          cases c.pending <;> rfl
        rw [List.filterMap_append, List.filterMap_append] at hperm
        rw [hinv, hsplit, hpending, scans_cons, List.append_assoc, List.append_assoc,
          List.append_assoc, List.append_assoc]
        refine (List.perm_append_comm_assoc _ _ _).trans (List.Perm.append_left _ ?_)
        simpa only [List.append_assoc] using hperm

/-- The table is what the scans of the run make of it one after the other. Between
calls, every call has been carried out exactly once, `items` counts the descriptors
in use and `slots` the free entries. -/
theorem table_of_scans {ls : List Label} (run : Run Step initial ls s) :
    entries s.registry.fdbuf = registered (scans ls) ∧
      (s.calls = [] → (scans ls).Perm (invocations ls) ∧
        s.registry.slots + (registered (scans ls)).card = 1024 ∧
        s.registry.items = (registered (scans ls)).card) := by
  obtain ⟨h, hentries, hperm⟩ := counted_initial.run run
  have hempty : entries initial.registry.fdbuf = 0 := by
    have hitems := counted_initial.items
    exact Multiset.card_eq_zero.mp hitems.symm
  rw [hempty] at hentries
  have hentries : entries s.registry.fdbuf = registered (scans ls) := hentries
  refine ⟨hentries, fun hquiet => ⟨?_, ?_, ?_⟩⟩
  · rw [hquiet] at hperm
    simpa [initial] using hperm.symm
  · have hslots := h.slots
    rw [hquiet, hentries] at hslots
    exact hslots
  · have hitems := h.items
    rw [hquiet, hentries] at hitems
    exact hitems

/-! ### Schedules -/

/-- A step of call number `i`. -/
def State.act (s : State) (i : ℕ) : Option (Label × State) := do
  let c ← s.calls[i]?
  let (r, rest) ← c.next s.registry
  return (c.label, ⟨r, s.calls.take i ++ (rest.toList ++ s.calls.drop (i + 1))⟩)

theorem State.step_of_act {i : ℕ} (h : s.act i = some (a, s')) : Step s a s' := by
  obtain ⟨c, hc, h⟩ := Option.bind_eq_some_iff.mp h
  obtain ⟨⟨r, rest⟩, hnext, hret⟩ := Option.bind_eq_some_iff.mp h
  obtain ⟨rfl, rfl⟩ := Prod.mk.inj (Option.some.inj hret)
  obtain ⟨hi, rfl⟩ := List.getElem?_eq_some_iff.mp hc
  obtain ⟨r₀, calls⟩ := s
  have hsplit : calls = calls.take i ++ calls[i] :: calls.drop (i + 1) := by
    rw [List.getElem_cons_drop, List.take_append_drop]
  exact (congrArg (fun calls' => Step ⟨r₀, calls'⟩ _ _) hsplit).mpr (.act hnext)

instance : DecidablePred Op.Proper
  | .register fd => inferInstanceAs (Decidable (0 ≤ fd))
  | .unregister fd => inferInstanceAs (Decidable (0 ≤ fd))
  | .waitForEmpty => inferInstanceAs (Decidable True)

/-- A new call, or a step of one of the calls. -/
def State.choose (s : State) : Op ⊕ ℕ → Option (Label × State)
  | .inl op => if op.Proper then some (.invoke op, ⟨s.registry, s.calls ++ [op.start]⟩) else none
  | .inr i => s.act i

/-- The labels and the last state of the run that a scheduler chooses. -/
def State.schedule (s : State) : List (Op ⊕ ℕ) → Option (List Label × State)
  | [] => some ([], s)
  | o :: os => do
    let (a, s) ← s.choose o
    let (ls, s) ← s.schedule os
    return (a :: ls, s)

theorem State.step_of_choose {o : Op ⊕ ℕ} (h : s.choose o = some (a, s')) : Step s a s' := by
  cases o with
  | inl op =>
    rw [State.choose] at h
    split_ifs at h with proper
    obtain ⟨rfl, rfl⟩ := Prod.mk.inj (Option.some.inj h)
    exact .invoke proper
  | inr i => exact State.step_of_act h

theorem State.run_of_schedule {os : List (Op ⊕ ℕ)} {ls : List Label}
    (h : s.schedule os = some (ls, s')) : Run Step s ls s' := by
  induction os generalizing s ls with
  | nil =>
    obtain ⟨rfl, rfl⟩ := Prod.mk.inj (Option.some.inj h)
    exact .nil s
  | cons o os ih =>
    obtain ⟨⟨a, t⟩, hfirst, h⟩ := Option.bind_eq_some_iff.mp h
    obtain ⟨⟨ls', t'⟩, hrest, hret⟩ := Option.bind_eq_some_iff.mp h
    obtain ⟨rfl, rfl⟩ := Prod.mk.inj (Option.some.inj hret)
    exact .cons (State.step_of_choose hfirst) (ih hrest)

/-- Two overlapping registrations, then an unknown and a known descriptor given back at once. -/
theorem table_of_scans_example : ∃ s : State, s.calls = [] ∧ s.registry.items = 1 ∧
    entries s.registry.fdbuf = {5} := by
  have hrun : (initial.schedule (
      [.inl (.register 4), .inl (.register 5)] ++ List.replicate 14 (.inr 0) ++
        [.inl (.unregister 9), .inl (.unregister 4)] ++ [.inr 0, .inr 0, .inr 1] ++
        List.replicate 7 (.inr 0))).map (fun r => (scans r.1, r.2.calls)) =
      some ([.register 4, .register 5, .unregister 9, .unregister 4], []) := by
    decide +kernel
  obtain ⟨⟨ls, s⟩, hsched, hobserve⟩ := Option.map_eq_some_iff.mp hrun
  obtain ⟨hscans, hcalls⟩ : scans ls = _ ∧ s.calls = [] := Prod.mk.inj hobserve
  obtain ⟨htable, hquiet⟩ := table_of_scans (State.run_of_schedule hsched)
  have hregistered : registered (scans ls) = {5} := by
    rw [hscans]
    decide
  rw [hregistered] at htable hquiet
  exact ⟨s, hcalls, (hquiet hcalls).2.2, htable⟩

end CLanguage.Registry
