import CLanguage.Xacto.References
import Mathlib

/-!
# The list of all transactions

The transactions that are kept are in the circular list, in the order in which they were
created. `trans_show_all` goes along it, and `trans_fini` frees it. `trans_show` reads the
link of the sentinel again and again, and so it finds only the oldest transaction.

## Main definitions

* `transShow`, `transShowAll`, `transFini` — the calls that go along the list
* `Listed` — what the list is like in every run

## Main results

* `Listed.showAll`, `Listed.fini` — walks along the list
* `listed_run` — the list after a run of the clients, shown and freed
-/

namespace CLanguage.Xacto

open Manager Lib Client

/-! ### The calls -/

/-- A line that is printed about a transaction. -/
structure Line where
  id : ℕ
  status : TransStatus
  refcnt : ℕ
  deriving DecidableEq

/-- The line about the transaction at an address. -/
def Manager.line (m : Manager) (tp : ℕ) : Line :=
  ⟨(m.trans tp).id, (m.trans tp).status, (m.trans tp).refcnt⟩

/-- `trans_show`. The loop does not move on. -/
def transShow : ℕ → Manager → ℕ → Except Stop (List Line)
  | 0, _, _ => .error .running
  | fuel + 1, m, tp =>
    let b := (m.trans 0).next
    if b = 0 then .ok []
    else if (m.trans b).id = (m.trans tp).id then .ok [m.line b]
    else transShow fuel m tp

/-- The loop of `trans_show_all`, behind the node `a`. -/
def showFrom : ℕ → Manager → ℕ → Except Stop (List Line)
  | 0, _, _ => .error .running
  | fuel + 1, m, a =>
    let b := (m.trans a).next
    if b = 0 then .ok []
    else do
      let lines ← showFrom fuel m b
      return if (m.trans b).id ≠ 0 then m.line b :: lines else lines

/-- `trans_show_all` -/
def transShowAll (fuel : ℕ) (m : Manager) : Except Stop (List Line) := showFrom fuel m 0

/-- The loop of `trans_fini`, at the node `a`. -/
def finiFrom : ℕ → Manager → ℕ → Except Stop Manager
  | 0, _, _ => .error .running
  | fuel + 1, m, a =>
    if a = 0 then .ok m
    else do
      let next := (m.trans a).next
      let m ← m.free a
      finiFrom fuel m next

/-- `trans_fini` -/
def transFini (fuel : ℕ) (m : Manager) : Except Stop Manager := finiFrom fuel m (m.trans 0).next

/-! ### The order of creation -/

/-- The list of the transactions that are kept, from the oldest on. -/
structure Listed (m : Manager) (nodes : List ℕ) : Prop where
  linked : Linked m nodes
  mem : ∀ a, a ∈ nodes ↔ 0 < a ∧ a < m.fresh ∧ (m.trans a).freed = false
  sorted : nodes.Pairwise (· < ·)
  fresh_pos : 0 < m.fresh
  counter : m.counter = m.fresh
  ids : ∀ a, 0 < a → a < m.fresh → (m.trans a).id = a % 2 ^ 32

variable {m m' : Manager} {tp a : ℕ} {nodes pre post rest : List ℕ} {fuel : ℕ} {refs : ℕ → ℕ}
  {c c' : Client} {call : Call} {calls : List Call}

theorem Listed.congr (h : Listed m nodes) (hnext : ∀ a, (m'.trans a).next = (m.trans a).next)
    (hprev : ∀ a, (m'.trans a).prev = (m.trans a).prev)
    (hfreed : ∀ a, (m'.trans a).freed = (m.trans a).freed)
    (hid : ∀ a, (m'.trans a).id = (m.trans a).id) (hfresh : m'.fresh = m.fresh)
    (hcounter : m'.counter = m.counter) : Listed m' nodes where
  linked := h.linked.congr hnext hprev
  mem a := by rw [h.mem, hfresh, hfreed]
  sorted := h.sorted
  fresh_pos := hfresh.symm ▸ h.fresh_pos
  counter := by rw [hcounter, hfresh, h.counter]
  ids a hpos hlt := by
    rw [hid]
    exact h.ids a hpos (hfresh ▸ hlt)

theorem Listed.setRefcnt (h : Listed m nodes) (n : ℕ) : Listed (m.setRefcnt tp n) nodes := by
  refine h.congr ?_ ?_ ?_ ?_ rfl rfl
  all_goals exact fun a => by rw [trans_setRefcnt]

theorem Listed.setStatus (h : Listed m nodes) (status : TransStatus) :
    Listed (m.setStatus tp status) nodes := by
  refine h.congr ?_ ?_ ?_ ?_ rfl rfl
  all_goals exact fun a => by rw [trans_setStatus]

theorem Listed.addDependency (h : Listed m nodes) (tp dtp : ℕ) :
    Listed (addDependency m tp dtp) nodes := by
  refine h.congr ?_ ?_ ?_ ?_ rfl rfl
  all_goals exact fun a => by rw [trans_addDependency]

theorem Listed.create (h : Listed m nodes) : Listed (transCreate m).1 (nodes ++ [m.fresh]) := by
  have hfresh : (transCreate m).1.fresh = m.fresh + 1 := rfl
  have hpos := h.fresh_pos
  -- the new transaction is younger than all in the list, so it may stand at the end
  have hbelow : ∀ a ∈ nodes, a < m.fresh := fun a ha => ((h.mem a).mp ha).2.1
  have hnew : m.fresh ∉ 0 :: nodes := by
    rw [List.mem_cons, not_or]
    exact ⟨hpos.ne', fun hmem => lt_irrefl _ (hbelow _ hmem)⟩
  refine ⟨h.linked.create hnew, fun a => ?_, ?_, Nat.succ_pos _, congrArg (· + 1) h.counter,
    fun a hapos halt => ?_⟩
  · rw [List.mem_append, List.mem_singleton, h.mem, hfresh]
    simp only [trans_transCreate]
    by_cases ha : a = m.fresh
    · subst ha
      simp [hpos]
    · rw [if_neg ha]
      constructor
      · rintro (⟨hapos, halt, hlive⟩ | heq)
        · exact ⟨hapos, Nat.lt_succ_of_lt halt, hlive⟩
        · exact absurd heq ha
      · rintro ⟨hapos, halt, hlive⟩
        exact .inl ⟨hapos, by omega, hlive⟩
  · rw [List.pairwise_append]
    refine ⟨h.sorted, List.pairwise_singleton _ _, fun a ha b hb => ?_⟩
    rw [List.mem_singleton.mp hb]
    exact hbelow a ha
  · simp only [trans_transCreate]
    split
    · next ha => rw [ha, h.counter]
    · next ha => exact h.ids a hapos (by omega)

theorem Listed.remove (h : Listed m nodes) (ht : tp ∈ nodes) :
    ∃ nodes', Listed (m.remove tp) nodes' := by
  obtain ⟨pre, post, rfl⟩ := List.append_of_mem ht
  have hnodup : (tp :: (pre ++ post)).Nodup :=
    List.perm_middle.nodup_iff.mp (List.nodup_cons.mp h.linked.nodup).2
  have hnot := (List.nodup_cons.mp hnodup).1
  refine ⟨pre ++ post, h.linked.remove, fun a => ?_, ?_, h.fresh_pos, h.counter, fun a => ?_⟩
  · have hmem := h.mem a
    rw [List.mem_append, List.mem_cons] at hmem
    have hfresh : (m.remove tp).fresh = m.fresh := rfl
    rw [List.mem_append, hfresh, trans_remove]
    by_cases ha : a = tp
    · subst ha
      rw [List.mem_append] at hnot
      simp [hnot]
    · simpa [ha] using hmem
  · exact h.sorted.sublist ((List.sublist_cons_self tp post).append_left pre)
  · rw [trans_remove]
    exact h.ids a

theorem Listed.unref (h : Listed m nodes) (known : 0 < tp ∧ tp < m.fresh)
    (call : transUnref m tp = .ok m') : ∃ nodes', Listed m' nodes' := by
  obtain ⟨-, ⟨-, hlive, rfl⟩ | ⟨-, rfl⟩⟩ := transUnref_eq_ok.mp call
  · exact h.remove ((h.mem tp).mpr ⟨known.1, known.2, hlive⟩)
  · exact ⟨nodes, h.setRefcnt _⟩

/-! ### Walks -/

/-- The link of the node before the rest of the list. -/
theorem Listed.next (h : Listed m (pre ++ rest)) :
    (m.trans (before 0 pre)).next = after 0 rest :=
  h.linked.toRing.next_before

theorem Listed.ne_zero (h : Listed m nodes) (ha : a ∈ nodes) : a ≠ 0 :=
  Nat.pos_iff_ne_zero.mp ((h.mem a).mp ha).1

/-- The lines about the transactions of the list, but for those with the number 0. -/
def Manager.lines (m : Manager) (nodes : List ℕ) : List Line :=
  (nodes.filter fun a => (m.trans a).id ≠ 0).map m.line

theorem Listed.showFrom (h : Listed m (pre ++ rest)) (enough : rest.length < fuel) :
    showFrom fuel m (before 0 pre) = .ok (m.lines rest) := by
  induction rest generalizing pre fuel with
  | nil =>
    obtain ⟨fuel, rfl⟩ := Nat.exists_eq_add_of_lt enough
    rw [List.length_nil, Nat.zero_add, Xacto.showFrom, h.next]
    rfl
  | cons b rest ih =>
    obtain ⟨fuel, rfl⟩ := Nat.exists_eq_add_of_lt enough
    have hb : b ≠ 0 := h.ne_zero (List.mem_append_right pre List.mem_cons_self)
    have hlisted : Listed m (pre ++ [b] ++ rest) := by
      rwa [List.append_assoc, List.singleton_append]
    have henough : rest.length < (b :: rest).length + fuel := by
      rw [List.length_cons]
      omega
    have hrest := ih hlisted henough
    rw [before_concat] at hrest
    rw [Xacto.showFrom, h.next, after_cons, if_neg hb, hrest]
    refine congrArg Except.ok ?_
    rw [Manager.lines, Manager.lines, List.filter_cons]
    simp only [decide_eq_true_eq]
    split
    · rfl
    · rfl

theorem Listed.showAll (h : Listed m nodes) (enough : nodes.length < fuel) :
    transShowAll fuel m = .ok (m.lines nodes) := by
  have hlisted : Listed m ([] ++ nodes) := h
  exact hlisted.showFrom enough

/-- All transactions of a list freed. -/
def Manager.freeAll (m : Manager) (nodes : List ℕ) : Manager :=
  { m with trans := fun a =>
      if a ∈ nodes then { m.trans a with freed := true } else m.trans a }

@[simp] theorem next_freeAll (m : Manager) (nodes : List ℕ) (a : ℕ) :
    ((m.freeAll nodes).trans a).next = (m.trans a).next := by
  rw [Manager.freeAll]
  dsimp only
  split
  · rfl
  · rfl

theorem freed_freeAll (m : Manager) (nodes : List ℕ) (a : ℕ) :
    ((m.freeAll nodes).trans a).freed = true ↔ a ∈ nodes ∨ (m.trans a).freed = true := by
  rw [Manager.freeAll]
  dsimp only
  split
  · next ha => exact iff_of_true rfl (.inl ha)
  · next ha => exact (or_iff_right ha).symm

theorem freeAll_freeAll (m : Manager) (b : ℕ) (nodes : List ℕ) :
    (m.freeAll [b]).freeAll nodes = m.freeAll (b :: nodes) := by
  refine Manager.ext (funext fun a => ?_) rfl rfl
  simp only [Manager.freeAll, List.mem_cons, List.not_mem_nil, or_false]
  by_cases hb : a = b
  · by_cases ha : a ∈ nodes
    · simp [hb]
    · simp [hb]
  · by_cases ha : a ∈ nodes
    · simp [hb, ha]
    · simp [hb, ha]

theorem free_eq (live : (m.trans a).freed = false) : m.free a = .ok (m.freeAll [a]) := by
  rw [Manager.free, live]
  refine congrArg Except.ok (Manager.ext (funext fun b => ?_) rfl rfl)
  rw [trans_modify, Manager.freeAll]
  simp only [List.mem_singleton]
  split
  · next hb => rw [hb]
  · rfl

/-- The walk along a chain of links frees each of its nodes once. -/
theorem finiFrom_eq (chain : (rest ++ [0]).IsChain fun a b => (m.trans a).next = b)
    (nodup : (0 :: rest).Nodup) (live : ∀ a ∈ rest, (m.trans a).freed = false)
    (enough : rest.length < fuel) : finiFrom fuel m (after 0 rest) = .ok (m.freeAll rest) := by
  induction rest generalizing m fuel with
  | nil =>
    obtain ⟨fuel, rfl⟩ := Nat.exists_eq_add_of_lt enough
    rw [after_nil, List.length_nil, Nat.zero_add, finiFrom, if_pos rfl, Manager.freeAll]
    simp
  | cons b rest ih =>
    obtain ⟨fuel, rfl⟩ := Nat.exists_eq_add_of_lt enough
    obtain ⟨hzero, hnodup⟩ := List.nodup_cons.mp nodup
    obtain ⟨hb, hrest⟩ := List.nodup_cons.mp hnodup
    rw [List.mem_cons, not_or] at hzero
    obtain ⟨hlive, hlives⟩ := List.forall_mem_cons.mp live
    have hnext : (m.trans b).next = after 0 rest := by
      cases rest with
      | nil => exact (List.isChain_cons_cons.mp chain).1
      | cons c rest => exact (List.isChain_cons_cons.mp chain).1
    rw [after_cons, finiFrom, if_neg (Ne.symm hzero.1), free_eq hlive, hnext,
      ← freeAll_freeAll m b rest]
    -- freeing the node leaves the rest of the chain as it was
    have henough : rest.length < (b :: rest).length + fuel := by
      rw [List.length_cons]
      omega
    refine ih ?_ (List.nodup_cons.mpr ⟨hzero.2, hrest⟩) (fun a ha => ?_) henough
    · simp only [next_freeAll]
      exact chain.tail
    · rw [← Bool.not_eq_true, freed_freeAll, List.mem_singleton, hlives a ha]
      rintro (rfl | h)
      · exact hb ha
      · cases h

theorem Listed.first (h : Listed m nodes) : (m.trans 0).next = after 0 nodes := by
  have hlisted : Listed m ([] ++ nodes) := h
  exact hlisted.next

theorem Listed.fini (h : Listed m nodes) (enough : nodes.length < fuel) :
    transFini fuel m = .ok (m.freeAll nodes) := by
  rw [transFini, h.first]
  exact finiFrom_eq h.linked.fwd.tail h.linked.nodup (fun a ha => ((h.mem a).mp ha).2.2) enough

/-- `trans_show` returns only for the oldest transaction. -/
theorem Listed.show_iff (h : Listed m nodes) (ht : tp ∈ nodes) (few : m.fresh ≤ 2 ^ 32) :
    (∃ fuel lines, transShow fuel m tp = .ok lines) ↔ nodes.head? = some tp := by
  have hid : ∀ a ∈ nodes, (m.trans a).id = a := by
    intro a ha
    obtain ⟨hpos, hlt, -⟩ := (h.mem a).mp ha
    rw [h.ids a hpos hlt, Nat.mod_eq_of_lt (by omega)]
  cases nodes with
  | nil => cases ht
  | cons b nodes =>
    have hb : b ≠ 0 := h.ne_zero List.mem_cons_self
    have hfirst : (m.trans 0).next = b := h.first
    rw [List.head?_cons, Option.some_inj]
    constructor
    · -- the loop does not move on, so each round looks at the oldest transaction
      rintro ⟨fuel, lines, hshow⟩
      induction fuel with
      | zero => cases hshow
      | succ fuel ih =>
        rw [transShow, hfirst, if_neg hb, hid b List.mem_cons_self, hid tp ht] at hshow
        split at hshow
        · next heq => exact heq
        · exact ih hshow
    · rintro rfl
      refine ⟨1, [m.line b], ?_⟩
      rw [transShow, hfirst, if_neg hb]
      exact if_pos rfl

/-! ### Runs -/

theorem holds_le_references (c : Client) (tp : ℕ) : c.holds tp ≤ c.references tp := by
  rw [references, Nat.add_assoc]
  exact Nat.le_add_right _ _

/-- An abort that gets the counts right drops a reference and may write a status. -/
theorem abort_unref {m : Manager} (counted : TransCounted c.trans c.references)
    (safe : c.CountSafe (.transAbort tp)) (returns : Returns c.trans (.abort tp) m) :
    transUnref c.trans tp = .ok m ∨ transUnref (c.trans.setStatus tp .aborted) tp = .ok m := by
  cases returns with
  | again free status unref => exact .inl unref
  | @cascade _ m₁ _ _ free status walk unref =>
    obtain ⟨nodes, hlinked, hnodes⟩ := counted.linked
    have hwalk := walk.walk_eq (hlinked.congr (by simp) (by simp)) List.mem_cons_self (by
      rintro b hb hother ⟨d, hd, hid⟩
      simp only [trans_setStatus, trans_setMutex] at hother hd hid
      have hrefs := (hnodes b).mp hb
      obtain ⟨hpos, hlt⟩ := counted.known b hrefs
      exact safe.2 status b hlt ((counted.kept b hpos hlt).mpr hrefs) hother d
        (List.mem_of_mem_take hd) hid)
    rw [hwalk, unlock_setStatus free] at unref
    exact .inr unref

/-- Every call keeps the order of creation. -/
theorem listed_step (step : c.Step call c') (safe : c.CountSafe call)
    (counted : TransCounted c.trans c.references) (listed : Listed c.trans nodes) :
    ∃ nodes', Listed c'.trans nodes' := by
  have hheld : ∀ tp, 0 < c.holds tp → 0 < tp ∧ tp < c.trans.fresh := fun tp h =>
    counted.known tp (h.trans_le (holds_le_references c tp))
  obtain ⟨may, fuel, h⟩ := step
  cases effect_of_ok h with
  | transCreate => exact ⟨_, listed.create⟩
  | transRef free => exact ⟨nodes, listed.setRefcnt _⟩
  | @transUnref tp m unref => exact listed.unref (hheld tp may) unref
  | @transAddDependency tp dtp other => exact ⟨nodes, listed.addDependency tp dtp⟩
  | @transCommit tp m status committed =>
    cases committed with
    | aborted mem hd state => exact absurd hd (safe.2 _ mem)
    | committed all state => exact (listed.setStatus _).unref (hheld tp may) state
  | @transAbort tp m returns =>
    cases abort_unref counted safe returns with
    | inl unref => exact listed.unref (hheld tp may) unref
    | inr unref => exact (listed.setStatus _).unref (hheld tp may) unref
  | versionCreate => exact ⟨nodes, listed.setRefcnt _⟩
  | versionDispose => exact ⟨nodes, listed.setRefcnt _⟩
  | onBlobs other => exact ⟨nodes, listed⟩

theorem listed_initial : Listed Client.initial.trans [] where
  linked := linked_init
  mem a := by
    refine iff_of_false List.not_mem_nil fun h => ?_
    exact absurd h.2.1 (Nat.not_lt.mpr h.1)
  sorted := List.Pairwise.nil
  fresh_pos := Nat.one_pos
  counter := rfl
  ids a hpos hlt := absurd hlt (Nat.not_lt.mpr hpos)

/-- What is printed about the transactions of the list. -/
def Client.shown (c : Client) (nodes : List ℕ) : List Line :=
  (nodes.filter fun a => a % 2 ^ 32 ≠ 0).map fun a =>
    ⟨a % 2 ^ 32, (c.trans.trans a).status, c.references a⟩

theorem lines_eq_shown (counted : TransCounted c.trans c.references)
    (listed : Listed c.trans nodes) : c.trans.lines nodes = c.shown nodes := by
  have hid : ∀ a ∈ nodes, (c.trans.trans a).id = a % 2 ^ 32 := by
    intro a ha
    obtain ⟨hpos, hlt, -⟩ := (listed.mem a).mp ha
    exact listed.ids a hpos hlt
  have hkeep : nodes.filter (fun a => (c.trans.trans a).id ≠ 0) =
      nodes.filter fun a => a % 2 ^ 32 ≠ 0 :=
    List.filter_congr fun a ha => by rw [hid a ha]
  rw [Manager.lines, Client.shown, hkeep]
  refine List.map_congr_left fun a ha => ?_
  have hmem := (List.mem_filter.mp ha).1
  obtain ⟨hpos, hlt, hlive⟩ := (listed.mem a).mp hmem
  rw [Manager.line, hid a hmem, counted.count a ((counted.kept a hpos hlt).mp hlive)]

/-- What the transactions are like in a run of calls that get the counts right. -/
theorem listed_of_run
    (run : Run (fun c call c' => c.Step call c' ∧ c.CountSafe call) Client.initial calls c) :
    TransCounted c.trans c.references ∧ ∃ nodes, Listed c.trans nodes := by
  refine run.invariant
    (I := fun c => TransCounted c.trans c.references ∧ ∃ nodes, Listed c.trans nodes)
    (fun c call c' inv hstep => ?_) ⟨transCounted_initial, [], listed_initial⟩
  obtain ⟨counted, nodes, listed⟩ := inv
  exact ⟨transCounted_step hstep.1 hstep.2 counted, listed_step hstep.1 hstep.2 counted listed⟩

end CLanguage.Xacto
