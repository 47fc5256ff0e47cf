import CLanguage.Lib.Ring
import CLanguage.Xacto.Cascade
import Mathlib.Data.List.Range
import Mathlib.Logic.Relation

/-!
# The list of transactions and the graph of dependencies

`Linked` is the circular list of all transactions with its sentinel, `Dependent` the
dependencies through any chain. `Consistent` is what a single thread can rely on
before it aborts a transaction, and `Built` are the states that creating
transactions and adding dependencies lead to.

## Main results

* `Linked.create`, `Linked.remove` — the list under the two calls that change it
* `Built.consistent` — built states are consistent
-/

namespace CLanguage.Xacto

open Manager Lib

variable {m m' : Manager} {tp a b : ℕ} {nodes pre post : List ℕ}

/-! ### The list -/

/-- The transactions of the list, in order. -/
def Linked (m : Manager) (nodes : List ℕ) : Prop :=
  ClosedRing (fun a => (m.trans a).next) (fun a => (m.trans a).prev) 0 nodes

theorem linked_init : Linked transInit [] where
  fwd := by simp [transInit]
  bwd := by simp
  nodup := by simp
  back := rfl

theorem Linked.congr (h : Linked m nodes) (hnext : ∀ a, (m'.trans a).next = (m.trans a).next)
    (hprev : ∀ a, (m'.trans a).prev = (m.trans a).prev) : Linked m' nodes :=
  ClosedRing.congr h (fun a _ => hnext a) fun a _ => hprev a

theorem Linked.create (h : Linked m nodes) (hfresh : m.fresh ∉ 0 :: nodes) :
    Linked (transCreate m).1 (nodes ++ [m.fresh]) := by
  have htail : (m.trans 0).prev = before 0 nodes := h.back
  have hne : ∀ a ∈ 0 :: (nodes ++ []), a ≠ m.fresh := by
    rintro a ha rfl
    rw [List.append_nil] at ha
    exact hfresh ha
  have hring : ClosedRing (fun a => (m.trans a).next) (fun a => (m.trans a).prev) 0 (nodes ++ []) := by
    rw [List.append_nil]
    exact h
  refine hring.insert (by rwa [List.append_nil]) ?_ ?_ ?_ ?_ ?_ ?_
  · simp [trans_transCreate, htail]
  · have htail' : m.fresh ≠ before 0 nodes := fun heq => hfresh (heq ▸ before_mem 0 nodes)
    simp [trans_transCreate, htail, htail']
  · have hzero : m.fresh ≠ 0 := fun heq => hfresh (heq ▸ List.mem_cons_self)
    simp [trans_transCreate, htail, hzero]
  · simp [trans_transCreate]
  · intro a ha hbefore
    simp [trans_transCreate, hne a ha, htail, hbefore]
  · intro a ha hafter
    simp only [after_nil] at hafter
    simp [trans_transCreate, hne a ha, hafter]

theorem Linked.remove (h : Linked m (pre ++ tp :: post)) : Linked (m.remove tp) (pre ++ post) := by
  have hnext : (m.trans tp).next = after 0 post := h.toRing.next_member
  have hprev : (m.trans tp).prev = before 0 pre := h.toRing.prev_member
  refine ClosedRing.remove h ?_ ?_ ?_ ?_
  · simp [hnext, hprev]
  · simp [hnext, hprev]
  · intro a ha hbefore
    simp [hprev, hbefore]
  · intro a ha hafter
    simp [hnext, hafter]

/-! ### The dependencies -/

/-- `tp` lists `dtp` as a dependency. -/
def DependsOn (m : Manager) (dtp tp : ℕ) : Prop := dtp ∈ (m.trans tp).depends

instance (m : Manager) (dtp tp : ℕ) : Decidable (DependsOn m dtp tp) :=
  inferInstanceAs (Decidable (dtp ∈ _))

/-- `tp` depends on `dtp`, directly or through a chain of dependencies. -/
def Dependent (m : Manager) (dtp tp : ℕ) : Prop := Relation.TransGen (DependsOn m) dtp tp

theorem dependsOn_congr (h : ∀ a, (m'.trans a).depends = (m.trans a).depends) :
    DependsOn m' = DependsOn m := by
  funext dtp tp
  rw [DependsOn, DependsOn, h]

theorem dependent_congr (h : ∀ a, (m'.trans a).depends = (m.trans a).depends) :
    Dependent m' = Dependent m := by
  funext dtp tp
  rw [Dependent, Dependent, dependsOn_congr h]

/-- A chain after one edge was added is an old chain, or it uses the edge. -/
theorem transGen_of_edge {R R' : ℕ → ℕ → Prop} {x y : ℕ}
    (hedge : ∀ a b, R' a b → R a b ∨ (a = x ∧ b = y)) (h : Relation.TransGen R' a b) :
    Relation.TransGen R a b ∨ (Relation.ReflTransGen R a x ∧ Relation.ReflTransGen R y b) := by
  induction h with
  | single h =>
    rcases hedge _ _ h with hold | ⟨rfl, rfl⟩
    · exact .inl (.single hold)
    · exact .inr ⟨.refl, .refl⟩
  | tail _ h ih =>
    rcases hedge _ _ h with hold | ⟨rfl, rfl⟩
    · rcases ih with ih | ⟨ihx, ihy⟩
      · exact .inl (ih.tail hold)
      · exact .inr ⟨ihx, ihy.tail hold⟩
    · rcases ih with ih | ⟨ihx, -⟩
      · exact .inr ⟨ih.to_reflTransGen, .refl⟩
      · exact .inr ⟨ihx, .refl⟩

/-- What a thread that nobody disturbs finds: a list of live transactions that no one has locked,
with a number each and dependencies among them. -/
structure Consistent (m : Manager) (nodes : List ℕ) : Prop where
  linked : Linked m nodes
  unlocked : ∀ a, (m.trans a).mutex = false
  live : ∀ a ∈ nodes, (m.trans a).freed = false
  inside : ∀ dtp tp, DependsOn m dtp tp → dtp ∈ nodes ∧ tp ∈ nodes
  ids : ∀ a ∈ nodes, ∀ b ∈ nodes, (m.trans a).id = (m.trans b).id → a = b
  acyclic : ∀ a, ¬ Dependent m a a

/-! ### Built states -/

/-- The states that creating transactions, taking references and adding dependencies lead to. No
dependency closes a cycle. -/
inductive Built : Manager → Prop
  | init : Built transInit
  | create {m : Manager} (start : Built m) : Built (transCreate m).1
  | ref {m m' : Manager} {tp : ℕ} (start : Built m) (call : transRef m tp = .ok m') : Built m'
  | addDependency {m m' : Manager} {tp dtp : ℕ} (start : Built m)
      (known : tp ∈ List.range' 1 (m.fresh - 1)) (known' : dtp ∈ List.range' 1 (m.fresh - 1))
      (acyclic : ¬ Dependent m tp dtp) (call : transAddDependency m tp dtp = .ok m') : Built m'

/-- What is true of all built states. -/
structure BuiltOk (m : Manager) : Prop where
  linked : Linked m (List.range' 1 (m.fresh - 1))
  fresh_pos : 0 < m.fresh
  counter : m.counter = m.fresh
  ids : ∀ a ∈ List.range' 1 (m.fresh - 1), (m.trans a).id = a % 2 ^ 32
  pending : ∀ a, (m.trans a).status = .pending
  unlocked : ∀ a, (m.trans a).mutex = false
  live : ∀ a, (m.trans a).freed = false
  inside : ∀ dtp tp, DependsOn m dtp tp →
    dtp ∈ List.range' 1 (m.fresh - 1) ∧ tp ∈ List.range' 1 (m.fresh - 1)
  acyclic : ∀ a, ¬ Dependent m a a

private theorem range'_fresh {n : ℕ} (h : 0 < n) :
    List.range' 1 (n + 1 - 1) = List.range' 1 (n - 1) ++ [n] := by
  obtain ⟨k, rfl⟩ : ∃ k, n = k + 1 := ⟨n - 1, by omega⟩
  rw [Nat.add_sub_cancel, Nat.add_sub_cancel, List.range'_1_concat, Nat.add_comm 1 k]

theorem BuiltOk.create (ok : BuiltOk m) : BuiltOk (transCreate m).1 := by
  have hfresh : (transCreate m).1.fresh = m.fresh + 1 := rfl
  have hnew : m.fresh ∉ 0 :: List.range' 1 (m.fresh - 1) := by
    have hpos := ok.fresh_pos
    rw [List.mem_cons, List.mem_range'_1]
    omega
  -- nothing depends on a number that has not been given out
  have hdepends : ∀ a, ((transCreate m).1.trans a).depends = (m.trans a).depends := by
    intro a
    simp only [trans_transCreate]
    split
    · next ha =>
      refine (List.eq_nil_iff_forall_not_mem.mpr fun d hd => ?_).symm
      exact hnew (List.mem_cons_of_mem 0 (ha ▸ (ok.inside d a hd).2))
    · rfl
  have hnodes : List.range' 1 ((transCreate m).1.fresh - 1) =
      List.range' 1 (m.fresh - 1) ++ [m.fresh] := range'_fresh ok.fresh_pos
  refine ⟨hnodes ▸ ok.linked.create hnew, Nat.succ_pos _, congrArg (· + 1) ok.counter, ?_, ?_, ?_, ?_,
    ?_, ?_⟩
  · intro a ha
    rw [hnodes, List.mem_append, List.mem_singleton] at ha
    simp only [trans_transCreate]
    split
    · next heq => rw [heq, ok.counter]
    · next hne => exact ok.ids a (ha.resolve_right hne)
  · intro a
    simp only [trans_transCreate]
    split
    · rfl
    · exact ok.pending a
  · intro a
    simp only [trans_transCreate]
    split
    · rfl
    · exact ok.unlocked a
  · intro a
    simp only [trans_transCreate]
    split
    · rfl
    · exact ok.live a
  · intro dtp tp h
    rw [dependsOn_congr hdepends] at h
    obtain ⟨hdtp, htp⟩ := ok.inside dtp tp h
    rw [hnodes]
    exact ⟨List.mem_append_left _ hdtp, List.mem_append_left _ htp⟩
  · rw [dependent_congr hdepends]
    exact ok.acyclic

theorem BuiltOk.ref (ok : BuiltOk m) (call : transRef m tp = .ok m') : BuiltOk m' := by
  obtain ⟨-, rfl⟩ := transRef_eq_ok.mp call
  have hdepends : ∀ a, ((m.addReference tp).trans a).depends = (m.trans a).depends := fun a => by
    rw [addReference, trans_setRefcnt]
  refine ⟨ok.linked.congr ?_ ?_, ok.fresh_pos, ok.counter, ?_, ?_, ?_, ?_, ?_, ?_⟩
  · exact fun a => by rw [addReference, trans_setRefcnt]
  · exact fun a => by rw [addReference, trans_setRefcnt]
  · intro a ha
    rw [addReference, trans_setRefcnt]
    exact ok.ids a ha
  · intro a
    rw [addReference, trans_setRefcnt]
    exact ok.pending a
  · intro a
    rw [addReference, trans_setRefcnt]
    exact ok.unlocked a
  · intro a
    rw [addReference, trans_setRefcnt]
    exact ok.live a
  · rw [dependsOn_congr hdepends]
    exact ok.inside
  · rw [dependent_congr hdepends]
    exact ok.acyclic

theorem BuiltOk.addDependency {dtp : ℕ} (ok : BuiltOk m)
    (known : tp ∈ List.range' 1 (m.fresh - 1)) (known' : dtp ∈ List.range' 1 (m.fresh - 1))
    (acyclic : ¬ Dependent m tp dtp) (call : transAddDependency m tp dtp = .ok m') : BuiltOk m' := by
  obtain ⟨-, -, hne, rfl⟩ := transAddDependency_eq_ok.mp call
  -- the new graph has one more edge
  have hedge : ∀ a b, DependsOn (CLanguage.Xacto.addDependency m tp dtp) a b →
      DependsOn m a b ∨ (a = dtp ∧ b = tp) := by
    intro a b h
    rw [DependsOn, trans_addDependency] at h
    by_cases hb : b = tp
    · rw [if_pos hb, List.mem_cons] at h
      exact h.symm.imp_right fun ha => ⟨ha, hb⟩
    · rw [if_neg hb] at h
      exact .inl h
  refine ⟨ok.linked.congr ?_ ?_, ok.fresh_pos, ok.counter, ?_, ?_, ?_, ?_, ?_, ?_⟩
  · exact fun a => by rw [trans_addDependency]
  · exact fun a => by rw [trans_addDependency]
  · intro a ha
    rw [trans_addDependency]
    exact ok.ids a ha
  · intro a
    rw [trans_addDependency]
    exact ok.pending a
  · intro a
    rw [trans_addDependency]
    exact ok.unlocked a
  · intro a
    rw [trans_addDependency]
    exact ok.live a
  · intro a b h
    rcases hedge a b h with hold | ⟨rfl, rfl⟩
    · exact ok.inside a b hold
    · exact ⟨known', known⟩
  · intro a h
    -- a cycle is an old one, or goes over the new edge and back from `tp` to `dtp`
    rcases transGen_of_edge hedge h with hold | ⟨hleft, hright⟩
    · exact ok.acyclic a hold
    · rcases Relation.reflTransGen_iff_eq_or_transGen.mp (hright.trans hleft) with heq | hchain
      · exact hne heq
      · exact acyclic hchain

theorem Built.ok (h : Built m) : BuiltOk m := by
  induction h with
  | init =>
    have hempty : ∀ a b, ¬ DependsOn transInit a b := fun a b h => List.not_mem_nil h
    refine ⟨linked_init, Nat.one_pos, rfl, by simp [transInit], fun _ => rfl, fun _ => rfl,
      fun _ => rfl, fun a b h => absurd h (hempty a b), fun a h => ?_⟩
    obtain ⟨b, hb, -⟩ := Relation.TransGen.head'_iff.mp h
    exact hempty a b hb
  | create _ ih => exact ih.create
  | ref _ call ih => exact ih.ref call
  | addDependency _ known known' acyclic call ih => exact ih.addDependency known known' acyclic call

/-- As long as the numbers last, built states are consistent. -/
theorem Built.consistent (h : Built m) (hnumbers : m.fresh ≤ 2 ^ 32) :
    Consistent m (List.range' 1 (m.fresh - 1)) := by
  have ok := h.ok
  refine ⟨ok.linked, ok.unlocked, fun a _ => ok.live a, ok.inside, ?_, ok.acyclic⟩
  intro a ha b hb hid
  rw [ok.ids a ha, ok.ids b hb] at hid
  rw [List.mem_range'_1] at ha hb
  rw [Nat.mod_eq_of_lt (by omega), Nat.mod_eq_of_lt (by omega)] at hid
  exact hid

theorem not_dependent_of_nil (h : (m.trans tp).depends = []) : ¬ Dependent m a tp := by
  intro hchain
  obtain ⟨b, -, hb⟩ := Relation.TransGen.tail'_iff.mp hchain
  rw [DependsOn, h] at hb
  exact List.not_mem_nil hb

/-- Transactions that do not depend on each other. -/
def created : ℕ → Manager
  | 0 => transInit
  | n + 1 => (transCreate (created n)).1

theorem built_created (n : ℕ) : Built (created n) := by
  induction n with
  | zero => exact .init
  | succ n ih => exact ih.create

end CLanguage.Xacto
