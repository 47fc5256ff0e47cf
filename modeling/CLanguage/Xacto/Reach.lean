import CLanguage.Xacto.Graph
import Mathlib.Data.Set.Card

/-!
# What an abort reaches

`trans_abort` drops a reference of every dependent it aborts, a reference that the
dependent never gave it. As long as each dependent has references to spare, nothing
is freed under the walk, and the walk visits every node of the list.

An abort of `y` is called by the walks of its dependencies, once by each of them.
`callers` are those that have yet to call: the pending ones, whose walk is still to
come, and those whose walk has not come to `y`.

## Main results

* `Returns.reaches` — what a call does while references last, by induction on it
* `dependents_aborted` — every dependent is aborted
-/

namespace CLanguage.Xacto

open Manager Lib

/-- The transactions that an abort of `tp` is to abort. -/
def Doomed (m : Manager) (tp x : ℕ) : Prop := x = tp ∨ Dependent m tp x

/-- Each dependent of `tp` has more references than it has dependencies that an abort of `tp` is to
abort. -/
def SpareReferences (m : Manager) (tp : ℕ) : Prop :=
  ∀ y, Dependent m tp y → {x | DependsOn m x y ∧ Doomed m tp x}.ncard < (m.trans y).refcnt

/-- The walk of `x` is through with `y`: it has aborted it, if it had to, and did not hang. -/
def Through (m₀ m : Manager) (x y : ℕ) : Prop :=
  (DependsOn m₀ x y → (m.trans y).status ≠ .pending) ∧
    (Finds m₀ x y ∨ (m₀.trans y).depends.length < 2)

/-- Whatever was aborted on the way has walked the whole list. -/
def Walked (m₀ : Manager) (nodes : List ℕ) (m m' : Manager) : Prop :=
  ∀ x, (m.trans x).status = .pending → (m'.trans x).status ≠ .pending →
    ∀ y ∈ nodes, y ≠ x → Through m₀ m' x y

/-- The same graph, with the list in the same order. -/
structure Unmoved (m₀ m : Manager) : Prop extends SameGraph m₀ m where
  next : ∀ a, (m.trans a).next = (m₀.trans a).next

section

variable {m₀ m m₁ m' : Manager} {tp x y z a b : ℕ} {nodes pre rest : List ℕ}
  {W W' : ℕ → Set ℕ} {e : ℕ → ℕ}

/-- The transactions that have yet to call an abort of `y`, where those in `W y` have begun to
walk the list. -/
def callers (m₀ : Manager) (tp : ℕ) (m : Manager) (W : ℕ → Set ℕ) (y : ℕ) : Set ℕ :=
  {x | DependsOn m₀ x y ∧ Doomed m₀ tp x ∧ ((m.trans x).status = .pending ∨ x ∈ W y)}

/-- Every dependent has more references than calls to come, where `e y` calls are under way. -/
def Spare (m₀ : Manager) (tp : ℕ) (m : Manager) (W : ℕ → Set ℕ) (e : ℕ → ℕ) : Prop :=
  ∀ y, Dependent m₀ tp y → (callers m₀ tp m W y).ncard + e y < (m.trans y).refcnt

theorem callers_finite : (callers m₀ tp m W y).Finite :=
  (List.finite_toSet (m₀.trans y).depends).subset fun _ h => h.1

theorem Spare.mono (h : Spare m₀ tp m W e)
    (hstatus : ∀ x, (m'.trans x).status = .pending → (m.trans x).status = .pending)
    (hW : ∀ y x, x ∈ W' y → x ∈ W y ∨ (m.trans x).status = .pending)
    (hrefcnt : ∀ y, (m'.trans y).refcnt = (m.trans y).refcnt) : Spare m₀ tp m' W' e := by
  intro y hy
  have hsubset : callers m₀ tp m' W' y ⊆ callers m₀ tp m W y := by
    rintro x ⟨hdepends, hdoomed, hx⟩
    refine ⟨hdepends, hdoomed, ?_⟩
    rcases hx with hx | hx
    · exact .inl (hstatus x hx)
    · exact (hW y x hx).symm
  have hle := Set.ncard_le_ncard hsubset callers_finite
  have hlt := h y hy
  rw [hrefcnt]
  omega

/-- Dropping the reference that a call under way will need. -/
theorem Spare.unref (h : Spare m₀ tp m W (fun z => e z + if z = y then 1 else 0))
    (hy : Dependent m₀ tp y) (kept : Unmoved m₀ m) (call : transUnref m y = .ok m') :
    Unmoved m₀ m' ∧ Spare m₀ tp m' W e := by
  have hlt := h y hy
  simp only [if_true] at hlt
  obtain ⟨-, ⟨hlast, -, -⟩ | ⟨-, rfl⟩⟩ := transUnref_eq_ok.mp call
  · rw [decrement] at hlast
    split at hlast <;> omega
  · refine ⟨⟨kept.toSameGraph.trans (sameGraph_unref call), fun a => ?_⟩, fun z hz => ?_⟩
    · rw [dropReference, trans_setRefcnt]
      exact kept.next a
    · have hz' := h z hz
      have hcallers : callers m₀ tp (m.dropReference y) W z = callers m₀ tp m W z := by
        simp only [callers, dropReference, trans_setRefcnt]
      rw [hcallers, dropReference, trans_setRefcnt]
      split
      · next heq =>
        subst heq
        rw [decrement, if_neg (by omega)]
        simp only [if_true] at hz'
        change _ < (m.trans z).refcnt - 1
        omega
      · next hne => simpa only [if_neg hne, Nat.add_zero] using hz'

/-- The walk of `x` comes to its dependent `b`: one caller less, one call more. -/
theorem Spare.visit (h : Spare m₀ tp m (fun z => {u | u ∈ W z ∨ (u = x ∧ z ∈ b :: rest)}) e)
    (hb : b ∉ rest) (hx : Doomed m₀ tp x) (hdepends : DependsOn m₀ x b)
    (hstatus : (m.trans x).status ≠ .pending) (hW : x ∉ W b) :
    Spare m₀ tp m (fun z => {u | u ∈ W z ∨ (u = x ∧ z ∈ rest)})
      (fun z => e z + if z = b then 1 else 0) := by
  intro z hz
  have hlt := h z hz
  -- of `b` the caller `x` goes, of the others none comes
  by_cases heq : z = b
  · subst heq
    have hssubset : callers m₀ tp m (fun z => {u | u ∈ W z ∨ (u = x ∧ z ∈ rest)}) z ⊂
        callers m₀ tp m (fun y => {u | u ∈ W y ∨ (u = x ∧ y ∈ z :: rest)}) z := by
      refine Set.ssubset_iff_of_subset ?_ |>.mpr ⟨x, ?_, ?_⟩
      · rintro u ⟨hu, hdoomed, hcase⟩
        refine ⟨hu, hdoomed, hcase.imp_right fun hmem => hmem.imp_right fun hux => ?_⟩
        exact ⟨hux.1, List.mem_cons_of_mem z hux.2⟩
      · exact ⟨hdepends, hx, .inr (.inr ⟨rfl, List.mem_cons_self⟩)⟩
      · rintro ⟨-, -, hpending | hmem | ⟨-, hmem⟩⟩
        · exact hstatus hpending
        · exact hW hmem
        · exact hb hmem
    have hcard := Set.ncard_lt_ncard hssubset callers_finite
    simp only [if_true]
    omega
  · have hsubset : callers m₀ tp m (fun z => {u | u ∈ W z ∨ (u = x ∧ z ∈ rest)}) z ⊆
        callers m₀ tp m (fun z => {u | u ∈ W z ∨ (u = x ∧ z ∈ b :: rest)}) z := by
      rintro u ⟨hu, hdoomed, hcase⟩
      refine ⟨hu, hdoomed, hcase.imp_right fun hmem => hmem.imp_right fun hux => ?_⟩
      exact ⟨hux.1, List.mem_cons_of_mem b hux.2⟩
    have hcard := Set.ncard_le_ncard hsubset callers_finite
    simp only [if_neg heq]
    omega

/-! ### The induction -/

/-- What a call does, from a state in which references last. -/
def Reaches (m₀ : Manager) (tp : ℕ) (nodes : List ℕ) (m m' : Manager) : Task → Prop
  | .abort y => ∀ W e, Unmoved m₀ m → Dependent m₀ tp y →
      (∀ z, ∀ x ∈ W z, (m.trans x).status ≠ .pending) →
      Spare m₀ tp m W (fun z => e z + if z = y then 1 else 0) →
      Unmoved m₀ m' ∧ Spare m₀ tp m' W e ∧ (m'.trans y).status ≠ .pending ∧
        Walked m₀ nodes m m'
  | .walk x a => ∀ W e pre rest, nodes = pre ++ rest → a = before 0 pre → Unmoved m₀ m →
      Doomed m₀ tp x → (m.trans x).status ≠ .pending →
      (∀ z, ∀ u ∈ W z, (m.trans u).status ≠ .pending) → (∀ z, x ∉ W z) →
      Spare m₀ tp m (fun z => {u | u ∈ W z ∨ (u = x ∧ z ∈ rest)}) e →
      Unmoved m₀ m' ∧ Spare m₀ tp m' W e ∧ (∀ y ∈ rest, y ≠ x → Through m₀ m' x y) ∧
        Walked m₀ nodes m m'

theorem Returns.not_pending {task : Task} (h : Returns m task m')
    (hstatus : (m.trans x).status ≠ .pending) : (m'.trans x).status ≠ .pending := by
  rcases h.status x with heq | ⟨hpending, -⟩
  · rw [heq]
    exact hstatus
  · exact absurd hpending hstatus

theorem Through.mono {task : Task} (h : Through m₀ m x y) (run : Returns m task m') :
    Through m₀ m' x y :=
  ⟨fun hdepends => run.not_pending (h.1 hdepends), h.2⟩

theorem Walked.refl (m₀ : Manager) (nodes : List ℕ) (m : Manager) : Walked m₀ nodes m m :=
  fun _ hpending hdone => absurd hpending hdone

theorem Walked.trans {task : Task} (h : Walked m₀ nodes m m₁) (h' : Walked m₀ nodes m₁ m')
    (run : Returns m₁ task m') : Walked m₀ nodes m m' := by
  intro x hpending hdone y hy hne
  by_cases hmid : (m₁.trans x).status = .pending
  · exact h' x hmid hdone y hy hne
  · exact (h x hpending hmid y hy hne).mono run

variable (consistent : Consistent m₀ nodes) (htp : tp ∈ nodes)

include consistent htp in
theorem Doomed.mem (h : Doomed m₀ tp x) : x ∈ nodes := by
  rcases h with rfl | hchain
  · exact htp
  · obtain ⟨u, -, hu⟩ := Relation.TransGen.tail'_iff.mp hchain
    exact (consistent.inside u x hu).2

theorem SameGraph.finds (kept : SameGraph m₀ m) : Finds m x y ↔ Finds m₀ x y := by
  simp only [Finds, kept.id, kept.depends]

include consistent in
theorem Finds.dependsOn (h : Finds m₀ x y) (hx : x ∈ nodes) : DependsOn m₀ x y := by
  obtain ⟨d, hd, hid⟩ := h
  have hmem : DependsOn m₀ d y := List.mem_of_mem_take hd
  obtain rfl := consistent.ids d (consistent.inside d y hmem).1 x hx hid
  exact hmem

theorem Doomed.dependent (h : Doomed m₀ tp x) (hdepends : DependsOn m₀ x y) : Dependent m₀ tp y := by
  rcases h with rfl | hchain
  · exact .single hdepends
  · exact hchain.tail hdepends

theorem Unmoved.lock {held : Bool} (kept : Unmoved m₀ m) : Unmoved m₀ (m.setMutex y held) where
  toSameGraph := kept.toSameGraph.trans sameGraph_setMutex
  next a := by
    rw [trans_setMutex]
    exact kept.next a

theorem Unmoved.abort (kept : Unmoved m₀ m) : Unmoved m₀ (m.setStatus y .aborted) where
  toSameGraph := kept.toSameGraph.trans sameGraph_setStatus
  next a := by
    rw [trans_setStatus]
    exact kept.next a

theorem Through.congr (h : Through m₀ m x y)
    (hstatus : ∀ a, (m'.trans a).status = (m.trans a).status) : Through m₀ m' x y :=
  ⟨fun hdepends => hstatus y ▸ h.1 hdepends, h.2⟩

private theorem begin_status (m : Manager) (y x : ℕ) :
    (((m.setMutex y true).setStatus y .aborted).trans x).status =
      if x = y then .aborted else (m.trans x).status := by
  rw [trans_setStatus, trans_setMutex]

/-- With the walk of `y` complete, everything that an abort of `y` has aborted has walked the
list. -/
private theorem walked_cascade (hthrough : ∀ z ∈ nodes, z ≠ y → Through m₀ m₁ y z)
    (hwalked : Walked m₀ nodes ((m.setMutex y true).setStatus y .aborted) m₁)
    (hlast : ∀ x, (m'.trans x).status = (m₁.trans x).status) : Walked m₀ nodes m m' := by
  intro x hpending hdone z hz hne
  rw [hlast] at hdone
  by_cases hx : x = y
  · subst hx
    exact (hthrough z hz hne).congr hlast
  · have hpending' : (((m.setMutex y true).setStatus y .aborted).trans x).status = .pending := by
      rw [begin_status, if_neg hx]
      exact hpending
    exact (hwalked x hpending' hdone z hz hne).congr hlast

/-- An abort of a pending transaction, from what its walk does. -/
theorem reaches_cascade (status : (m.trans y).status = .pending)
    (walk : Returns ((m.setMutex y true).setStatus y .aborted) (.walk y 0) m₁)
    (last : transUnref (m₁.unlock y) y = .ok m')
    (ih : Reaches m₀ tp nodes ((m.setMutex y true).setStatus y .aborted) m₁ (.walk y 0)) :
    Reaches m₀ tp nodes m m' (.abort y) := by
  intro W e kept hy hW spare
  have hself : (((m.setMutex y true).setStatus y .aborted).trans y).status ≠ .pending := by
    rw [begin_status, if_pos rfl]
    exact nofun
  -- marking `y` makes no other transaction pending
  have hmono : ∀ x, (((m.setMutex y true).setStatus y .aborted).trans x).status = .pending →
      (m.trans x).status = .pending := by
    intro x hx
    rw [begin_status] at hx
    split at hx
    · exact absurd hx nofun
    · exact hx
  have hspare : Spare m₀ tp ((m.setMutex y true).setStatus y .aborted)
      (fun z => {u | u ∈ W z ∨ (u = y ∧ z ∈ nodes)}) (fun z => e z + if z = y then 1 else 0) := by
    refine spare.mono hmono ?_ fun z => by rw [trans_setStatus, trans_setMutex]
    rintro z x (hx | ⟨rfl, -⟩)
    · exact .inl hx
    · exact .inr status
  obtain ⟨kept₁, spare₁, hthrough, hwalked⟩ := ih W _ [] nodes rfl rfl kept.lock.abort (.inr hy) hself
    (fun z u hu hpending => hW z u hu (hmono u hpending)) (fun z hy => hW z y hy status) hspare
  have hunlock : ∀ x, ((m₁.unlock y).trans x).status = (m₁.trans x).status := fun x => by
    rw [trans_unlock]
  have hlast : ∀ x, (m'.trans x).status = (m₁.trans x).status := fun x =>
    (status_unref last x).trans (hunlock x)
  have hspare₁ : Spare m₀ tp (m₁.unlock y) W (fun z => e z + if z = y then 1 else 0) :=
    spare₁.mono (fun x hx => hunlock x ▸ hx) (fun _ _ => .inl) fun z => by rw [trans_unlock]
  obtain ⟨kept', spare'⟩ := hspare₁.unref hy kept₁.lock last
  exact ⟨kept', spare', hlast y ▸ walk.not_pending hself, walked_cascade hthrough hwalked hlast⟩

include consistent in
theorem Consistent.next (h : nodes = pre ++ rest) : (m₀.trans (before 0 pre)).next = after 0 rest := by
  subst h
  exact consistent.linked.toRing.next_before

/-- A node that the walk comes to is the next one of the list. -/
theorem rest_eq_cons (h : after 0 rest = b) (hb : b ≠ 0) : ∃ rest', rest = b :: rest' := by
  cases rest with
  | nil => exact absurd h.symm hb
  | cons c rest => exact ⟨rest, by rw [← h, after_cons]⟩

include consistent in
theorem rest_eq_nil (hnodes : nodes = pre ++ rest) (h : after 0 rest = 0) : rest = [] := by
  cases rest with
  | nil => rfl
  | cons c rest =>
    have hzero : (0 : ℕ) ∈ nodes := by
      rw [hnodes, ← h, after_cons]
      exact List.mem_append_right pre List.mem_cons_self
    exact absurd hzero consistent.linked.toRing.head_notMem

include consistent htp in
theorem Returns.reaches {task : Task} (h : Returns m task m') :
    Reaches m₀ tp nodes m m' task := by
  induction h with
  | @again m m' y free status last =>
    intro W e kept hy hW spare
    obtain ⟨kept', spare'⟩ := spare.unref hy kept last
    refine ⟨kept', spare', ?_, ?_⟩
    · rw [status_unref last, status]
      exact nofun
    · intro x hpending hdone
      rw [status_unref last] at hdone
      exact absurd hpending hdone
  | cascade free status walk last ih => exact reaches_cascade status walk last ih
  | @done m x a last =>
    rintro W e pre rest hnodes rfl kept hx hstatus hW hxW spare
    rw [kept.next, consistent.next hnodes] at last
    obtain rfl := rest_eq_nil consistent hnodes last
    refine ⟨kept, spare.mono (fun _ => id) (fun _ _ hu => .inl (.inl hu)) fun _ => rfl, ?_,
      .refl m₀ nodes m⟩
    exact fun y hy => absurd hy List.not_mem_nil
  | @pass m m' x a b link node passes walk ih =>
    rintro W e pre rest hnodes rfl kept hx hstatus hW hxW spare
    rw [kept.next, consistent.next hnodes] at link
    obtain ⟨rest, rfl⟩ := rest_eq_cons link node
    have hnodes' : nodes = (pre ++ [b]) ++ rest := by simpa using hnodes
    have hspare : Spare m₀ tp m (fun z => {u | u ∈ W z ∨ (u = x ∧ z ∈ rest)}) e :=
      spare.mono (fun _ => id)
        (fun _ _ hu => .inl (hu.imp_right fun hux => ⟨hux.1, List.mem_cons_of_mem b hux.2⟩))
        fun _ => rfl
    obtain ⟨kept', spare', hthrough, hwalked⟩ :=
      ih W e (pre ++ [b]) rest hnodes' before_concat.symm kept hx hstatus hW hxW hspare
    refine ⟨kept', spare', fun y hy hne => ?_, hwalked⟩
    rcases List.mem_cons.mp hy with rfl | hy
    · have hmem : y ∈ nodes := hnodes ▸ List.mem_append_right pre List.mem_cons_self
      rcases passes with hid | ⟨hfinds, hshort⟩
      · rw [kept.id, kept.id] at hid
        exact absurd (consistent.ids y hmem x (hx.mem consistent htp) hid) hne
      · rw [kept.depends] at hshort
        refine ⟨fun hdepends => absurd ?_ hfinds, .inr hshort⟩
        refine kept.toSameGraph.finds.mpr ⟨x, ?_, rfl⟩
        rw [List.take_of_length_le (by omega)]
        exact hdepends
    · exact hthrough y hy hne
  | @dependent m m₁ m' x a b link node other finds abort walk iha ihw =>
    rintro W e pre rest hnodes rfl kept hx hstatus hW hxW spare
    rw [kept.next, consistent.next hnodes] at link
    obtain ⟨rest, rfl⟩ := rest_eq_cons link node
    have hnodes' : nodes = (pre ++ [b]) ++ rest := by simpa using hnodes
    have hb : b ∉ rest := by
      have hnodup := consistent.linked.toRing.nodup
      rw [hnodes, List.nodup_cons, List.nodup_append] at hnodup
      exact (List.nodup_cons.mp hnodup.2.2.1).1
    have hfinds := kept.toSameGraph.finds.mp finds
    have hdepends := hfinds.dependsOn consistent (hx.mem consistent htp)
    -- the dependent is aborted first, with this walk past it
    obtain ⟨kept₁, spare₁, hb₁, hwalked₁⟩ := iha _ e kept (hx.dependent hdepends)
      (by
        rintro z u (hu | ⟨rfl, -⟩)
        · exact hW z u hu
        · exact hstatus)
      (spare.visit hb hx hdepends hstatus (hxW b))
    -- then the walk goes on behind it
    rw [kept₁.next, consistent.next hnodes, after_cons] at ihw walk
    obtain ⟨kept', spare', hthrough, hwalked⟩ := ihw W e (pre ++ [b]) rest hnodes'
      before_concat.symm kept₁ hx (abort.not_pending hstatus)
      (fun z u hu => abort.not_pending (hW z u hu)) hxW spare₁
    refine ⟨kept', spare', fun y hy hne => ?_, hwalked₁.trans hwalked walk⟩
    rcases List.mem_cons.mp hy with rfl | hy
    · exact ⟨fun _ => walk.not_pending hb₁, .inl hfinds⟩
    · exact hthrough y hy hne

include consistent htp in
/-- An abort with references to spare: it aborts all dependents, and every transaction it aborts
has walked the whole list. -/
theorem Returns.reaches_all (pending : ∀ a, (m₀.trans a).status = .pending)
    (spare : SpareReferences m₀ tp) (h : Returns m₀ (.abort tp) m') :
    (∀ y, Doomed m₀ tp y → (m'.trans y).status ≠ .pending) ∧
      ∀ x, Doomed m₀ tp x → ∀ y ∈ nodes, y ≠ x → Through m₀ m' x y := by
  obtain ⟨hself, hwalked⟩ : (m'.trans tp).status ≠ .pending ∧ Walked m₀ nodes m₀ m' := by
    cases h with
    | again free status last => exact absurd (status.symm.trans (pending tp)) nofun
    | @cascade _ m₁ _ _ free status walk last =>
      have hself : (((m₀.setMutex tp true).setStatus tp .aborted).trans tp).status ≠ .pending := by
        rw [begin_status, if_pos rfl]
        exact nofun
      -- before the walk every caller has a reference left
      have hspare : Spare m₀ tp ((m₀.setMutex tp true).setStatus tp .aborted)
          (fun z => {u | u ∈ (∅ : Set ℕ) ∨ (u = tp ∧ z ∈ nodes)}) fun _ => 0 := by
        intro y hy
        have hsubset : callers m₀ tp ((m₀.setMutex tp true).setStatus tp .aborted)
            (fun z => {u | u ∈ (∅ : Set ℕ) ∨ (u = tp ∧ z ∈ nodes)}) y ⊆
            {x | DependsOn m₀ x y ∧ Doomed m₀ tp x} := fun x hx => ⟨hx.1, hx.2.1⟩
        have hle := Set.ncard_le_ncard hsubset
          ((List.finite_toSet (m₀.trans y).depends).subset fun _ h => h.1)
        rw [trans_setStatus, trans_setMutex]
        exact lt_of_le_of_lt hle (spare y hy)
      obtain ⟨-, -, hthrough, hwalked⟩ := walk.reaches consistent htp (fun _ => ∅) (fun _ => 0) []
        nodes rfl rfl (Unmoved.mk (.refl m₀) fun _ => rfl).lock.abort (.inl rfl) hself
        (fun _ _ hu => absurd hu (Set.notMem_empty _)) (fun _ => Set.notMem_empty tp) hspare
      have hlast : ∀ x, (m'.trans x).status = (m₁.trans x).status := fun x =>
        (status_unref last x).trans (by rw [trans_unlock])
      exact ⟨hlast tp ▸ walk.not_pending hself, walked_cascade hthrough hwalked hlast⟩
  -- an abort of `x` has gone through all that depend on it
  have hthrough : ∀ x y, (m'.trans x).status ≠ .pending → DependsOn m₀ x y →
      (m'.trans y).status ≠ .pending := by
    intro x y hx hdepends
    have hne : y ≠ x := by
      rintro rfl
      exact consistent.acyclic y (.single hdepends)
    exact (hwalked x (pending x) hx y (consistent.inside x y hdepends).2 hne).1 hdepends
  have hall : ∀ y, Doomed m₀ tp y → (m'.trans y).status ≠ .pending := by
    rintro y (rfl | hchain)
    · exact hself
    · induction hchain with
      | single hdepends => exact hthrough _ _ hself hdepends
      | tail _ hdepends ih => exact hthrough _ _ ih hdepends
  exact ⟨hall, fun x hx y hy hne => hwalked x (pending x) (hall x hx) y hy hne⟩

end

/-- For every state built and every transaction of it whose dependents have references to spare, an
abort that returns has aborted all dependents. -/
theorem dependents_aborted {m m' : Manager} {tp y fuel : ℕ} (built : Built m)
    (known : tp ∈ List.range' 1 (m.fresh - 1)) (numbers : m.fresh ≤ 2 ^ 32)
    (spare : SpareReferences m tp) (call : transAbort fuel m tp = .ok m')
    (dependent : Dependent m tp y) : (m'.trans y).status ≠ .pending :=
  ((Returns.of_abort call).reaches_all (built.consistent numbers) known built.ok.pending
    spare).1 y (.inr dependent)

/-- Two transactions that depend on the first one. -/
def twoDependents : Manager := addDependency (addDependency (created 3) 2 1) 3 1

theorem built_twoDependents : Built twoDependents := by
  have hone : Built (addDependency (created 3) 2 1) :=
    (built_created 3).addDependency (by decide) (by decide) (not_dependent_of_nil rfl)
      (transAddDependency_eq rfl rfl (by decide))
  exact hone.addDependency (by decide) (by decide) (not_dependent_of_nil (by decide))
    (transAddDependency_eq (by decide) (by decide) (by decide))

private theorem dependsOn_twoDependents {x y : ℕ} (h : DependsOn twoDependents x y) :
    x = 1 ∧ (y = 2 ∨ y = 3) := by
  have hy := (built_twoDependents.ok.inside x y h).2
  rw [List.mem_range'_1] at hy
  have hcases : y = 1 ∨ y = 2 ∨ y = 3 := by
    have hfresh : twoDependents.fresh = 4 := rfl
    omega
  rcases hcases with rfl | rfl | rfl
  · exact absurd h List.not_mem_nil
  · exact ⟨List.mem_singleton.mp h, .inl rfl⟩
  · exact ⟨List.mem_singleton.mp h, .inr rfl⟩

theorem dependents_aborted_example :
    ∃ m', transAbort 20 ((twoDependents.addReference 2).addReference 3) 1 = .ok m' ∧
      (m'.trans 3).status ≠ .pending := by
  have hrun : (transAbort 20 ((twoDependents.addReference 2).addReference 3) 1).toOption.isSome :=
    by decide +kernel
  obtain ⟨m', hcall⟩ := Option.isSome_iff_exists.mp hrun
  have hgraph : ∀ a, ((((twoDependents.addReference 2).addReference 3).trans a).depends) =
      (twoDependents.trans a).depends := by
    intro a
    rw [addReference, trans_setRefcnt, addReference, trans_setRefcnt]
  refine ⟨m', ok_of_toOption hcall, dependents_aborted ?_ (by decide) (by decide) ?_
    (ok_of_toOption hcall) ?_⟩
  · exact (built_twoDependents.ref (transRef_eq rfl)).ref (transRef_eq rfl)
  · intro y hy
    rw [dependent_congr hgraph] at hy
    obtain ⟨x, -, hx⟩ := Relation.TransGen.tail'_iff.mp hy
    have hcallers : {x | DependsOn ((twoDependents.addReference 2).addReference 3) x y ∧
        Doomed ((twoDependents.addReference 2).addReference 3) 1 x} ⊆ {1} := by
      rintro u ⟨hu, -⟩
      rw [dependsOn_congr hgraph] at hu
      exact (dependsOn_twoDependents hu).1
    have hle := Set.ncard_le_ncard hcallers (Set.finite_singleton 1)
    rw [Set.ncard_singleton] at hle
    refine lt_of_le_of_lt hle ?_
    rcases (dependsOn_twoDependents hx).2 with rfl | rfl <;> decide
  · rw [dependent_congr hgraph]
    exact .single (by decide)

/-- The two dependents have one reference each. The abort of the first one frees it, and the walk
goes on behind the second one. -/
theorem dependent_left_pending :
    ∃ m', Built twoDependents ∧ Dependent twoDependents 1 3 ∧
      transAbort 20 twoDependents 1 = .ok m' ∧ (m'.trans 3).status = .pending := by
  have hrun : (transAbort 20 twoDependents 1).toOption.map (fun m => (m.trans 3).status) =
      some .pending := by decide +kernel
  obtain ⟨m', hcall, hstatus⟩ := Option.map_eq_some_iff.mp hrun
  exact ⟨m', built_twoDependents, .single (by decide), ok_of_toOption hcall, hstatus⟩

end CLanguage.Xacto
