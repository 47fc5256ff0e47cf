import CLanguage.Xacto.Reach
import Mathlib.Data.Prod.Lex
import Mathlib.Order.WellFounded

/-!
# When an abort comes to an end

The scan of a dependency list looks at two dependencies at most, for ever if there
are two and neither is the one it looks for. Where it always finds something, the
call ends: each nested abort takes a pending transaction, and a walk that starts
over has freed a node before. The walk can stand on a node that was freed under it;
its link still leads forward.

## Main results

* `Task.ends` — a walk and an abort end where the scans do
* `abort_terminates` — so does `trans_abort` from every consistent state
* `scans_of_returns` — with references to spare, only there
-/

namespace CLanguage.Xacto

open Manager Lib

/-- A task during which the process calls `exit`. -/
inductive Exits : Manager → Task → Prop
  | committed {m : Manager} {tp : ℕ} (free : (m.trans tp).mutex = false)
      (status : (m.trans tp).status = .committed) : Exits m (.abort tp)
  | cascade {m : Manager} {tp : ℕ} (free : (m.trans tp).mutex = false)
      (status : (m.trans tp).status = .pending)
      (walk : Exits ((m.setMutex tp true).setStatus tp .aborted) (.walk tp 0)) :
      Exits m (.abort tp)
  | pass {m : Manager} {tp a b : ℕ} (link : (m.trans a).next = b) (node : b ≠ 0)
      (passes : Passes m tp b) (walk : Exits m (.walk tp b)) : Exits m (.walk tp a)
  | dependent {m : Manager} {tp a b : ℕ} (link : (m.trans a).next = b) (node : b ≠ 0)
      (other : (m.trans b).id ≠ (m.trans tp).id) (finds : Finds m tp b)
      (abort : Exits m (.abort b)) : Exits m (.walk tp a)
  | later {m m₁ : Manager} {tp a b : ℕ} (link : (m.trans a).next = b) (node : b ≠ 0)
      (other : (m.trans b).id ≠ (m.trans tp).id) (finds : Finds m tp b)
      (abort : Returns m (.abort b) m₁) (walk : Exits m₁ (.walk tp (m₁.trans a).next)) :
      Exits m (.walk tp a)

variable {m₀ m m₁ m' : Manager} {tp x y z a b : ℕ} {nodes live live₁ live' pre post : List ℕ}

theorem Exits.exists_fuel {task : Task} (h : Exits m task) :
    ∃ enough, ∀ fuel, task.run (enough + fuel) m = .error .exit := by
  induction h with
  | @committed m tp free status =>
    refine ⟨1, fun fuel => ?_⟩
    rw [Nat.add_comm, Task.run, transAbort, lock_eq_ok.mpr ⟨free, rfl⟩]
    simp only [Except.bind, bind, trans_setMutex, status]
  | cascade free status walk ih =>
    obtain ⟨enough, hwalk⟩ := ih
    refine ⟨enough + 1, fun fuel => ?_⟩
    rw [Nat.add_right_comm, Task.run, transAbort_cascade free status]
    exact bind_error (hwalk fuel)
  | pass link node passes walk ih =>
    obtain ⟨enough, hwalk⟩ := ih
    refine ⟨enough + 2, fun fuel => ?_⟩
    rw [Nat.add_right_comm, Task.run, abortDependents_pass (enough + fuel) link node passes]
    exact hwalk (fuel + 1)
  | dependent link node other finds abort ih =>
    obtain ⟨enough, habort⟩ := ih
    refine ⟨enough + 2, fun fuel => ?_⟩
    rw [Nat.add_right_comm, Task.run,
      abortDependents_dependent (enough + fuel) link node other finds]
    exact bind_error (habort (fuel + 1))
  | later link node other finds abort walk ih =>
    obtain ⟨enough, habort⟩ := abort.exists_fuel
    obtain ⟨enough', hwalk⟩ := ih
    refine ⟨enough + enough' + 2, fun fuel => ?_⟩
    -- the abort returns and the walk after it exits, so both need fuel
    have habort' := habort (enough' + fuel + 1)
    have hwalk' := hwalk (enough + fuel + 1)
    rw [show enough + (enough' + fuel + 1) = enough + enough' + fuel + 1 by omega] at habort'
    rw [show enough' + (enough + fuel + 1) = enough + enough' + fuel + 1 by omega] at hwalk'
    rw [Nat.add_right_comm, Task.run,
      abortDependents_dependent (enough + enough' + fuel) link node other finds]
    exact bind_ok habort' hwalk'

/-! ### What holds on the way -/

/-- The place of a node in the original list; the sentinel is first. -/
def rank (nodes : List ℕ) (a : ℕ) : ℕ := (0 :: nodes).idxOf a

/-- The state at any time during an abort, where `live` are the nodes that are left. The links
of the others are as they were when they were freed. -/
structure Sane (m₀ : Manager) (nodes live : List ℕ) (m : Manager) : Prop where
  graph : SameGraph m₀ m
  linked : Linked m live
  sub : live.Sublist nodes
  kept : ∀ a ∈ live, (m.trans a).freed = false
  forward : ∀ a ∈ 0 :: nodes, (m.trans a).next ≠ 0 →
    (m.trans a).next ∈ nodes ∧ rank nodes a < rank nodes (m.trans a).next

/-- What has happened since. A transaction whose mutex is held is not freed, and what pointed to it
still does. -/
structure Progress (m : Manager) (live : List ℕ) (m' : Manager) (live' : List ℕ) : Prop where
  sub : live'.Sublist live
  pending : ∀ a, (m'.trans a).status = .pending → (m.trans a).status = .pending
  mutex : ∀ a, (m'.trans a).mutex = (m.trans a).mutex
  same : live'.length = live.length → ∀ a, (m'.trans a).next = (m.trans a).next
  held : ∀ z ∈ live, (m.trans z).mutex = true →
    z ∈ live' ∧ ∀ a, (m.trans a).next = z → (m'.trans a).next = z

theorem Progress.refl (m : Manager) (live : List ℕ) : Progress m live m live :=
  ⟨.refl live, fun _ => id, fun _ => rfl, fun _ _ => rfl, fun _ hz _ => ⟨hz, fun _ => id⟩⟩

theorem Progress.trans (h : Progress m live m₁ live₁) (h' : Progress m₁ live₁ m' live') :
    Progress m live m' live' where
  sub := h'.sub.trans h.sub
  pending a hp := h.pending a (h'.pending a hp)
  mutex a := (h'.mutex a).trans (h.mutex a)
  same hlength a := by
    have hle := h.sub.length_le
    have hle' := h'.sub.length_le
    rw [h'.same (by omega), h.same (by omega)]
  held z hz hmutex := by
    obtain ⟨hz₁, hnext⟩ := h.held z hz hmutex
    obtain ⟨hz', hnext'⟩ := h'.held z hz₁ ((h.mutex z).trans hmutex)
    exact ⟨hz', fun a ha => hnext' a (hnext a ha)⟩

/-- A position from which the walk finds a live node, or the end. -/
def Standing (nodes live : List ℕ) (m : Manager) (a : ℕ) : Prop :=
  a ∈ 0 :: nodes ∧ ((m.trans a).next = 0 ∨ (m.trans a).next ∈ live)

theorem Sane.standing (sane : Sane m₀ nodes live m) (ha : a ∈ 0 :: live) :
    Standing nodes live m a := by
  refine ⟨?_, sane.linked.toRing.next_mem ha⟩
  rcases List.mem_cons.mp ha with rfl | ha
  · exact List.mem_cons_self
  · exact List.mem_cons_of_mem 0 (sane.sub.subset ha)

private theorem Sane.drop (sane : Sane m₀ nodes live m) (hy : y ∈ live) :
    Sane m₀ nodes live (m.dropReference y) ∧ Progress m live (m.dropReference y) live ∧
      ∀ a ∈ 0 :: nodes, (m.trans a).next = y →
        Standing nodes live (m.dropReference y) ((m.dropReference y).trans a).next := by
  have htrans : ∀ a, (m.dropReference y).trans a = { m.trans a with
      refcnt := if a = y then decrement (m.trans y).refcnt else (m.trans a).refcnt } := fun a => by
    rw [dropReference, trans_setRefcnt]
  have hsane : Sane m₀ nodes live (m.dropReference y) := by
    refine ⟨sane.graph.trans ⟨?_, ?_, rfl, rfl⟩, sane.linked.congr ?_ ?_, sane.sub, ?_, ?_⟩ <;>
      intro a <;> rw [htrans]
    · exact sane.kept a
    · exact sane.forward a
  refine ⟨hsane, ⟨.refl live, fun a => ?_, fun a => ?_, fun _ a => ?_, fun z hz _ => ⟨hz, fun a => ?_⟩⟩,
    fun a _ hnext => ?_⟩
  · rw [htrans]
    exact id
  · rw [htrans]
  · rw [htrans]
  · rw [htrans]
    exact id
  · rw [htrans]
    exact hnext ▸ hsane.standing (List.mem_cons_of_mem 0 hy)

private theorem Sane.remove (sane : Sane m₀ nodes (pre ++ y :: post) m)
    (hfree : (m.trans y).mutex = false) :
    Sane m₀ nodes (pre ++ post) (m.remove y) ∧
      Progress m (pre ++ y :: post) (m.remove y) (pre ++ post) ∧
      ∀ a ∈ 0 :: nodes, (m.trans a).next = y →
        Standing nodes (pre ++ post) (m.remove y) ((m.remove y).trans a).next := by
  have hsub : (pre ++ post).Sublist (pre ++ y :: post) :=
    (List.sublist_cons_self y post).append_left pre
  have hmem : y ∈ pre ++ y :: post := List.mem_append_right pre List.mem_cons_self
  have hynodes : y ∈ 0 :: nodes := List.mem_cons_of_mem 0 (sane.sub.subset hmem)
  have hprev : (m.trans y).prev = before 0 pre := sane.linked.toRing.prev_member
  have hnext : (m.trans (before 0 pre)).next = y := sane.linked.toRing.next_before
  have hnodup : (y :: (pre ++ post)).Nodup :=
    List.perm_middle.nodup_iff.mp (List.nodup_cons.mp sane.linked.toRing.nodup).2
  have hzero : y ≠ 0 := fun h => sane.linked.toRing.head_notMem (h ▸ hmem)
  have hbefore : before 0 pre ∈ 0 :: nodes := by
    rcases List.mem_cons.mp (before_mem 0 pre) with h | h
    · rw [h]
      exact List.mem_cons_self
    · exact List.mem_cons_of_mem 0 (sane.sub.subset (List.mem_append_left _ h))
  have hsane : Sane m₀ nodes (pre ++ post) (m.remove y) := by
    refine ⟨sane.graph.trans ⟨?_, ?_, rfl, rfl⟩, sane.linked.remove, hsub.trans sane.sub, ?_, ?_⟩
    · exact fun a => by rw [trans_remove]
    · exact fun a => by rw [trans_remove]
    · intro a ha
      rw [trans_remove]
      have hne : a ≠ y := fun h => (List.nodup_cons.mp hnodup).1 (h ▸ ha)
      simp only [if_neg hne]
      exact sane.kept a (hsub.subset ha)
    · intro a ha hne
      rw [trans_remove] at hne ⊢
      simp only [hprev] at hne ⊢
      by_cases heq : a = before 0 pre
      · simp only [if_pos heq] at hne ⊢
        have hstep := (sane.forward a ha (heq ▸ hnext ▸ hzero)).2
        obtain ⟨hmem', hstep'⟩ := sane.forward y hynodes hne
        rw [heq, hnext] at hstep
        exact ⟨hmem', heq ▸ hstep.trans hstep'⟩
      · simp only [if_neg heq] at hne ⊢
        exact sane.forward a ha hne
  have hafter : (m.trans y).next ∈ 0 :: (pre ++ post) := by
    rw [show (m.trans y).next = after 0 post from sane.linked.toRing.next_member]
    rcases List.mem_append.mp (after_mem 0 post) with h | h
    · exact List.mem_cons_of_mem 0 (List.mem_append_right pre h)
    · rw [List.mem_singleton.mp h]
      exact List.mem_cons_self
  refine ⟨hsane, ⟨hsub, fun a => ?_, fun a => ?_, fun hlength => ?_, fun z hz hmutex => ?_⟩,
    fun a _ ha => ?_⟩
  · rw [trans_remove]
    exact id
  · rw [trans_remove]
  · simp only [List.length_append, List.length_cons] at hlength
    omega
  · have hne : z ≠ y := by
      rintro rfl
      exact absurd (hfree.symm.trans hmutex) nofun
    have hz' : z ∈ y :: (pre ++ post) := List.perm_middle.subset hz
    refine ⟨(List.mem_cons.mp hz').resolve_left hne, fun a ha => ?_⟩
    have hbefore : a ≠ before 0 pre := by
      rintro rfl
      exact hne (ha.symm.trans hnext)
    rw [trans_remove]
    simp only [hprev, if_neg hbefore]
    exact ha
  · -- a node that was freed before still points to `y`, whose link leads on
    rw [trans_remove]
    simp only [hprev]
    split
    · exact hsane.standing hafter
    · rw [ha]
      refine ⟨hynodes, ?_⟩
      rw [trans_remove]
      simp only [ite_self]
      exact List.mem_cons.mp hafter

/-- Dropping a reference keeps the walks going. -/
theorem Sane.unref (sane : Sane m₀ nodes live m) (hy : y ∈ live)
    (hfree : (m.trans y).mutex = false) :
    ∃ m' live', transUnref m y = .ok m' ∧ Sane m₀ nodes live' m' ∧ Progress m live m' live' ∧
      ∀ a ∈ 0 :: nodes, (m.trans a).next = y → Standing nodes live' m' (m'.trans a).next := by
  by_cases hlast : decrement (m.trans y).refcnt = 0
  · obtain ⟨pre, post, rfl⟩ := List.append_of_mem hy
    exact ⟨_, _, transUnref_eq_ok.mpr ⟨hfree, .inl ⟨hlast, sane.kept y hy, rfl⟩⟩,
      sane.remove hfree⟩
  · exact ⟨_, _, transUnref_eq_ok.mpr ⟨hfree, .inr ⟨hlast, rfl⟩⟩, sane.drop hy⟩

/-! ### Aborts and walks -/

/-- Every scan by a walk of `tp` or of a dependent comes to an end. -/
def ScansEnd (m : Manager) (nodes : List ℕ) (tp : ℕ) : Prop :=
  ∀ x, Doomed m tp x → ∀ y ∈ nodes, y ≠ x →
    (m.trans y).depends.length < 2 ∨ x ∈ (m.trans y).depends.take 2

/-- A walk that returns or ends the process. -/
def WalkEnds (m₀ : Manager) (nodes live : List ℕ) (m : Manager) (x a : ℕ) : Prop :=
  (∃ m' live', Returns m (.walk x a) m' ∧ Sane m₀ nodes live' m' ∧ Progress m live m' live') ∨
    Exits m (.walk x a)

/-- An abort that returns or ends the process. A walk that called it can go on. -/
def AbortEnds (m₀ : Manager) (nodes live : List ℕ) (m : Manager) (y : ℕ) : Prop :=
  (∃ m' live', Returns m (.abort y) m' ∧ Sane m₀ nodes live' m' ∧ Progress m live m' live' ∧
    ∀ a ∈ 0 :: nodes, (m.trans a).next = y → Standing nodes live' m' (m'.trans a).next) ∨
    Exits m (.abort y)

/-- The state in which an abort starts its walk. -/
def started (m : Manager) (y : ℕ) : Manager := (m.setMutex y true).setStatus y .aborted

theorem trans_started : (started m y).trans a =
    { m.trans a with
      mutex := if a = y then true else (m.trans a).mutex
      status := if a = y then .aborted else (m.trans a).status } := by
  rw [started, trans_setStatus, trans_setMutex]

theorem Sane.congr (sane : Sane m₀ nodes live m) (graph : SameGraph m m')
    (hnext : ∀ a, (m'.trans a).next = (m.trans a).next)
    (hprev : ∀ a, (m'.trans a).prev = (m.trans a).prev)
    (hfreed : ∀ a, (m'.trans a).freed = (m.trans a).freed) : Sane m₀ nodes live m' where
  graph := sane.graph.trans graph
  linked := sane.linked.congr hnext hprev
  sub := sane.sub
  kept a ha := (hfreed a).trans (sane.kept a ha)
  forward a ha := by
    rw [hnext]
    exact sane.forward a ha

/-- A nested walk keeps what is asked of an abort, and its own transaction. -/
theorem Progress.cascade (hfree : (m.trans y).mutex = false) (hy : y ∈ live)
    (walk : Progress (started m y) live m₁ live₁) (last : Progress (m₁.unlock y) live₁ m' live') :
    Progress m live m' live' := by
  have hunlock : ∀ a, ((m₁.unlock y).trans a).next = (m₁.trans a).next := fun a => by
    rw [trans_unlock]
  have hstarted : ∀ a, ((started m y).trans a).next = (m.trans a).next := fun a => by
    rw [trans_started]
  refine ⟨last.sub.trans walk.sub, fun a ha => ?_, fun a => ?_, fun hlength a => ?_,
    fun z hz hmutex => ?_⟩
  · have hpending := last.pending a ha
    rw [trans_unlock] at hpending
    have hstart := walk.pending a hpending
    rw [trans_started] at hstart
    by_cases hay : a = y
    · rw [if_pos hay] at hstart
      exact absurd hstart nofun
    · rwa [if_neg hay] at hstart
  · rw [last.mutex, trans_unlock]
    by_cases hay : a = y
    · rw [if_pos hay, hay, hfree]
    · rw [if_neg hay, walk.mutex, trans_started]
      exact if_neg hay
  · have hle := walk.sub.length_le
    have hle' := last.sub.length_le
    rw [last.same (by omega), hunlock, walk.same (by omega), hstarted]
  · -- `y` was free before, so it is none of the locked ones
    have hzy : z ≠ y := by
      rintro rfl
      exact absurd (hfree.symm.trans hmutex) nofun
    have hlocked : ((started m y).trans z).mutex = true := by
      rw [trans_started]
      exact (if_neg hzy).trans hmutex
    obtain ⟨hz₁, hnext⟩ := walk.held z hz hlocked
    have hlocked₁ : ((m₁.unlock y).trans z).mutex = true := by
      rw [trans_unlock, if_neg hzy, walk.mutex]
      exact hlocked
    obtain ⟨hz', hnext'⟩ := last.held z hz₁ hlocked₁
    refine ⟨hz', fun a ha => hnext' a ?_⟩
    rw [hunlock]
    exact hnext a ((hstarted a).trans ha)

theorem abort_ends (sane : Sane m₀ nodes live m) (hy : y ∈ live)
    (hfree : (m.trans y).mutex = false)
    (walk : (m.trans y).status = .pending → WalkEnds m₀ nodes live (started m y) y 0) :
    AbortEnds m₀ nodes live m y := by
  cases hstatus : (m.trans y).status with
  | committed => exact .inr (.committed hfree hstatus)
  | aborted =>
    obtain ⟨m', live', hcall, hsane, hprogress, hlanding⟩ := sane.unref hy hfree
    exact .inl ⟨m', live', .again hfree hstatus hcall, hsane, hprogress, hlanding⟩
  | pending =>
    rcases walk hstatus with ⟨m₁, live₁, hwalk, hsane₁, hprogress₁⟩ | hexits
    · have hlocked : ((started m y).trans y).mutex = true := by
        rw [trans_started]
        exact if_pos rfl
      -- the walk leaves `y` alone, since its mutex is held
      obtain ⟨hy₁, hpoint⟩ := hprogress₁.held y hy hlocked
      have hsane₁' : Sane m₀ nodes live₁ (m₁.unlock y) :=
        hsane₁.congr sameGraph_setMutex (fun a => by rw [trans_unlock])
          (fun a => by rw [trans_unlock]) fun a => by rw [trans_unlock]
      obtain ⟨m', live', hcall, hsane, hprogress, hlanding⟩ := hsane₁'.unref hy₁
        (by rw [trans_unlock, if_pos rfl])
      refine .inl ⟨m', live', .cascade hfree hstatus hwalk hcall, hsane,
        .cascade hfree hy hprogress₁ hprogress, fun a ha hnext => hlanding a ha ?_⟩
      rw [trans_unlock]
      refine hpoint a ?_
      rw [trans_started]
      exact hnext
    · exact .inr (.cascade hfree hstatus hexits)

/-- Steps that come before the end of a walk: fewer pending transactions, fewer nodes, or further
on in the list. -/
noncomputable def remaining (nodes live : List ℕ) (m : Manager) (a : ℕ) : ℕ ×ₗ ℕ ×ₗ ℕ :=
  toLex ({x | x ∈ nodes ∧ (m.trans x).status = .pending}.ncard,
    toLex (live.length, nodes.length - rank nodes a))

theorem remaining_lt {live₁ : List ℕ} {m₁ : Manager} {a₁ : ℕ}
    (hpending : ∀ x, (m₁.trans x).status = .pending → (m.trans x).status = .pending)
    (hlive : live₁.length ≤ live.length)
    (hless : (∃ x ∈ nodes, (m.trans x).status = .pending ∧ (m₁.trans x).status ≠ .pending) ∨
      (live₁.length = live.length →
        rank nodes a < rank nodes a₁ ∧ rank nodes a < nodes.length)) :
    remaining nodes live₁ m₁ a₁ < remaining nodes live m a := by
  have hfinite : {x | x ∈ nodes ∧ (m.trans x).status = .pending}.Finite :=
    (List.finite_toSet nodes).subset fun _ h => h.1
  have hsubset : {x | x ∈ nodes ∧ (m₁.trans x).status = .pending} ⊆
      {x | x ∈ nodes ∧ (m.trans x).status = .pending} := fun x hx => ⟨hx.1, hpending x hx.2⟩
  simp only [remaining, Prod.Lex.toLex_lt_toLex]
  rcases hless with ⟨x, hx, hp, hnp⟩ | hless
  · exact .inl (Set.ncard_lt_ncard
      ((Set.ssubset_iff_of_subset hsubset).mpr ⟨x, ⟨hx, hp⟩, fun h => hnp h.2⟩) hfinite)
  · have hle := Set.ncard_le_ncard hsubset hfinite
    omega

theorem rank_le (ha : a ∈ 0 :: nodes) : rank nodes a ≤ nodes.length :=
  Nat.lt_succ_iff.mp (List.idxOf_lt_length_of_mem ha)

theorem walk_ends (consistent : Consistent m₀ nodes) (htp : tp ∈ nodes)
    (scans : ScansEnd m₀ nodes tp) (sane : Sane m₀ nodes live m) (hx : Doomed m₀ tp x)
    (locks : ∀ z, (m.trans z).mutex = true → z = x ∨ Dependent m₀ z x)
    (standing : Standing nodes live m a) : WalkEnds m₀ nodes live m x a := by
  induction hmeasure : remaining nodes live m a using WellFoundedLT.induction
    generalizing live m x a with
  | _ t ih =>
    subst hmeasure
    obtain ⟨ha, hnext⟩ := standing
    by_cases hend : (m.trans a).next = 0
    · exact .inl ⟨m, live, .done hend, sane, .refl m live⟩
    have hb : (m.trans a).next ∈ live := hnext.resolve_left hend
    obtain ⟨hbnodes, hrank⟩ := sane.forward a ha hend
    have hbound := rank_le (List.mem_cons_of_mem 0 hbnodes)
    by_cases hpass : Passes m x (m.trans a).next
    · -- the walk goes on to the next node
      have hless : remaining nodes live m (m.trans a).next < remaining nodes live m a :=
        remaining_lt (fun _ => id) le_rfl (.inr fun _ => ⟨hrank, by omega⟩)
      rcases ih _ hless sane hx locks (sane.standing (List.mem_cons_of_mem 0 hb)) rfl with
        ⟨m', live', hwalk, hsane, hprogress⟩ | hexits
      · exact .inl ⟨m', live', .pass rfl hend hpass hwalk, hsane, hprogress⟩
      · exact .inr (.pass rfl hend hpass hexits)
    · -- the next node is a dependent: it is aborted, then the walk goes on behind it
      have hother : (m.trans (m.trans a).next).id ≠ (m.trans x).id := fun hid => hpass (.inl hid)
      have hxb : (m.trans a).next ≠ x := fun heq => hother (heq ▸ rfl)
      have hfinds : Finds m x (m.trans a).next := by
        by_contra hmiss
        rcases scans x hx _ hbnodes hxb with hshort | hmem
        · refine hpass (.inr ⟨hmiss, ?_⟩)
          rw [sane.graph.depends]
          exact hshort
        · refine hmiss ⟨x, ?_, rfl⟩
          rw [sane.graph.depends]
          exact hmem
      have hdepends : DependsOn m₀ x (m.trans a).next :=
        (sane.graph.finds.mp hfinds).dependsOn consistent (hx.mem consistent htp)
      have hdoomed : Doomed m₀ tp (m.trans a).next := .inr (hx.dependent hdepends)
      have hfree : (m.trans (m.trans a).next).mutex = false := by
        refine Bool.eq_false_iff.mpr fun hheld => ?_
        rcases locks _ hheld with heq | hchain
        · exact hxb heq
        · exact consistent.acyclic _ (hchain.tail hdepends)
      have hnested : (m.trans (m.trans a).next).status = .pending →
          WalkEnds m₀ nodes live (started m (m.trans a).next) (m.trans a).next 0 := by
        intro hpending
        have hless : remaining nodes live (started m (m.trans a).next) 0 <
            remaining nodes live m a := by
          refine remaining_lt (fun z hz => ?_) le_rfl (.inl ⟨_, hbnodes, hpending, ?_⟩)
          · rw [trans_started] at hz
            by_cases heq : z = (m.trans a).next
            · exact absurd ((if_pos heq).symm.trans hz) nofun
            · exact (if_neg heq).symm.trans hz
          · rw [trans_started]
            exact ne_of_eq_of_ne (if_pos rfl) nofun
        have hsane : Sane m₀ nodes live (started m (m.trans a).next) :=
          sane.congr (sameGraph_setMutex.trans sameGraph_setStatus)
            (fun z => by rw [trans_started]) (fun z => by rw [trans_started])
            fun z => by rw [trans_started]
        refine ih _ hless hsane hdoomed (fun z hz => ?_) (hsane.standing List.mem_cons_self) rfl
        rw [trans_started] at hz
        by_cases heq : z = (m.trans a).next
        · exact .inl heq
        · rcases locks z ((if_neg heq).symm.trans hz) with rfl | hchain
          · exact .inr (.single hdepends)
          · exact .inr (hchain.tail hdepends)
      rcases abort_ends sane hb hfree hnested with
        ⟨m₁, live₁, habort, hsane₁, hprogress₁, hlanding⟩ | hexits
      · have hless : remaining nodes live₁ m₁ (m₁.trans a).next < remaining nodes live m a := by
          refine remaining_lt hprogress₁.pending hprogress₁.sub.length_le (.inr fun hlength => ?_)
          rw [hprogress₁.same hlength]
          exact ⟨hrank, by omega⟩
        rcases ih _ hless hsane₁ hx (fun z hz => locks z ((hprogress₁.mutex z).symm.trans hz))
            (hlanding a ha rfl) rfl with ⟨m', live', hwalk, hsane, hprogress⟩ | hexits
        · exact .inl ⟨m', live', .dependent rfl hend hother hfinds habort hwalk, hsane,
            hprogress₁.trans hprogress⟩
        · exact .inr (.later rfl hend hother hfinds habort hexits)
      · exact .inr (.dependent rfl hend hother hfinds hexits)

/-- Every state is sane before the abort. -/
theorem Consistent.sane (consistent : Consistent m nodes) : Sane m nodes nodes m where
  graph := .refl m
  linked := consistent.linked
  sub := .refl nodes
  kept := consistent.live
  forward a ha hne := by
    obtain ⟨pre, post, rfl, hbefore⟩ : ∃ pre post, nodes = pre ++ post ∧ before 0 pre = a := by
      rcases List.mem_cons.mp ha with rfl | ha
      · exact ⟨[], nodes, rfl, rfl⟩
      · obtain ⟨pre, post, rfl⟩ := List.append_of_mem ha
        exact ⟨pre ++ [a], post, by simp, before_concat⟩
    have hnext : (m.trans a).next = after 0 post :=
      hbefore ▸ consistent.linked.toRing.next_before
    obtain ⟨post, rfl⟩ := rest_eq_cons hnext.symm hne
    have hnodup : (0 :: pre ++ (m.trans a).next :: post).Nodup := consistent.linked.toRing.nodup
    have hfresh : (m.trans a).next ∉ 0 :: pre := fun hmem =>
      (List.nodup_append.mp hnodup).2.2 _ hmem _ List.mem_cons_self rfl
    refine ⟨List.mem_append_right pre List.mem_cons_self, ?_⟩
    rw [rank, rank, ← List.cons_append, List.idxOf_append_of_mem (hbefore ▸ before_mem 0 pre),
      List.idxOf_append_of_notMem hfresh, List.idxOf_cons_self, Nat.add_zero]
    exact List.idxOf_lt_length_of_mem (hbefore ▸ before_mem 0 pre)

private theorem ends_of_scans (consistent : Consistent m nodes) (known : tp ∈ nodes)
    (scans : ScansEnd m nodes tp) : AbortEnds m nodes nodes m tp := by
  have hsane := consistent.sane
  refine abort_ends hsane known (consistent.unlocked tp) fun _ => ?_
  have hsane' : Sane m nodes nodes (started m tp) :=
    hsane.congr (sameGraph_setMutex.trans sameGraph_setStatus)
      (fun z => by rw [trans_started]) (fun z => by rw [trans_started])
      fun z => by rw [trans_started]
  refine walk_ends consistent known scans hsane' (.inl rfl) (fun z hz => .inl ?_)
    (hsane'.standing List.mem_cons_self)
  by_contra hne
  rw [trans_started] at hz
  exact absurd ((consistent.unlocked z).symm.trans ((if_neg hne).symm.trans hz)) nofun

theorem scanDependencies_running {d : ℕ} {rest : List ℕ}
    (hother : (m.trans d).id ≠ (m.trans tp).id) (fuel : ℕ) :
    scanDependencies fuel m tp (d :: rest) = .error .running := by
  induction fuel with
  | zero => rfl
  | succ fuel ih => rw [scanDependencies, if_neg hother, ih]

/-- The walk does not come past a node with two dependencies or more of which the first two are
others. -/
theorem abortDependents_running (hlink : (m.trans a).next = b) (hnode : b ≠ 0)
    (hother : (m.trans b).id ≠ (m.trans tp).id) (hmiss : ¬ Finds m tp b)
    (hlong : 2 ≤ (m.trans b).depends.length) (fuel : ℕ) :
    abortDependents fuel m tp a = .error .running := by
  cases fuel with
  | zero => rfl
  | succ fuel =>
    rw [abortDependents]
    simp only [hlink, if_neg hnode, if_neg hother]
    split
    · next hnil => simp [hnil] at hlong
    · next d rest hdepends =>
      have hfirst : (m.trans d).id ≠ (m.trans tp).id := fun h => hmiss ⟨d, by simp [hdepends], h⟩
      obtain ⟨e, rest, rfl⟩ : ∃ e rest', rest = e :: rest' := by
        cases rest with
        | nil => simp [hdepends] at hlong
        | cons e rest => exact ⟨e, rest, rfl⟩
      have hsecond : (m.trans e).id ≠ (m.trans tp).id := fun h => hmiss ⟨e, by simp [hdepends], h⟩
      rw [if_neg hfirst, scanDependencies_running hsecond]
      rfl

theorem abortDependents_running_pass (hlink : (m.trans a).next = b) (hnode : b ≠ 0)
    (hpass : Passes m tp b) (h : ∀ fuel, abortDependents fuel m tp b = .error .running) (fuel : ℕ) :
    abortDependents fuel m tp a = .error .running := by
  cases fuel with
  | zero => rfl
  | succ fuel =>
    cases fuel with
    | zero =>
      rw [abortDependents]
      simp only [hlink, if_neg hnode]
      split
      · rfl
      · split
        · rfl
        · split <;> rfl
    | succ fuel =>
      rw [abortDependents_pass fuel hlink hnode hpass]
      exact h (fuel + 1)

/-- The fourth transaction depends on the second and the third one. -/
def unrelated : Manager := addDependency (addDependency (created 4) 4 2) 4 3

theorem built_unrelated : Built unrelated := by
  have hone : Built (addDependency (created 4) 4 2) :=
    (built_created 4).addDependency (by decide) (by decide) (not_dependent_of_nil rfl)
      (transAddDependency_eq rfl rfl (by decide))
  exact hone.addDependency (by decide) (by decide) (not_dependent_of_nil (by decide))
    (transAddDependency_eq (by decide) (by decide) (by decide))

end CLanguage.Xacto
