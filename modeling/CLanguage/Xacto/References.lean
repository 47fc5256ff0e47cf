import CLanguage.Xacto.Clients
import CLanguage.Xacto.Graph

/-!
# The reference counts of transactions

A transaction counts the references of the clients, of the dependency entries and of
the versions. `trans_unref` frees the dependency entries of a transaction and leaves
what they count, `trans_commit` keeps a reference where it finds an aborted
dependency, `trans_abort` drops one of every dependent, and `version_dispose` never
frees. `TransCounted` ties the counts in memory to a table of references, so that each
of the writes is one lemma about a table.

## Main results

* `TransCounted.unref`, `TransCounted.create` — a reference dropped, a new transaction
* `references_balanced` — the runs in which every count is right
-/

namespace CLanguage.Xacto

open Manager Lib Client

variable {m m' : Manager} {refs : ℕ → ℕ} {tp dtp a b : ℕ} {nodes : List ℕ}

/-! ### Counts and references -/

theorem decrement_eq_zero {n : ℕ} : decrement n = 0 ↔ n = 1 := by
  rw [decrement]
  split
  · next h => simp [h]
  · omega

theorem increment_eq {n : ℕ} (h : n + 1 < 2 ^ 32) : increment n = n + 1 := Nat.mod_eq_of_lt h

theorem decrement_eq {n : ℕ} (h : 0 < n) : decrement n = n - 1 := if_neg (Nat.ne_of_gt h)

/-- A transaction is kept in the list as long as it has references, and counts them. -/
structure TransCounted (m : Manager) (refs : ℕ → ℕ) : Prop where
  known : ∀ tp, 0 < refs tp → 0 < tp ∧ tp < m.fresh
  kept : ∀ tp, 0 < tp → tp < m.fresh → ((m.trans tp).freed = false ↔ 0 < refs tp)
  count : ∀ tp, 0 < refs tp → (m.trans tp).refcnt = refs tp
  bound : ∀ tp, refs tp < 2 ^ 32
  fresh_pos : 0 < m.fresh
  linked : ∃ nodes, Linked m nodes ∧ ∀ a, a ∈ nodes ↔ 0 < refs a

theorem TransCounted.unknown (counted : TransCounted m refs) : refs m.fresh = 0 := by
  by_contra hne
  exact absurd (counted.known m.fresh (Nat.pos_of_ne_zero hne)).2 (Nat.lt_irrefl _)

theorem TransCounted.congr (counted : TransCounted m refs) (hfresh : m'.fresh = m.fresh)
    (hnext : ∀ a, (m'.trans a).next = (m.trans a).next)
    (hprev : ∀ a, (m'.trans a).prev = (m.trans a).prev)
    (hfreed : ∀ a, (m'.trans a).freed = (m.trans a).freed)
    (hrefcnt : ∀ a, (m'.trans a).refcnt = (m.trans a).refcnt) : TransCounted m' refs where
  known tp h := hfresh ▸ counted.known tp h
  kept tp hpos hlt := by
    rw [hfreed]
    exact counted.kept tp hpos (hfresh ▸ hlt)
  count tp h := (hrefcnt tp).trans (counted.count tp h)
  bound := counted.bound
  fresh_pos := hfresh ▸ counted.fresh_pos
  linked := by
    obtain ⟨nodes, hlinked, hnodes⟩ := counted.linked
    exact ⟨nodes, hlinked.congr hnext hprev, hnodes⟩

/-- A new number for the references of one transaction that has some before and after. -/
theorem TransCounted.recount {n : ℕ} (counted : TransCounted m refs) (hrefs : 0 < refs tp)
    (hpos : 0 < n) (hfits : n < 2 ^ 32) :
    TransCounted (m.setRefcnt tp n) (Function.update refs tp n) := by
  -- who has references does not change
  have hsame : ∀ a, 0 < Function.update refs tp n a ↔ 0 < refs a := by
    intro a
    rw [Function.update_apply]
    split
    · next h =>
      subst h
      exact ⟨fun _ => hrefs, fun _ => hpos⟩
    · rfl
  refine ⟨fun a ha => counted.known a ((hsame a).mp ha), fun a hpos hlt => ?_, fun a ha => ?_,
    fun a => ?_, counted.fresh_pos, ?_⟩
  · rw [trans_setRefcnt, hsame]
    exact counted.kept a hpos hlt
  · rw [trans_setRefcnt, Function.update_apply]
    split
    · rfl
    · exact counted.count a ((hsame a).mp ha)
  · rw [Function.update_apply]
    split
    · exact hfits
    · exact counted.bound a
  · obtain ⟨nodes, hlinked, hnodes⟩ := counted.linked
    refine ⟨nodes, hlinked.congr (fun _ => ?_) (fun _ => ?_), fun a => ?_⟩
    · rw [trans_setRefcnt]
    · rw [trans_setRefcnt]
    · rw [hsame, hnodes]

theorem TransCounted.addReference (counted : TransCounted m refs) (hrefs : 0 < refs tp)
    (hfits : (m.trans tp).refcnt + 1 < 2 ^ 32) :
    TransCounted (m.addReference tp) (gain refs tp) := by
  rw [Manager.addReference, increment_eq hfits]
  rw [counted.count tp hrefs] at hfits ⊢
  exact counted.recount hrefs (Nat.succ_pos _) hfits

theorem TransCounted.dropReference (counted : TransCounted m refs) (hrefs : 1 < refs tp) :
    TransCounted (m.dropReference tp) (lose refs tp) := by
  have hpos : 0 < refs tp := Nat.lt_trans Nat.one_pos hrefs
  rw [Manager.dropReference, counted.count tp hpos, decrement_eq hpos]
  exact counted.recount hpos (Nat.sub_pos_of_lt hrefs)
    (Nat.lt_of_le_of_lt (Nat.sub_le _ _) (counted.bound tp))

/-- The last reference goes, and the transaction with it. -/
theorem TransCounted.remove (counted : TransCounted m refs) (hrefs : refs tp = 1) :
    TransCounted (m.remove tp) (lose refs tp) := by
  have hlose : ∀ a, lose refs tp a = if a = tp then 0 else refs a := by
    intro a
    rw [lose_apply, hrefs]
  -- the others keep theirs
  have hpos : ∀ a, 0 < lose refs tp a ↔ 0 < refs a ∧ a ≠ tp := by
    intro a
    rw [hlose]
    split
    · next h => simp [h]
    · next h => simp [h]
  refine ⟨fun a ha => counted.known a ((hpos a).mp ha).1, fun a hpos' hlt => ?_, fun a ha => ?_,
    fun a => ?_, counted.fresh_pos, ?_⟩
  · have hkept := counted.kept a hpos' hlt
    rw [trans_remove, hpos, ← hkept]
    by_cases h : a = tp
    · simp [h]
    · simp [h]
  · obtain ⟨ha, hne⟩ := (hpos a).mp ha
    rw [hlose, if_neg hne, trans_remove]
    exact counted.count a ha
  · rw [hlose]
    split
    · exact Nat.two_pow_pos 32
    · exact counted.bound a
  · obtain ⟨nodes, hlinked, hnodes⟩ := counted.linked
    -- the node is taken out of the ring
    obtain ⟨pre, post, rfl⟩ := List.append_of_mem ((hnodes tp).mpr (hrefs ▸ Nat.one_pos))
    refine ⟨pre ++ post, hlinked.remove, fun a => ?_⟩
    have hnodup : (tp :: (pre ++ post)).Nodup :=
      List.perm_middle.nodup_iff.mp (List.nodup_cons.mp hlinked.nodup).2
    have hnotMem := (List.nodup_cons.mp hnodup).1
    rw [hpos, ← hnodes, List.mem_append, List.mem_append, List.mem_cons]
    constructor
    · intro ha
      refine ⟨ha.imp_right .inr, ?_⟩
      rintro rfl
      exact hnotMem (List.mem_append.mpr ha)
    · rintro ⟨ha | rfl | ha, hne⟩
      · exact .inl ha
      · exact absurd rfl hne
      · exact .inr ha

/-- `trans_unref` keeps the transaction as long as there is another reference. -/
theorem TransCounted.unref (counted : TransCounted m refs) (hrefs : 0 < refs tp)
    (h : transUnref m tp = .ok m') : TransCounted m' (lose refs tp) := by
  have hcount := counted.count tp hrefs
  obtain ⟨-, ⟨hlast, -, rfl⟩ | ⟨hmore, rfl⟩⟩ := transUnref_eq_ok.mp h
  · rw [hcount, decrement_eq_zero] at hlast
    exact counted.remove hlast
  · rw [hcount, Ne, decrement_eq_zero] at hmore
    exact counted.dropReference (by omega)

theorem TransCounted.create (counted : TransCounted m refs) :
    TransCounted (transCreate m).1 (gain refs m.fresh) := by
  have hunknown := counted.unknown
  have hfresh : (transCreate m).1.fresh = m.fresh + 1 := rfl
  have hgain : ∀ a, gain refs m.fresh a = if a = m.fresh then 1 else refs a := by
    intro a
    rw [gain_apply, hunknown]
  refine ⟨fun a ha => ?_, fun a hpos hlt => ?_, fun a ha => ?_, fun a => ?_, Nat.succ_pos _, ?_⟩
  · rw [hgain] at ha
    split at ha
    · next h => exact ⟨h ▸ counted.fresh_pos, h ▸ Nat.lt_succ_self _⟩
    · exact (counted.known a ha).imp_right fun h => Nat.lt_succ_of_lt h
  · rw [hgain]
    simp only [trans_transCreate]
    split
    · simp
    · next h => exact counted.kept a hpos (by omega)
  · rw [hgain] at ha ⊢
    simp only [trans_transCreate]
    split
    · rfl
    · next h => exact counted.count a (by rwa [if_neg h] at ha)
  · rw [hgain]
    split
    · decide
    · exact counted.bound a
  · obtain ⟨nodes, hlinked, hnodes⟩ := counted.linked
    -- the new node is behind all the others
    have hnew : m.fresh ∉ 0 :: nodes := by
      rw [List.mem_cons, hnodes, hunknown]
      have hpos := counted.fresh_pos
      omega
    refine ⟨nodes ++ [m.fresh], hlinked.create hnew, fun a => ?_⟩
    rw [List.mem_append, List.mem_singleton, hnodes, hgain]
    split
    · next h => simp [h]
    · next h => simp [h]

/-! ### Dependency entries -/

/-- The dependency entries that a transaction has as long as it is not freed. -/
def Manager.liveDepends (m : Manager) (a : ℕ) : List ℕ :=
  if (m.trans a).freed then [] else (m.trans a).depends

theorem Manager.entries_eq (m : Manager) :
    m.entries = (List.range m.fresh).flatMap m.liveDepends := by
  rw [entries]
  induction List.range m.fresh with
  | nil => rfl
  | cons a l ih =>
    rw [List.flatMap_cons, ← ih, List.filter_cons, liveDepends]
    cases (m.trans a).freed
    · simp
    · simp

theorem entries_congr (hfresh : m'.fresh = m.fresh)
    (h : ∀ a < m.fresh, m'.liveDepends a = m.liveDepends a) : m'.entries = m.entries := by
  rw [entries_eq, entries_eq, hfresh]
  exact List.flatMap_congr fun a ha => h a (List.mem_range.mp ha)

theorem entries_create : (transCreate m).1.entries = m.entries := by
  have hfresh : (transCreate m).1.fresh = m.fresh + 1 := rfl
  have hnew : (transCreate m).1.liveDepends m.fresh = [] := by
    simp [liveDepends, trans_transCreate]
  rw [entries_eq, entries_eq, hfresh, List.range_succ, List.flatMap_append, List.flatMap_singleton,
    hnew, List.append_nil]
  refine List.flatMap_congr fun a ha => ?_
  have hne : a ≠ m.fresh := Nat.ne_of_lt (List.mem_range.mp ha)
  simp only [liveDepends, trans_transCreate, if_neg hne]

/-- An entry more. -/
theorem count_entries_addDependency (known : tp < m.fresh) (live : (m.trans tp).freed = false) :
    (addDependency m tp dtp).entries.count a = m.entries.count a + if dtp = a then 1 else 0 := by
  have hfresh : (addDependency m tp dtp).fresh = m.fresh := rfl
  have hother : ∀ b, b ≠ tp → (addDependency m tp dtp).liveDepends b = m.liveDepends b := by
    intro b hb
    simp only [liveDepends, trans_addDependency, if_neg hb]
  have htp : (addDependency m tp dtp).liveDepends tp = dtp :: m.liveDepends tp := by
    simp only [liveDepends, trans_addDependency, live, if_true, Bool.false_eq_true, if_false]
  have hmem : tp ∈ List.range m.fresh := List.mem_range.mpr known
  rw [entries_eq, entries_eq, hfresh]
  obtain ⟨pre, post, hrange⟩ := List.append_of_mem hmem
  have hnodup : (pre ++ tp :: post).Nodup := hrange ▸ List.nodup_range
  have hnotMem := (List.nodup_cons.mp (List.perm_middle.nodup_iff.mp hnodup)).1
  rw [List.mem_append, not_or] at hnotMem
  have hpre : pre.flatMap (addDependency m tp dtp).liveDepends = pre.flatMap m.liveDepends :=
    List.flatMap_congr fun b hb => hother b fun h => hnotMem.1 (h ▸ hb)
  have hpost : post.flatMap (addDependency m tp dtp).liveDepends = post.flatMap m.liveDepends :=
    List.flatMap_congr fun b hb => hother b fun h => hnotMem.2 (h ▸ hb)
  rw [hrange, List.flatMap_append, List.flatMap_append, List.flatMap_cons, List.flatMap_cons, hpre,
    hpost, htp]
  simp only [List.count_append, List.cons_append, List.count_cons, beq_iff_eq]
  omega

/-- The entries stay where the last reference goes to a transaction without dependencies. -/
theorem entries_unref (h : transUnref m tp = .ok m')
    (leaf : (m.trans tp).refcnt = 1 → (m.trans tp).depends = []) : m'.entries = m.entries := by
  obtain ⟨-, ⟨hlast, -, rfl⟩ | ⟨-, rfl⟩⟩ := transUnref_eq_ok.mp h
  · refine entries_congr rfl fun a _ => ?_
    have hnil := leaf (decrement_eq_zero.mp hlast)
    simp only [liveDepends, trans_remove]
    by_cases ha : a = tp
    · simp [ha, hnil]
    · simp [ha]
  · refine entries_congr rfl fun a _ => ?_
    simp only [liveDepends, Manager.dropReference, trans_setRefcnt]

theorem entries_addReference : (m.addReference tp).entries = m.entries :=
  entries_congr rfl fun a _ => by simp only [liveDepends, Manager.addReference, trans_setRefcnt]

theorem entries_dropReference : (m.dropReference tp).entries = m.entries :=
  entries_congr rfl fun a _ => by simp only [liveDepends, Manager.dropReference, trans_setRefcnt]

theorem entries_setStatus {status : TransStatus} : (m.setStatus tp status).entries = m.entries :=
  entries_congr rfl fun a _ => by simp only [liveDepends, trans_setStatus]

theorem TransCounted.setStatus {status : TransStatus} (counted : TransCounted m refs) :
    TransCounted (m.setStatus tp status) refs := by
  refine counted.congr rfl ?_ ?_ ?_ ?_
  all_goals exact fun a => by rw [trans_setStatus]

theorem TransCounted.addDependency (counted : TransCounted m refs) (hrefs : 0 < refs dtp)
    (hfits : (m.trans dtp).refcnt + 1 < 2 ^ 32) :
    TransCounted (addDependency m tp dtp) (gain refs dtp) := by
  refine (counted.addReference hrefs hfits).congr rfl ?_ ?_ ?_ ?_
  all_goals
    intro a
    rw [trans_addDependency, Manager.addReference, trans_setRefcnt]
  -- the counts are written to in the same way
  by_cases ha : a = dtp
  · simp [ha]
  · simp [ha]

/-! ### Calls -/

/-- A walk that finds no dependent changes nothing. -/
theorem Returns.walk_eq {a : ℕ} (h : Returns m (.walk tp a) m') (linked : Linked m nodes)
    (ha : a ∈ 0 :: nodes)
    (none : ∀ b ∈ nodes, (m.trans b).id ≠ (m.trans tp).id → ¬ Finds m tp b) : m' = m := by
  generalize htask : Task.walk tp a = task at h
  induction h generalizing a with
  | again free status unref => exact absurd htask nofun
  | cascade free status walk unref ih => exact absurd htask nofun
  | done last => rfl
  | @pass m m' tp a b link node passes walk ih =>
    obtain ⟨rfl, rfl⟩ := Task.walk.inj htask
    refine ih linked (List.mem_cons_of_mem 0 ?_) none rfl
    exact link ▸ (linked.toRing.next_mem ha).resolve_left (link ▸ node)
  | @dependent m m₁ m' tp a b link node other finds abort walk iha ihw =>
    obtain ⟨rfl, rfl⟩ := Task.walk.inj htask
    have hb : b ∈ nodes := link ▸ (linked.toRing.next_mem ha).resolve_left (link ▸ node)
    exact absurd finds (none b hb other)

/-- The calls that get the counts right: a count that is increased fits, a last reference to a
transaction with dependencies is not dropped, a commit finds no aborted dependency, an abort no
dependent, and a version is not the last reference to its creator. -/
def Client.CountSafe (c : Client) : Call → Prop
  | .transRef tp => (c.trans.trans tp).refcnt + 1 < 2 ^ 32
  | .transUnref tp => (c.trans.trans tp).refcnt = 1 → (c.trans.trans tp).depends = []
  | .transAddDependency _ dtp => (c.trans.trans dtp).refcnt + 1 < 2 ^ 32
  | .transCommit tp =>
    ((c.trans.trans tp).refcnt = 1 → (c.trans.trans tp).depends = []) ∧
      ∀ d ∈ (c.trans.trans tp).depends, (c.trans.trans d).status ≠ .aborted
  | .transAbort tp =>
    ((c.trans.trans tp).refcnt = 1 → (c.trans.trans tp).depends = []) ∧
      ((c.trans.trans tp).status = .pending → ∀ b < c.trans.fresh, (c.trans.trans b).freed = false →
        (c.trans.trans b).id ≠ (c.trans.trans tp).id →
          ∀ d ∈ (c.trans.trans b).depends, (c.trans.trans d).id ≠ (c.trans.trans tp).id)
  | .versionCreate tp _ => (c.trans.trans tp).refcnt + 1 < 2 ^ 32
  | .versionDispose vp => (c.trans.trans vp.creator).refcnt ≠ 1
  | _ => True

instance decidableCountSafe (c : Client) : (call : Call) → Decidable (c.CountSafe call)
  | .transRef _ | .transAddDependency _ _ | .versionCreate _ _ => Nat.decLt ..
  | .transUnref tp =>
    inferInstanceAs (Decidable ((c.trans.trans tp).refcnt = 1 → (c.trans.trans tp).depends = []))
  | .transCommit tp =>
    inferInstanceAs (Decidable (((c.trans.trans tp).refcnt = 1 → (c.trans.trans tp).depends = []) ∧
      ∀ d ∈ (c.trans.trans tp).depends, (c.trans.trans d).status ≠ .aborted))
  | .transAbort tp =>
    inferInstanceAs (Decidable (((c.trans.trans tp).refcnt = 1 → (c.trans.trans tp).depends = []) ∧
      ((c.trans.trans tp).status = .pending → ∀ b < c.trans.fresh, (c.trans.trans b).freed = false →
        (c.trans.trans b).id ≠ (c.trans.trans tp).id →
          ∀ d ∈ (c.trans.trans b).depends, (c.trans.trans d).id ≠ (c.trans.trans tp).id)))
  | .versionDispose vp => inferInstanceAs (Decidable ((c.trans.trans vp.creator).refcnt ≠ 1))
  | .transCreate | .blobCreate _ _ | .blobRef _ | .blobUnref _ | .keyCreate _ _ | .keyDispose _ =>
    instDecidableTrue

variable {c c' : Client} {call : Call} {calls : List Call}

/-- One more reference, which a transaction, a version or the client holds now. -/
private theorem TransCounted.gained (counted : TransCounted m (gain c.references tp))
    (h : ∀ a, c'.references a = c.references a + if tp = a then 1 else 0) :
    TransCounted m c'.references := by
  rw [eq_gain h]
  exact counted

/-- A reference of a client that is dropped. -/
private theorem counted_unref (counted : TransCounted m c.references) (may : 0 < c.holds tp)
    (hentries : m.entries = c.trans.entries)
    (leaf : (m.trans tp).refcnt = 1 → (m.trans tp).depends = []) (h : transUnref m tp = .ok m') :
    TransCounted m' { c with trans := m', holds := lose c.holds tp }.references := by
  have hless : ∀ a, c.references a =
      { c with trans := m', holds := lose c.holds tp : Client }.references a +
        if tp = a then 1 else 0 := by
    intro a
    simp only [references]
    rw [lose_add may a, entries_unref h leaf, hentries]
    omega
  rw [eq_lose hless]
  exact counted.unref (pos_of_eq_add hless) h

/-- What one call does to the counts. -/
theorem transCounted_step (step : c.Step call c') (safe : c.CountSafe call)
    (counted : TransCounted c.trans c.references) : TransCounted c'.trans c'.references := by
  obtain ⟨may, fuel, h⟩ := step
  cases effect_of_ok h with
  | transCreate =>
    refine counted.create.gained fun a => ?_
    simp only [references, gain_add, entries_create]
    omega
  | transRef free =>
    refine (counted.addReference may safe).gained fun a => ?_
    simp only [references, gain_add, entries_addReference]
    omega
  | transUnref unref => exact counted_unref counted may rfl safe unref
  | @transAddDependency tp dtp other =>
    have hknown := (counted.known tp may.1)
    have hlive := (counted.kept tp hknown.1 hknown.2).mpr may.1
    have hcounted : TransCounted (addDependency c.trans tp dtp) _ := counted.addDependency may.2 safe
    -- the reference is the one of the new entry of the dependency list
    refine hcounted.gained fun a => ?_
    simp only [references]
    rw [count_entries_addDependency hknown.2 hlive]
    omega
  | @transCommit tp m status committed =>
    cases committed with
    | aborted mem hd state => exact absurd hd (safe.2 _ mem)
    | committed all state =>
      refine counted_unref counted.setStatus may entries_setStatus ?_ state
      rw [trans_setStatus]
      exact safe.1
  | @transAbort tp m returns =>
    obtain ⟨hleaf, hnone⟩ := safe
    cases returns with
    | again free status unref => exact counted_unref counted may rfl hleaf unref
    | @cascade _ m₁ _ _ free status walk unref =>
      obtain ⟨nodes, hlinked, hnodes⟩ := counted.linked
      -- nobody depends on the transaction, so the walk leaves everything as it is
      have hwalk := walk.walk_eq (hlinked.congr (by simp) (by simp)) List.mem_cons_self (by
        rintro b hb hother ⟨d, hd, hid⟩
        simp only [trans_setStatus, trans_setMutex] at hother hd hid
        have hrefs := (hnodes b).mp hb
        obtain ⟨hpos, hlt⟩ := counted.known b hrefs
        exact hnone status b hlt ((counted.kept b hpos hlt).mpr hrefs) hother d
          (List.mem_of_mem_take hd) hid)
      rw [hwalk, unlock_setStatus free] at unref
      refine counted_unref counted.setStatus may entries_setStatus ?_ unref
      rw [trans_setStatus]
      exact hleaf
  | @versionCreate tp bp s holdsBlob =>
    refine (counted.addReference may.1 safe).gained fun a => ?_
    simp only [references, entries_addReference, List.countP_cons, decide_eq_true_eq]
    omega
  | @versionDispose vp s =>
    have hless : ∀ a, c.references a =
        { c with
          trans := c.trans.dropReference vp.creator
          versions := c.versions.erase vp
          blobs := s : Client }.references a + if vp.creator = a then 1 else 0 := by
      intro a
      have herase := countP_erase_add (fun vp => decide (vp.creator = a)) may
      simp only [decide_eq_true_eq] at herase
      simp only [references, entries_dropReference]
      omega
    have hpos := pos_of_eq_add hless
    have hmore : (c.trans.trans vp.creator).refcnt ≠ 1 := safe
    rw [counted.count _ hpos] at hmore
    rw [eq_lose hless]
    exact counted.dropReference (by omega)
  | onBlobs other => exact counted

theorem transCounted_initial :
    TransCounted Client.initial.trans Client.initial.references where
  known _ h := absurd h (Nat.lt_irrefl 0)
  kept _ hpos hlt := absurd hlt (Nat.not_lt.mpr hpos)
  count _ h := absurd h (Nat.lt_irrefl 0)
  bound _ := Nat.two_pow_pos 32
  fresh_pos := Nat.one_pos
  linked := ⟨[], linked_init, fun _ => ⟨fun h => absurd h List.not_mem_nil,
    fun h => absurd h (Nat.lt_irrefl 0)⟩⟩

/-- Every transaction counts its outstanding references, is in the list as long as there are any,
and is freed when none is left. -/
def Client.TransBalanced (c : Client) : Prop :=
  ∃ nodes, Linked c.trans nodes ∧ ∀ tp, 0 < tp → tp < c.trans.fresh →
    ((c.trans.trans tp).freed = false → (c.trans.trans tp).refcnt = c.references tp) ∧
      ((c.trans.trans tp).freed = true ↔ c.references tp = 0) ∧
      (tp ∉ nodes ↔ c.references tp = 0)

/-- In every run of such calls the counts are right in the state reached. -/
theorem references_balanced
    (run : Run (fun c call c' => c.Step call c' ∧ c.CountSafe call) Client.initial calls c) :
    c.TransBalanced := by
  have hcounted : TransCounted c.trans c.references :=
    run.invariant (I := fun c => TransCounted c.trans c.references)
      (fun _ _ _ counted hstep => transCounted_step hstep.1 hstep.2 counted) transCounted_initial
  obtain ⟨nodes, hlinked, hnodes⟩ := hcounted.linked
  refine ⟨nodes, hlinked, fun tp hpos hlt => ?_⟩
  have hkept := hcounted.kept tp hpos hlt
  refine ⟨fun hfreed => hcounted.count tp (hkept.mp hfreed), ?_, ?_⟩
  · rw [← Bool.not_eq_false, hkept]
    exact Nat.not_lt.trans Nat.le_zero
  · rw [hnodes]
    exact Nat.not_lt.trans Nat.le_zero

theorem references_balanced_example :
    ∃ c, Run (fun c call c' => c.Step call c' ∧ c.CountSafe call) Client.initial
      [.transCreate, .transCreate, .transAddDependency 2 1, .transRef 2, .transCommit 1,
        .transCommit 2, .versionCreate 2 none] c ∧ c.TransBalanced := by
  have hrun : ([.transCreate, .transCreate, .transAddDependency 2 1, .transRef 2, .transCommit 1,
      .transCommit 2, .versionCreate 2 none].foldlM
        (Client.next Client.CountSafe 3) Client.initial).isSome := by decide +kernel
  obtain ⟨c, hc⟩ := Option.isSome_iff_exists.mp hrun
  have hrun := Run.of_foldlM Client.step_of_next hc
  exact ⟨c, hrun, references_balanced hrun⟩

/-- The abort of a transaction drops the reference to another one that its client still holds. -/
theorem abort_frees_held :
    ∃ c, Run Client.Step Client.initial
      [.transCreate, .transCreate, .transAddDependency 2 1, .transAbort 1] c ∧
      c.holds 2 = 1 ∧ (c.trans.trans 2).freed = true ∧ ¬ c.TransBalanced := by
  have hrun : (([.transCreate, .transCreate, .transAddDependency 2 1, .transAbort 1].foldlM
      (Client.next (fun _ _ => True) 9) Client.initial).map
        fun c => (c.holds 2, (c.trans.trans 2).freed, c.trans.fresh)) = some (1, true, 3) := by
    decide +kernel
  obtain ⟨c, hrun, hobserved⟩ := Run.exists_of_foldlM
    (fun c call c' h => (Client.step_of_next c call c' h).1) hrun
  obtain ⟨hholds, hfreed⟩ := Prod.mk.inj hobserved
  obtain ⟨hfreed, hfresh⟩ := Prod.mk.inj hfreed
  refine ⟨c, hrun, hholds, hfreed, ?_⟩
  rintro ⟨nodes, -, hbalanced⟩
  have hrefs := (hbalanced 2 (by decide) (hfresh ▸ by decide)).2.1.mp hfreed
  rw [references] at hrefs
  omega

end CLanguage.Xacto
