import CLanguage.Lib.Locks
import CLanguage.Xacto.Graph
import CLanguage.Xacto.Threads

/-!
# Commits that others interrupt

A commit reads the statuses of its dependencies one at a time, while other threads
change them. It is right nevertheless because a committed transaction stays
committed: all its dependencies have committed, and dependencies are only added to
pending transactions. `GraphOk` is what holds of the memory in every state of every
run, `Frame.Ok` what a thread knows at its place in a call, and `Keeps` what a step
leaves alone of the transactions whose mutexes other calls hold.

## Main results

* `sound_step` — the invariant and its preservation
* `commits_sound` — commits, aborts and cascades in any interleaving
-/

namespace CLanguage.Xacto

open Manager Lib

variable {m m' : Manager} {tp a d : ℕ} {f : Frame}

/-! ### The memory -/

/-- Links and dependencies lead to transactions that exist, and a committed transaction has only
committed dependencies. -/
structure GraphOk (m : Manager) : Prop where
  fresh_pos : 0 < m.fresh
  next_known : ∀ a, (m.trans a).next < m.fresh
  depends_known : ∀ d tp, DependsOn m d tp → d < m.fresh
  committed : ∀ d tp, (m.trans tp).status = .committed → DependsOn m d tp →
    (m.trans d).status = .committed

/-- What a step leaves alone: the transactions that have committed stay committed, and those whose
mutex is held by another call than the own one stay as they are. -/
structure Keeps (m m' : Manager) (own : ℕ → Prop) : Prop where
  fresh : m.fresh ≤ m'.fresh
  committed : ∀ a < m.fresh, (m.trans a).status = .committed → (m'.trans a).status = .committed
  held : ∀ a < m.fresh, (m.trans a).mutex = true → ¬ own a →
    (m'.trans a).mutex = true ∧ (m'.trans a).status = (m.trans a).status ∧
      (m'.trans a).depends = (m.trans a).depends

/-- The status and the mutex of one transaction are written, and perhaps links. -/
structure Writes (m m' : Manager) (tp : ℕ) : Prop where
  fresh : m'.fresh = m.fresh
  links : (∀ a, (m.trans a).next < m.fresh) → ∀ a, (m'.trans a).next < m.fresh
  depends : ∀ a, (m'.trans a).depends = (m.trans a).depends
  other : ∀ a ≠ tp, (m'.trans a).status = (m.trans a).status ∧
    (m'.trans a).mutex = (m.trans a).mutex

/-- A committed transaction stays committed. -/
def Stays (m m' : Manager) (tp : ℕ) : Prop :=
  (m.trans tp).status = .committed → (m'.trans tp).status = .committed

theorem Writes.stays (writes : Writes m m' tp) (stays : Stays m m' tp) (a : ℕ) : Stays m m' a := by
  intro h
  by_cases ha : a = tp
  · subst ha
    exact stays h
  · exact (writes.other a ha).1.trans h

theorem Writes.keeps {own : ℕ → Prop} (writes : Writes m m' tp) (stays : Stays m m' tp)
    (mine : own tp ∨ (m.trans tp).mutex = false) : Keeps m m' own where
  fresh := Nat.le_of_eq writes.fresh.symm
  committed a _ := writes.stays stays a
  held a _ hmutex hown := by
    have hne : a ≠ tp := by
      rintro rfl
      rcases mine with hmine | hfree
      · exact hown hmine
      · exact absurd (hfree.symm.trans hmutex) nofun
    obtain ⟨hstatus, hsame⟩ := writes.other a hne
    exact ⟨hsame.trans hmutex, hstatus, writes.depends a⟩

theorem Writes.graph (writes : Writes m m' tp) (stays : Stays m m' tp) (graph : GraphOk m)
    (new : (m'.trans tp).status = .committed → (m.trans tp).status ≠ .committed →
      ∀ d, DependsOn m d tp → (m.trans d).status = .committed) : GraphOk m' := by
  have hdepends := dependsOn_congr writes.depends
  refine ⟨writes.fresh ▸ graph.fresh_pos, ?_, ?_, ?_⟩
  · rw [writes.fresh]
    exact writes.links graph.next_known
  · rw [writes.fresh, hdepends]
    exact graph.depends_known
  · rw [hdepends]
    intro d a hstatus hd
    refine writes.stays stays d ?_
    by_cases hold : (m.trans a).status = .committed
    · exact graph.committed d a hold hd
    · by_cases ha : a = tp
      · subst ha
        exact new hstatus hold d hd
      · exact absurd ((writes.other a ha).1.symm.trans hstatus) hold

theorem graphOk_init : GraphOk transInit where
  fresh_pos := Nat.one_pos
  next_known _ := Nat.one_pos
  depends_known _ _ h := absurd h List.not_mem_nil
  committed _ _ _ h := absurd h List.not_mem_nil

/-! ### The writes -/

theorem writes_setMutex {held : Bool} : Writes m (m.setMutex tp held) tp where
  fresh := rfl
  links h a := by
    rw [trans_setMutex]
    exact h a
  depends a := by rw [trans_setMutex]
  other a ha := by
    rw [trans_setMutex]
    exact ⟨rfl, if_neg ha⟩

theorem writes_setStatus {held : Bool} {status : TransStatus} :
    Writes m ((m.setStatus tp status).setMutex tp held) tp where
  fresh := rfl
  links h a := by
    rw [trans_setMutex, trans_setStatus]
    exact h a
  depends a := by rw [trans_setMutex, trans_setStatus]
  other a ha := by
    rw [trans_setMutex, trans_setStatus]
    exact ⟨if_neg ha, if_neg ha⟩

theorem writes_cascade {status : TransStatus} :
    Writes m ((m.setMutex tp true).setStatus tp status) tp where
  fresh := rfl
  links h a := by
    rw [trans_setStatus, trans_setMutex]
    exact h a
  depends a := by rw [trans_setStatus, trans_setMutex]
  other a ha := by
    rw [trans_setStatus, trans_setMutex]
    exact ⟨if_neg ha, if_neg ha⟩

/-- Counting references and unlinking write neither statuses nor mutexes. -/
theorem writes_addReference : Writes m (m.addReference tp) a where
  fresh := rfl
  links h b := by
    rw [addReference, trans_setRefcnt]
    exact h b
  depends b := by rw [addReference, trans_setRefcnt]
  other b _ := by
    rw [addReference, trans_setRefcnt]
    exact ⟨rfl, rfl⟩

theorem writes_unref (h : transUnref m tp = .ok m') : Writes m m' a := by
  have hsame := sameGraph_unref h
  obtain ⟨-, ⟨-, -, rfl⟩ | ⟨-, rfl⟩⟩ := transUnref_eq_ok.mp h
  · refine ⟨rfl, fun hnext b => ?_, hsame.depends, fun b _ => ?_⟩
    · rw [trans_remove]
      change (if b = (m.trans tp).prev then (m.trans tp).next else (m.trans b).next) < m.fresh
      split
      · exact hnext tp
      · exact hnext b
    · rw [trans_remove]
      exact ⟨rfl, rfl⟩
  · refine ⟨rfl, fun hnext b => ?_, hsame.depends, fun b _ => ?_⟩
    · rw [dropReference, trans_setRefcnt]
      exact hnext b
    · rw [dropReference, trans_setRefcnt]
      exact ⟨rfl, rfl⟩

theorem stays_unref (h : transUnref m tp = .ok m') (a : ℕ) : Stays m m' a :=
  fun hstatus => (status_unref h a).trans hstatus

/-- A transaction that is locked for a moment by a call without a loop. -/
theorem keeps_addDependency {dtp : ℕ} {own : ℕ → Prop} (free : (m.trans tp).mutex = false) :
    Keeps m (addDependency m tp dtp) own where
  fresh := Nat.le_refl _
  committed a _ h := by
    rw [trans_addDependency]
    exact h
  held a _ hmutex _ := by
    have hne : a ≠ tp := by
      rintro rfl
      exact absurd (free.symm.trans hmutex) nofun
    rw [trans_addDependency]
    exact ⟨hmutex, rfl, if_neg hne⟩

theorem graph_addDependency {dtp : ℕ} (graph : GraphOk m) (known : dtp < m.fresh)
    (pending : (m.trans tp).status = .pending) : GraphOk (addDependency m tp dtp) := by
  have hedge : ∀ d a, DependsOn (addDependency m tp dtp) d a → DependsOn m d a ∨
      (a = tp ∧ d = dtp) := by
    intro d a h
    rw [DependsOn, trans_addDependency] at h
    by_cases ha : a = tp
    · rw [if_pos ha, List.mem_cons] at h
      exact h.symm.imp_right fun hd => ⟨ha, hd⟩
    · rw [if_neg ha] at h
      exact .inl h
  refine ⟨graph.fresh_pos, fun a => ?_, fun d a h => ?_, fun d a hstatus h => ?_⟩
  · rw [trans_addDependency]
    exact graph.next_known a
  · rcases hedge d a h with hold | ⟨-, rfl⟩
    · exact graph.depends_known d a hold
    · exact known
  · rw [trans_addDependency] at hstatus ⊢
    rcases hedge d a h with hold | ⟨rfl, -⟩
    · exact graph.committed d a hstatus hold
    · cases pending.symm.trans hstatus

theorem keeps_create {own : ℕ → Prop} : Keeps m (transCreate m).1 own where
  fresh := Nat.le_succ _
  committed a ha h := by
    simp only [trans_transCreate, if_neg (Nat.ne_of_lt ha)]
    exact h
  held a ha hmutex _ := by
    simp only [trans_transCreate, if_neg (Nat.ne_of_lt ha)]
    exact ⟨hmutex, trivial, trivial⟩

theorem graph_create (graph : GraphOk m) : GraphOk (transCreate m).1 := by
  have hfresh : (transCreate m).1.fresh = m.fresh + 1 := rfl
  have hedge : ∀ d a, DependsOn (transCreate m).1 d a → a ≠ m.fresh ∧ DependsOn m d a := by
    intro d a h
    rw [DependsOn] at h
    simp only [trans_transCreate] at h
    split at h
    · exact absurd h List.not_mem_nil
    · next hne => exact ⟨hne, h⟩
  refine ⟨Nat.succ_pos _, fun a => ?_, fun d a h => ?_, fun d a hstatus h => ?_⟩
  · have hnext := graph.next_known a
    simp only [trans_transCreate, hfresh]
    split
    · exact Nat.lt_succ_self _
    · split
      · exact Nat.succ_pos _
      · exact Nat.lt_succ_of_lt hnext
  · exact Nat.lt_succ_of_lt (graph.depends_known d a (hedge d a h).2)
  · obtain ⟨hne, hold⟩ := hedge d a h
    have hd := Nat.ne_of_lt (graph.depends_known d a hold)
    simp only [trans_transCreate, if_neg hne, if_neg hd] at hstatus ⊢
    exact graph.committed d a hstatus hold

/-! ### The threads -/

/-- The transaction whose mutex the call holds. -/
def Frame.holds : Frame → Option ℕ
  | .poll tp _ _ | .commit tp | .giveUp tp _ | .walk tp _ | .advance tp _ => some tp
  | .abort _ | .unref _ => none

/-- The mutexes that a thread holds. -/
def held (frames : List Frame) : List ℕ := frames.filterMap Frame.holds

/-- What a call knows. -/
def Frame.Ok (m : Manager) : Frame → Prop
  | .poll tp d flag => Polled m tp d flag
  | .commit tp => ∀ d, DependsOn m d tp → (m.trans d).status = .committed
  | .giveUp tp d => DependsOn m d tp ∧ (m.trans tp).status ≠ .committed
  | .walk tp _ | .advance tp _ => (m.trans tp).status = .aborted
  | .abort _ | .unref _ => True

/-- A call that waits for another one to return. -/
def Frame.Suspended : Frame → Prop
  | .advance _ _ => True
  | _ => False

/-- What holds in every state of every run. -/
structure Sound (s : Machine) : Prop where
  graph : GraphOk s.trans
  known : ∀ t, ∀ f ∈ s.threads t, f.tp < s.trans.fresh
  exclusive : Exclusive (fun t => held (s.threads t)) fun a => (s.trans.trans a).mutex = true
  frames : ∀ t, ∀ f ∈ s.threads t, f.Ok s.trans
  suspended : ∀ t, ∀ f ∈ (s.threads t).tail, f.Suspended

theorem mem_held {frames : List Frame} : a ∈ held frames ↔ ∃ f ∈ frames, f.holds = some a :=
  List.mem_filterMap

theorem Frame.tp_of_holds (h : f.holds = some a) : f.tp = a := by
  cases f <;> first | exact Option.some.inj h | exact absurd h nofun

/-- What a call knows stays true under the steps of the others. -/
theorem Frame.Ok.keep {own : ℕ → Prop} (ok : f.Ok m) (keeps : Keeps m m' own) (graph : GraphOk m)
    (known : f.tp < m.fresh)
    (locked : ∀ a, f.holds = some a → (m.trans a).mutex = true ∧ ¬ own a) : f.Ok m' := by
  -- the mutex that the call holds keeps the others away from status and dependencies
  have hsame : ∀ a, f.holds = some a →
      (m'.trans a).status = (m.trans a).status ∧ (m'.trans a).depends = (m.trans a).depends :=
    fun a ha => (keeps.held a (f.tp_of_holds ha ▸ known) (locked a ha).1 (locked a ha).2).2
  have hstays : ∀ d tp, DependsOn m d tp → Stays m m' d :=
    fun d tp hd => keeps.committed d (graph.depends_known d tp hd)
  cases f with
  | poll tp d flag =>
    obtain ⟨hne, seen, hdepends, hseen⟩ := ok
    refine ⟨hne, seen, (hsame tp rfl).2.trans hdepends, fun hflag x hx => ?_⟩
    refine hstays x tp ?_ (hseen hflag x hx)
    rw [DependsOn, hdepends]
    exact List.mem_append_left d hx
  | commit tp =>
    intro d hd
    rw [DependsOn, (hsame tp rfl).2] at hd
    exact hstays d tp hd (ok d hd)
  | giveUp tp d =>
    obtain ⟨hstatus, hdepends⟩ := hsame tp rfl
    refine ⟨?_, hstatus ▸ ok.2⟩
    rw [DependsOn, hdepends]
    exact ok.1
  | walk tp a => exact (hsame tp rfl).1.trans ok
  | advance tp a => exact (hsame tp rfl).1.trans ok
  | abort tp => trivial
  | unref tp => trivial

/-! ### Steps -/

variable {s s' : Machine} {t : ℕ} {frames : List Frame} {own : ℕ → Prop}

theorem held_append {fs gs : List Frame} : held (fs ++ gs) = held fs ++ held gs :=
  List.filterMap_append

/-- A step of a thread: the calls `old` are replaced by `new`, above the calls that wait for them. -/
theorem Sound.goto (sound : Sound s) (old new : List Frame) (stack : s.threads t = old ++ frames)
    (active : old = [] → frames = []) (graph : GraphOk m')
    (keeps : Keeps s.trans m' fun a => a ∈ held old) (known : ∀ f ∈ new, f.tp < m'.fresh)
    (ok : ∀ f ∈ new, f.Ok m') (suspended : ∀ f ∈ new.tail, f.Suspended)
    (taken : ∀ a ∈ held new, (a ∈ held old ∨ (s.trans.trans a).mutex = false) ∧
      (m'.trans a).mutex = true) (nodup : (held new).Nodup) :
    Sound (s.goto m' t (new ++ frames)) := by
  have hthreads : ∀ u ≠ t, (s.goto m' t (new ++ frames)).threads u = s.threads u :=
    fun u hu => Function.update_of_ne hu ..
  have hframes : ∀ f ∈ frames, f ∈ s.threads t := fun f hf => stack ▸ List.mem_append_right old hf
  have hold : (held old ++ held frames).Nodup := by
    rw [← held_append, ← stack]
    exact sound.exclusive.nodup t
  have hlocked : ∀ u, ∀ f ∈ s.threads u, ∀ a, f.holds = some a →
      (s.trans.trans a).mutex = true := fun u f hf a ha =>
    sound.exclusive.locked u a (mem_held.mpr ⟨f, hf, ha⟩)
  have hwaits : ∀ a ∈ held frames, a ∉ held old := fun a ha hmem =>
    (List.nodup_append.mp hold).2.2 a hmem a ha rfl
  have hothers : ∀ u ≠ t, ∀ a ∈ held (s.threads u), a ∉ held old := by
    intro u hu a ha hmem
    refine sound.exclusive.apart u t hu a ha ?_
    rw [stack, held_append]
    exact List.mem_append_left _ hmem
  -- a call that was not replaced holds what it held, and it stays as it was
  have hkept : ∀ u, ∀ f ∈ s.threads u, (∀ a, f.holds = some a → a ∉ held old) → ∀ a,
      f.holds = some a → (m'.trans a).mutex = true := fun u f hf hout a ha =>
    (keeps.held a (f.tp_of_holds ha ▸ sound.known u f hf) (hlocked u f hf a ha) (hout a ha)).1
  have hwait : ∀ f ∈ frames, ∀ a, f.holds = some a → a ∉ held old :=
    fun f hf a ha => hwaits a (mem_held.mpr ⟨f, hf, ha⟩)
  have hother : ∀ u ≠ t, ∀ f ∈ s.threads u, ∀ a, f.holds = some a → a ∉ held old :=
    fun u hu f hf a ha => hothers u hu a (mem_held.mpr ⟨f, hf, ha⟩)
  refine ⟨graph, fun u f hf => ?_, ?_, fun u f hf => ?_, fun u f hf => ?_⟩
  · by_cases hu : u = t
    · subst hu
      rw [Machine.goto_threads, List.mem_append] at hf
      rcases hf with hf | hf
      · exact known f hf
      · exact Nat.lt_of_lt_of_le (sound.known u f (hframes f hf)) keeps.fresh
    · rw [hthreads u hu] at hf
      exact Nat.lt_of_lt_of_le (sound.known u f hf) keeps.fresh
  · have hheld : (fun u => held ((s.goto m' t (new ++ frames)).threads u)) =
        Function.update (fun u => held (s.threads u)) t (held (new ++ frames)) :=
      Function.comp_update ..
    rw [hheld, held_append]
    have hstack : held (s.threads t) = held old ++ held frames := by rw [stack, held_append]
    refine sound.exclusive.update (fun a ha => ?_) ?_ (fun a ha => ?_) fun u hu a ha => ?_
    · rw [hstack, List.mem_append]
      rcases List.mem_append.mp ha with hnew | hwaiting
      · rcases (taken a hnew).1 with hmine | hfree
        · exact .inl (.inl hmine)
        · exact .inr (hfree ▸ Bool.false_ne_true)
      · exact .inl (.inr hwaiting)
    · refine List.nodup_append.mpr ⟨nodup, (List.nodup_append.mp hold).2.1, fun a hnew b hb => ?_⟩
      rintro rfl
      obtain ⟨f, hf, ha⟩ := mem_held.mp hb
      rcases (taken a hnew).1 with hmine | hfree
      · exact hwaits a hb hmine
      · exact absurd (hfree.symm.trans (hlocked t f (hframes f hf) a ha)) nofun
    · rcases List.mem_append.mp ha with hnew | hwaiting
      · exact (taken a hnew).2
      · obtain ⟨f, hf, ha⟩ := mem_held.mp hwaiting
        exact hkept t f (hframes f hf) (hwait f hf) a ha
    · obtain ⟨f, hf, ha⟩ := mem_held.mp ha
      exact hkept u f hf (hother u hu f hf) a ha
  · by_cases hu : u = t
    · subst hu
      rw [Machine.goto_threads, List.mem_append] at hf
      rcases hf with hf | hf
      · exact ok f hf
      · have hmem := hframes f hf
        exact (sound.frames u f hmem).keep keeps sound.graph (sound.known u f hmem)
          fun a ha => ⟨hlocked u f hmem a ha, hwait f hf a ha⟩
    · rw [hthreads u hu] at hf
      exact (sound.frames u f hf).keep keeps sound.graph (sound.known u f hf)
        fun a ha => ⟨hlocked u f hf a ha, hother u hu f hf a ha⟩
  · by_cases hu : u = t
    · subst hu
      rw [Machine.goto_threads] at hf
      have hbelow : ∀ g ∈ frames, g.Suspended := by
        intro g hg
        refine sound.suspended u g ?_
        rw [stack]
        cases old with
        | nil => simp [active rfl] at hg
        | cons o old => exact List.mem_append_right old hg
      cases new with
      | nil => exact hbelow f (List.mem_of_mem_tail hf)
      | cons n new =>
        rcases List.mem_append.mp hf with hf | hf
        · exact suspended f hf
        · exact hbelow f hf
    · rw [hthreads u hu] at hf
      exact sound.suspended u f hf

/-- A call without a loop, or the start of one that holds no mutex yet. -/
theorem Sound.call (sound : Sound s) (idle : s.threads t = []) (graph : GraphOk m')
    (keeps : ∀ own, Keeps s.trans m' own) (new : List Frame) (known : ∀ f ∈ new, f.tp < m'.fresh)
    (ok : ∀ f ∈ new, f.Ok m') (single : new.tail = [])
    (taken : ∀ a ∈ held new, (s.trans.trans a).mutex = false ∧ (m'.trans a).mutex = true) :
    Sound (s.goto m' t new) := by
  have hstack : s.threads t = [] ++ [] := idle
  have hgoto := sound.goto [] new hstack (fun _ => rfl) graph (keeps _) known ok
    (by simp [single]) (fun a ha => ⟨.inr (taken a ha).1, (taken a ha).2⟩) ?_
  · rwa [List.append_nil] at hgoto
  · cases new with
    | nil => exact List.nodup_nil
    | cons f new =>
      obtain rfl : new = [] := single
      cases hf : f.holds with
      | none => simp [held, hf]
      | some a => simp [held, hf]

theorem sound_initial : Sound Machine.initial where
  graph := graphOk_init
  known _ _ h := absurd h List.not_mem_nil
  exclusive := exclusive_nil
  frames _ _ h := absurd h List.not_mem_nil
  suspended _ _ h := absurd h List.not_mem_nil

/-- A step inside a call: its frame is replaced by at most one that keeps the mutex. -/
theorem Sound.inside (sound : Sound s) {f g : Frame} (stack : s.threads t = f :: frames)
    (graph : GraphOk m') (keeps : Keeps s.trans m' fun a => a ∈ held [f])
    (known : g.tp < m'.fresh) (ok : g.Ok m')
    (taken : ∀ a, g.holds = some a → (f.holds = some a ∨ (s.trans.trans a).mutex = false) ∧
      (m'.trans a).mutex = true) : Sound (s.goto m' t (g :: frames)) := by
  refine sound.goto [f] [g] stack nofun graph keeps (fun h hh => ?_) (fun h hh => ?_) nofun
    (fun a ha => ?_) ?_
  · exact List.mem_singleton.mp hh ▸ known
  · exact List.mem_singleton.mp hh ▸ ok
  · obtain ⟨h, hh, ha⟩ := mem_held.mp ha
    obtain ⟨hmine, hlocked⟩ := taken a (List.mem_singleton.mp hh ▸ ha)
    exact ⟨hmine.imp_left fun h => mem_held.mpr ⟨f, List.mem_singleton_self f, h⟩, hlocked⟩
  · cases hg : g.holds with
    | none => simp [held, hg]
    | some a => simp [held, hg]

theorem Keeps.refl (m : Manager) (own : ℕ → Prop) : Keeps m m own :=
  ⟨Nat.le_refl _, fun _ _ h => h, fun _ _ h _ => ⟨h, rfl, rfl⟩⟩

/-- A call that returns at once. -/
theorem Sound.done (sound : Sound s) (idle : s.threads t = []) (graph : GraphOk m')
    (keeps : ∀ own, Keeps s.trans m' own) : Sound (s.goto m' t []) :=
  sound.call idle graph keeps [] (List.forall_mem_nil _) (List.forall_mem_nil _) rfl
    fun _ ha => absurd ha List.not_mem_nil

/-- The top call of a thread returns. -/
theorem Sound.leave (sound : Sound s) (stack : s.threads t = f :: frames) (graph : GraphOk m')
    (keeps : Keeps s.trans m' fun a => a ∈ held [f]) : Sound (s.goto m' t frames) :=
  sound.goto [f] [] stack (fun h => absurd h (List.cons_ne_nil f [])) graph keeps
    (List.forall_mem_nil _) (List.forall_mem_nil _) (List.forall_mem_nil _)
    (fun _ ha => absurd ha List.not_mem_nil) List.nodup_nil

/-- A step inside a call that holds no mutex after it. -/
theorem Sound.released (sound : Sound s) {f g : Frame} (stack : s.threads t = f :: frames)
    (graph : GraphOk m') (keeps : Keeps s.trans m' fun a => a ∈ held [f])
    (known : g.tp < m'.fresh) (ok : g.Ok m') (free : g.holds = none) :
    Sound (s.goto m' t (g :: frames)) :=
  sound.inside stack graph keeps known ok fun a ha =>
    absurd (ha.symm.trans free) (Option.some_ne_none a)

/-- What the top call of a thread knows and holds. -/
theorem Sound.top (sound : Sound s) (stack : s.threads t = f :: frames) :
    f.Ok s.trans ∧ f.tp < s.trans.fresh ∧
      ∀ a, f.holds = some a → (s.trans.trans a).mutex = true := by
  have hmem : f ∈ s.threads t := stack ▸ List.mem_cons_self
  exact ⟨sound.frames t f hmem, sound.known t f hmem,
    fun a ha => sound.exclusive.locked t a (mem_held.mpr ⟨f, hmem, ha⟩)⟩

theorem mem_held_singleton (h : f.holds = some a) : a ∈ held [f] :=
  mem_held.mpr ⟨f, List.mem_singleton_self f, h⟩

/-- A round of the loop of a commit. -/
theorem frame_ok_poll (graph : GraphOk m) {rest : List ℕ} {flag : Bool}
    (polled : Polled m tp (d :: rest) flag) :
    ((pollDependency m tp d rest flag).frame tp d).Ok m := by
  cases hpoll : pollDependency m tp d rest flag with
  | aborted =>
    have hstatus := status_of_poll_aborted hpoll
    refine ⟨polled.mem, fun hcommitted => ?_⟩
    exact absurd (hstatus.symm.trans (graph.committed d tp hcommitted polled.mem)) nofun
  | committed => exact polled.committed hpoll
  | next d' flag' => exact polled.next hpoll

theorem holds_poll_frame (poll : Poll) : (poll.frame tp d).holds = some tp := by
  cases poll <;> rfl

theorem tp_poll_frame (poll : Poll) : (poll.frame tp d).tp = tp := by
  cases poll <;> rfl

theorem frame_ok_start : (startCommit m tp).Ok m := by
  rw [startCommit]
  split
  · next hnil =>
    intro d hd
    rw [DependsOn, hnil] at hd
    exact absurd hd List.not_mem_nil
  · next d rest hdepends =>
    rw [← hdepends]
    exact polled_start (hdepends ▸ List.cons_ne_nil d rest)

theorem holds_startCommit : (startCommit m tp).holds = some tp := by
  rw [startCommit]
  split <;> rfl

theorem sound_step {label : ℕ × Action} (step : Machine.Step s label s') (sound : Sound s) :
    Sound s' := by
  cases step with
  | create idle =>
    exact sound.done idle (graph_create sound.graph) fun _ => keeps_create
  | @ref t tp m idle known call =>
    obtain ⟨hfree, rfl⟩ := transRef_eq_ok.mp call
    have hwrites : Writes s.trans (s.trans.addReference tp) tp := writes_addReference
    have hstays : Stays s.trans (s.trans.addReference tp) tp := fun h => by
      rw [addReference, trans_setRefcnt]
      exact h
    refine sound.done idle (hwrites.graph hstays sound.graph fun h hne => ?_)
      fun _ => hwrites.keeps hstays (.inr hfree)
    rw [addReference, trans_setRefcnt] at h
    exact absurd h hne
  | @unref t tp m idle known call =>
    have hfree := (transUnref_eq_ok.mp call).1
    have hwrites : Writes s.trans m tp := writes_unref call
    have hstays := stays_unref call tp
    refine sound.done idle (hwrites.graph hstays sound.graph fun h hne => ?_)
      fun _ => hwrites.keeps hstays (.inr hfree)
    exact absurd ((status_unref call tp).symm.trans h) hne
  | @addDependency t tp dtp m idle known known' pending call =>
    obtain ⟨hfree, -, -, rfl⟩ := transAddDependency_eq_ok.mp call
    exact sound.done idle (graph_addDependency sound.graph known' pending)
      fun _ => keeps_addDependency hfree
  | @callCommit t tp m idle known lock =>
    obtain ⟨hfree, rfl⟩ := lock_eq_ok.mp lock
    have hstays : Stays s.trans (s.trans.setMutex tp true) tp := fun h => by
      rw [trans_setMutex]
      exact h
    have hgraph : GraphOk (s.trans.setMutex tp true) :=
      writes_setMutex.graph hstays sound.graph fun h hne => by
        rw [trans_setMutex] at h
        exact absurd h hne
    have hholds : (startCommit (s.trans.setMutex tp true) tp).holds = some tp := holds_startCommit
    refine sound.call idle hgraph (fun _ => writes_setMutex.keeps hstays (.inr hfree)) [_]
      (fun f hf => ?_) (fun f hf => List.mem_singleton.mp hf ▸ frame_ok_start) rfl fun a ha => ?_
    · rw [List.mem_singleton.mp hf, Frame.tp_of_holds hholds]
      exact known
    · obtain ⟨f, hf, ha⟩ := mem_held.mp ha
      rw [List.mem_singleton.mp hf, hholds] at ha
      obtain rfl := Option.some.inj ha
      rw [trans_setMutex]
      exact ⟨hfree, if_pos rfl⟩
  | @read t tp d rest flag frames stack =>
    obtain ⟨hok, hknown, hlocked⟩ := sound.top stack
    refine sound.inside stack sound.graph (.refl _ _) ?_ (frame_ok_poll sound.graph hok) ?_
    · rw [tp_poll_frame]
      exact hknown
    · intro a ha
      rw [holds_poll_frame] at ha
      exact ⟨.inl ha, hlocked a ha⟩
  -- a list of dependencies that is polled is not empty
  | @endLoop t tp flag frames stack =>
    obtain ⟨hok, -⟩ := sound.top stack
    exact absurd rfl hok.1
  | @setCommitted t tp frames stack =>
    obtain ⟨hok, hknown, -⟩ := sound.top stack
    have hstatus : (((s.trans.setStatus tp .committed).unlock tp).trans tp).status = .committed := by
      rw [trans_unlock, trans_setStatus]
      exact if_pos rfl
    have hstays : Stays s.trans ((s.trans.setStatus tp .committed).unlock tp) tp := fun _ => hstatus
    exact sound.released stack (writes_setStatus.graph hstays sound.graph fun _ _ => hok)
      (writes_setStatus.keeps hstays (.inl (mem_held_singleton rfl))) hknown trivial rfl
  | @returnAborted t tp d frames stack =>
    obtain ⟨hok, hknown, -⟩ := sound.top stack
    -- `tp` is not committed when the commit gives up
    have hstays : Stays s.trans ((s.trans.setStatus tp .aborted).unlock tp) tp := fun h =>
      absurd h hok.2
    refine sound.leave stack (writes_setStatus.graph hstays sound.graph fun h _ => ?_)
      (writes_setStatus.keeps hstays (.inl (mem_held_singleton rfl)))
    rw [trans_setMutex, trans_setStatus] at h
    exact absurd (h.symm.trans (if_pos rfl)) (by decide)
  | @callAbort t tp idle known =>
    exact sound.call idle sound.graph (fun _ => .refl _ _) [.abort tp]
      (fun f hf => List.mem_singleton.mp hf ▸ known) (fun f hf => List.mem_singleton.mp hf ▸ trivial)
      rfl fun _ ha => absurd ha List.not_mem_nil
  | @again t tp frames stack free status =>
    obtain ⟨-, hknown, -⟩ := sound.top stack
    exact sound.released stack sound.graph (.refl _ _) hknown trivial rfl
  | @cascade t tp frames stack free status =>
    obtain ⟨-, hknown, -⟩ := sound.top stack
    have hstatus : (((s.trans.setMutex tp true).setStatus tp .aborted).trans tp).status =
        .aborted := by
      rw [trans_setStatus]
      exact if_pos rfl
    -- only a pending transaction is aborted
    have hstays : Stays s.trans ((s.trans.setMutex tp true).setStatus tp .aborted) tp := fun h =>
      absurd (status.symm.trans h) (by decide)
    refine sound.inside stack (writes_cascade.graph hstays sound.graph fun h _ => ?_)
      (writes_cascade.keeps hstays (.inr free)) hknown hstatus fun a ha => ?_
    · exact absurd (hstatus.symm.trans h) (by decide)
    · obtain rfl := Option.some.inj ha
      rw [trans_setStatus, trans_setMutex]
      exact ⟨.inr free, if_pos rfl⟩
  | @walkEnd t tp a frames stack last =>
    obtain ⟨-, hknown, -⟩ := sound.top stack
    have hstatus : ((s.trans.unlock tp).trans tp).status = (s.trans.trans tp).status := by
      rw [trans_unlock]
    have hstays : Stays s.trans (s.trans.unlock tp) tp := fun h => hstatus.trans h
    refine sound.released stack (writes_setMutex.graph hstays sound.graph fun h hne => ?_)
      (writes_setMutex.keeps hstays (.inl (mem_held_singleton rfl))) hknown trivial rfl
    exact absurd (hstatus.symm.trans h) hne
  | @pass t tp a frames stack node passes =>
    obtain ⟨hok, hknown, hlocked⟩ := sound.top stack
    exact sound.inside stack sound.graph (.refl _ _) hknown hok fun a ha => ⟨.inl ha, hlocked a ha⟩
  | @dependent t tp a frames stack node other finds =>
    obtain ⟨hok, hknown, hlocked⟩ := sound.top stack
    refine sound.goto [_] [.abort (s.trans.trans a).next, .advance tp a] stack
      (fun h => absurd h (List.cons_ne_nil _ _)) sound.graph (.refl _ _) (fun f hf => ?_) (fun f hf => ?_) (fun f hf => ?_) (fun b hb => ?_) ?_
    · rcases List.mem_pair.mp hf with rfl | rfl
      · exact sound.graph.next_known a
      · exact hknown
    · rcases List.mem_pair.mp hf with rfl | rfl
      · trivial
      · exact hok
    · rw [List.mem_singleton.mp hf]
      trivial
    · obtain rfl : b = tp := List.mem_singleton.mp hb
      exact ⟨.inl (mem_held_singleton rfl), hlocked b rfl⟩
    · exact List.nodup_singleton tp
  | @advance t tp a frames stack =>
    obtain ⟨hok, hknown, hlocked⟩ := sound.top stack
    exact sound.inside stack sound.graph (.refl _ _) hknown hok fun a ha => ⟨.inl ha, hlocked a ha⟩
  | @dropReference t tp m frames stack call =>
    have hfree := (transUnref_eq_ok.mp call).1
    have hwrites : Writes s.trans m tp := writes_unref call
    have hstays := stays_unref call tp
    refine sound.leave stack (hwrites.graph hstays sound.graph fun h hne => ?_)
      (hwrites.keeps hstays (.inr hfree))
    exact absurd ((status_unref call tp).symm.trans h) hne

/-! ### Runs -/

variable {u : ℕ} {action : Action} {labels : List (ℕ × Action)}

theorem threads_of_ne (step : Machine.Step s (t, action) s') (hne : u ≠ t) :
    s'.threads u = s.threads u := by
  cases step <;> exact Function.update_of_ne hne ..

/-- A commit is about to give up exactly after it has read an aborted dependency. -/
theorem read_of_giveUp (sound : Sound s) (step : Machine.Step s (t, action) s')
    (stack : s'.threads t = .giveUp tp d :: frames) : action = .read tp d .aborted := by
  -- a call below the top of a stack is not about to give up
  have hreturn : ∀ {f : Frame} {frames' : List Frame}, s.threads t = f :: frames' →
      frames' ≠ .giveUp tp d :: frames := by
    rintro f _ hold rfl
    exact sound.suspended t (.giveUp tp d) (hold ▸ List.mem_cons_self)
  cases step with
  | @callCommit t tp' m idle known lock =>
    rw [Machine.goto_threads] at stack
    have hhead := (List.cons.inj stack).1
    rw [startCommit] at hhead
    split at hhead <;> cases hhead
  | @read t tp' d' rest flag frames' hold =>
    rw [Machine.goto_threads] at stack
    have hhead := (List.cons.inj stack).1
    cases hpoll : pollDependency s.trans tp' d' rest flag with
    | aborted =>
      rw [hpoll] at hhead
      obtain ⟨rfl, rfl⟩ := Frame.giveUp.inj hhead
      rw [status_of_poll_aborted hpoll]
    | committed =>
      rw [hpoll] at hhead
      cases hhead
    | next d'' flag' =>
      rw [hpoll] at hhead
      cases hhead
  | @returnAborted t tp' d' frames' hold =>
    rw [Machine.goto_threads] at stack
    exact absurd stack (hreturn hold)
  | @dropReference t tp' m frames' hold call =>
    rw [Machine.goto_threads] at stack
    exact absurd stack (hreturn hold)
  | _ =>
    rw [Machine.goto_threads] at stack
    cases stack

/-- The last step of every thread that is about to give up was reading an aborted dependency. -/
def LastRead (labels : List (ℕ × Action)) (s : Machine) : Prop :=
  ∀ t tp d frames, s.threads t = .giveUp tp d :: frames →
    (labels.filter fun label => label.1 = t).getLast? = some (t, .read tp d .aborted)

theorem sound_run (run : Run Machine.Step Machine.initial labels s) :
    Sound s ∧ LastRead labels s := by
  have hrun : Sound s ∧ LastRead ([] ++ labels) s :=
    run.invariant_labels (I := fun labels s => Sound s ∧ LastRead labels s) ?_
      ⟨sound_initial, fun _ _ _ _ h => absurd h nofun⟩
  · rwa [List.nil_append] at hrun
  · rintro labels s ⟨u, action⟩ s' ⟨sound, last⟩ step
    refine ⟨sound_step step sound, fun t tp d frames stack => ?_⟩
    rw [List.filter_append]
    by_cases ht : t = u
    · subst ht
      rw [read_of_giveUp sound step stack]
      simp
    · rw [threads_of_ne step ht] at stack
      have hskip : [(u, action)].filter (fun label => label.1 = t) = [] := by simp [Ne.symm ht]
      rw [hskip, List.append_nil]
      exact last t tp d frames stack

/-- In every run of any number of threads: a committed transaction has only committed dependencies;
a commit that writes `TRANS_COMMITTED` finds them all committed at that moment; one that returns
`TRANS_ABORTED` has just read the status of a dependency, and it was aborted; and where the cascade
of an abort has got to a dependent, that dependent has not committed. -/
theorem commits_sound (run : Run Machine.Step Machine.initial labels s) :
    (∀ d tp, (s.trans.trans tp).status = .committed → DependsOn s.trans d tp →
      (s.trans.trans d).status = .committed) ∧
    (∀ t tp s', Machine.Step s (t, .setCommitted tp) s' → ∀ d, DependsOn s.trans d tp →
      (s.trans.trans d).status = .committed) ∧
    (∀ t tp s', Machine.Step s (t, .returnAborted tp) s' → ∃ d, DependsOn s.trans d tp ∧
      (labels.filter fun label => label.1 = t).getLast? = some (t, .read tp d .aborted)) ∧
    (∀ t b tp a frames, s.threads t = .abort b :: .advance tp a :: frames →
      DependsOn s.trans tp b → (s.trans.trans b).status ≠ .committed) := by
  obtain ⟨sound, last⟩ := sound_run run
  refine ⟨sound.graph.committed, fun t tp s' step => ?_, fun t tp s' step => ?_,
    fun t b tp a frames stack hb hcommitted => ?_⟩
  · cases step with
    | setCommitted stack => exact (sound.top stack).1
  · cases step with
    | @returnAborted _ _ d frames stack =>
      exact ⟨d, (sound.top stack).1.1, last t tp d frames stack⟩
  · have hmem : Frame.advance tp a ∈ s.threads t := stack ▸ by simp
    have haborted : (s.trans.trans tp).status = .aborted := sound.frames t _ hmem
    exact absurd (haborted.symm.trans (sound.graph.committed tp b hcommitted hb)) nofun

/-- The commit of 2 reads the status of 1 before and after 1 commits in another thread. -/
theorem commits_sound_example : ∃ labels s s', Run Machine.Step Machine.initial labels s ∧
    Machine.Step s (0, .setCommitted 2) s' ∧ DependsOn s.trans 1 2 ∧
      (s.trans.trans 1).status = .committed := by
  have hrun : ∃ labels s, Run Machine.Step Machine.initial labels s ∧
      s.threads 0 = [.commit 2] ∧ DependsOn s.trans 1 2 := by
    refine ⟨_, _, .cons (@Machine.Step.create _ 0 rfl) <| .cons (@Machine.Step.create _ 0 rfl) <|
      .cons (@Machine.Step.addDependency _ 0 2 1 _ rfl (by decide) (by decide) (by decide)
        (transAddDependency_eq rfl rfl (by decide))) <|
      .cons (@Machine.Step.callCommit _ 0 2 _ rfl (by decide) rfl) <|
      .cons (@Machine.Step.read _ 0 2 1 [] false [] rfl) <|
      .cons (@Machine.Step.callCommit _ 1 1 _ rfl (by decide) rfl) <|
      .cons (@Machine.Step.setCommitted _ 1 1 [] rfl) <|
      .cons (@Machine.Step.read _ 0 2 1 [] false [] rfl) <| .nil _, ?_, ?_⟩
    · rfl
    · decide
  obtain ⟨labels, s, hrun, hstack, hdepends⟩ := hrun
  have hstep : Machine.Step s (0, .setCommitted 2) _ := .setCommitted hstack
  exact ⟨labels, s, _, hrun, hstep, hdepends,
    (commits_sound hrun).2.1 0 2 _ hstep 1 hdepends⟩

end CLanguage.Xacto
