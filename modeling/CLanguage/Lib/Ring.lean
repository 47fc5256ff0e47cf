import Mathlib.Data.List.Chain
import Mathlib.Data.List.Nodup
import Mathlib.Data.List.Perm.Basic

/-!
# Circular doubly linked lists

A ring is a dummy head `h` and its members `xs`: following `next` from `h`
visits `xs` in order and comes back to `h`, and `prev` of each member is its
predecessor. The head's own `prev` is left open in `Ring`, since some programs
keep it and others let it go stale; `ClosedRing` fixes it to the last member.

The links are arbitrary functions. Updates are described by the values that the
new links take, so that the lemmas apply to any memory.

## Main results

* `Ring.insert`, `ClosedRing.insert` — linking a new member in
* `Ring.remove`, `ClosedRing.remove` — unlinking a member
* `Ring.congr`, `ClosedRing.congr` — a ring depends on its own links only
* `Ring.walk_eq` — following `next` from the head visits the members
-/

namespace CLanguage.Lib

variable {α : Type*} {next prev next' prev' : α → α} {h x : α} {xs pre post : List α}

/-- The ring of head `h` and members `xs`, up to the head's own `prev`. -/
structure Ring (next prev : α → α) (h : α) (xs : List α) : Prop where
  fwd : (h :: xs ++ [h]).IsChain fun a b => next a = b
  bwd : (h :: xs).IsChain fun a b => prev b = a
  nodup : (h :: xs).Nodup

/-- A ring whose head points back to the last member. -/
structure ClosedRing (next prev : α → α) (h : α) (xs : List α) : Prop
    extends Ring next prev h xs where
  back : prev h = (h :: xs).getLast (List.cons_ne_nil h xs)

/-! ### Chains of links -/

/-- A forward chain reads `next` of every element but the last. -/
theorem isChain_next_congr {l : List α} (agree : ∀ a ∈ l.dropLast, next' a = next a)
    (chain : l.IsChain fun a b => next a = b) : l.IsChain fun a b => next' a = b := by
  induction l with
  | nil => exact .nil
  | cons a l ih =>
    cases l with
    | nil => exact .singleton a
    | cons b l =>
      rw [List.isChain_cons_cons] at chain ⊢
      rw [List.dropLast_cons_cons] at agree
      exact ⟨(agree a List.mem_cons_self).trans chain.1,
        ih (fun c hc => agree c (List.mem_cons_of_mem a hc)) chain.2⟩

/-- A backward chain reads `prev` of every element but the first. -/
theorem isChain_prev_congr {l : List α} (agree : ∀ b ∈ l.tail, prev' b = prev b)
    (chain : l.IsChain fun a b => prev b = a) : l.IsChain fun a b => prev' b = a :=
  chain.imp_of_mem_tail_imp fun _ b _ hb hab => (agree b hb).trans hab

/-! ### Reading a ring -/

theorem Ring.congr (ring : Ring next prev h xs) (hnext : ∀ a ∈ h :: xs, next' a = next a)
    (hprev : ∀ a ∈ xs, prev' a = prev a) : Ring next' prev' h xs where
  fwd := isChain_next_congr
    (fun a ha => hnext a (by simpa only [List.dropLast_concat] using ha)) ring.fwd
  bwd := isChain_prev_congr hprev ring.bwd
  nodup := ring.nodup

theorem ClosedRing.congr (ring : ClosedRing next prev h xs)
    (hnext : ∀ a ∈ h :: xs, next' a = next a) (hprev : ∀ a ∈ h :: xs, prev' a = prev a) :
    ClosedRing next' prev' h xs where
  toRing := ring.toRing.congr hnext fun a ha => hprev a (List.mem_cons_of_mem h ha)
  back := (hprev h List.mem_cons_self).trans ring.back

/-- The member before a split point, or the head. -/
abbrev before (h : α) (pre : List α) : α := (h :: pre).getLast (List.cons_ne_nil h pre)

/-- The member after a split point, or the head. -/
abbrev after (h : α) (post : List α) : α := (post ++ [h]).head (by simp)

theorem before_mem (h : α) (pre : List α) : before h pre ∈ h :: pre := List.getLast_mem _

theorem after_mem (h : α) (post : List α) : after h post ∈ post ++ [h] := List.head_mem _

@[simp] theorem before_nil : before h [] = h := rfl

@[simp] theorem before_concat : before h (pre ++ [x]) = x := by simp [before]

@[simp] theorem after_nil : after h [] = h := rfl

@[simp] theorem after_cons : after h (x :: post) = x := rfl

private theorem isChain_fwd_split {R : α → α → Prop} :
    (h :: (pre ++ post) ++ [h]).IsChain R ↔
      (h :: pre).IsChain R ∧ (post ++ [h]).IsChain R ∧ R (before h pre) (after h post) := by
  rw [← List.cons_append, List.append_assoc, List.isChain_append]
  simp [List.getLast?_eq_some_getLast, List.head?_eq_some_head]

private theorem isChain_bwd_split {R : α → α → Prop} :
    (h :: (pre ++ post)).IsChain R ↔
      (h :: pre).IsChain R ∧ post.IsChain R ∧ (post ≠ [] → R (before h pre) (after h post)) := by
  rw [← List.cons_append, List.isChain_append]
  cases post <;> simp [List.getLast?_eq_some_getLast]

theorem Ring.next_before (ring : Ring next prev h (pre ++ post)) :
    next (before h pre) = after h post :=
  (isChain_fwd_split.mp ring.fwd).2.2

/-- `next` of a member is the member after it, or the head. -/
theorem Ring.next_member (ring : Ring next prev h (pre ++ x :: post)) :
    next x = after h post := by
  have ring' : Ring next prev h ((pre ++ [x]) ++ post) := by
    simpa only [List.append_assoc, List.singleton_append] using ring
  simpa only [before_concat] using ring'.next_before

/-- Following `next` stays in the ring. -/
theorem Ring.next_mem {a : α} (ring : Ring next prev h xs) (ha : a ∈ h :: xs) :
    next a = h ∨ next a ∈ xs := by
  have hafter : ∀ post : List α, after h post = h ∨ after h post ∈ post := fun post => by
    cases post with
    | nil => exact .inl rfl
    | cons z B => exact .inr List.mem_cons_self
  rcases List.mem_cons.mp ha with rfl | ha
  · have ring' : Ring next prev a ([] ++ xs) := ring
    rw [show next a = after a xs from ring'.next_before]
    exact hafter xs
  · obtain ⟨pre, post, rfl⟩ := List.append_of_mem ha
    rw [ring.next_member]
    exact (hafter post).imp_right fun hz => List.mem_append_right pre (List.mem_cons_of_mem a hz)

/-- `prev` of a member is the member before it, or the head. -/
theorem Ring.prev_member (ring : Ring next prev h (pre ++ x :: post)) :
    prev x = before h pre :=
  (isChain_bwd_split.mp ring.bwd).2.2 (List.cons_ne_nil x post)

theorem ClosedRing.prev_after (ring : ClosedRing next prev h (pre ++ post)) :
    prev (after h post) = before h pre := by
  cases post with
  | nil => simpa using ring.back
  | cons z B => exact ring.toRing.prev_member

theorem Ring.head_notMem (ring : Ring next prev h xs) : h ∉ xs := (List.nodup_cons.mp ring.nodup).1

theorem Ring.next_head_eq_iff (ring : Ring next prev h xs) : next h = h ↔ xs = [] := by
  have ring' : Ring next prev h ([] ++ xs) := ring
  have hn : next h = after h xs := ring'.next_before
  cases xs with
  | nil => simpa using hn
  | cons y ys =>
    have hne : y ≠ h := fun e => ring.head_notMem (e ▸ List.mem_cons_self)
    simp [hn, hne]

/-! ### Updating a ring

Both updates cut the ring between `before h pre` and `after h post` and leave
the two sides as they were. -/

private theorem isChain_next_left (hnodup : (h :: pre).Nodup)
    (hnext : ∀ a ∈ h :: pre, a ≠ before h pre → next' a = next a)
    (chain : (h :: pre).IsChain fun a b => next a = b) :
    (h :: pre).IsChain fun a b => next' a = b := by
  refine isChain_next_congr (fun a ha => hnext a (List.dropLast_subset _ ha) ?_) chain
  rintro rfl
  have split := List.dropLast_append_getLast (List.cons_ne_nil h pre)
  rw [← split] at hnodup
  exact (List.nodup_append.mp hnodup).2.2 _ ha _ (List.mem_singleton_self _) rfl

private theorem isChain_next_right (hnodup : (h :: (pre ++ post)).Nodup)
    (hnext : ∀ a ∈ post, a ≠ before h pre → next' a = next a)
    (chain : (post ++ [h]).IsChain fun a b => next a = b) :
    (post ++ [h]).IsChain fun a b => next' a = b := by
  refine isChain_next_congr (fun a ha => ?_) chain
  rw [List.dropLast_concat] at ha
  refine hnext a ha ?_
  rintro rfl
  exact (List.nodup_append.mp hnodup).2.2 _ (before_mem h pre) _ ha rfl

private theorem isChain_prev_left (hnodup : (h :: (pre ++ post)).Nodup)
    (hprev : ∀ b ∈ pre, b ≠ after h post → prev' b = prev b)
    (chain : (h :: pre).IsChain fun a b => prev b = a) :
    (h :: pre).IsChain fun a b => prev' b = a := by
  refine isChain_prev_congr (fun b hb => hprev b hb ?_) chain
  rintro rfl
  rcases List.mem_append.mp (after_mem h post) with hpost | hhead
  · exact (List.nodup_append.mp hnodup).2.2 _ (List.mem_cons_of_mem h hb) _ hpost rfl
  · rw [List.mem_singleton] at hhead
    rw [hhead] at hb
    exact (List.nodup_cons.mp hnodup).1 (List.mem_append_left post hb)

private theorem isChain_prev_right (hnodup : post.Nodup)
    (hprev : ∀ b ∈ post, b ≠ after h post → prev' b = prev b)
    (chain : post.IsChain fun a b => prev b = a) : post.IsChain fun a b => prev' b = a := by
  refine isChain_prev_congr (fun b hb => hprev b (List.mem_of_mem_tail hb) ?_) chain
  rintro rfl
  cases post with
  | nil => exact List.not_mem_nil hb
  | cons z B => exact (List.nodup_cons.mp hnodup).1 hb

/-- Link `x` in between two neighbours. -/
theorem Ring.insert (ring : Ring next prev h (pre ++ post)) (fresh : x ∉ h :: (pre ++ post))
    (next_y : next' (before h pre) = x) (next_x : next' x = after h post)
    (prev_x : prev' x = before h pre) (prev_z : post ≠ [] → prev' (after h post) = x)
    (hnext : ∀ a ∈ h :: (pre ++ post), a ≠ before h pre → next' a = next a)
    (hprev : ∀ a ∈ pre ++ post, a ≠ after h post → prev' a = prev a) :
    Ring next' prev' h (pre ++ x :: post) := by
  obtain ⟨fleft, fright, -⟩ := isChain_fwd_split.mp ring.fwd
  obtain ⟨bleft, bright, -⟩ := isChain_bwd_split.mp ring.bwd
  have hnodup : (h :: pre ++ post).Nodup := ring.nodup
  have fleft' := isChain_next_left (List.nodup_append.mp hnodup).1
    (fun a ha => hnext a (List.mem_append_left post ha)) fleft
  have fright' := isChain_next_right hnodup
    (fun a ha => hnext a (List.mem_append_right (h :: pre) ha)) fright
  have bleft' := isChain_prev_left hnodup
    (fun b hb => hprev b (List.mem_append_left post hb)) bleft
  have bright' := isChain_prev_right (List.nodup_append.mp hnodup).2.1
    (fun b hb => hprev b (List.mem_append_right pre hb)) bright
  -- the links on both sides of the new member
  refine ⟨isChain_fwd_split.mpr ⟨fleft', ?_, by simpa using next_y⟩,
    isChain_bwd_split.mpr ⟨bleft', ?_, fun _ => by simpa using prev_x⟩, ?_⟩
  · rw [List.cons_append, List.isChain_cons]
    exact ⟨fun y hy => by rw [next_x]; simpa [List.head?_eq_some_head] using hy, fright'⟩
  · rw [List.isChain_cons]
    refine ⟨fun y hy => ?_, bright'⟩
    cases post with
    | nil => simp at hy
    | cons z B =>
      obtain rfl : z = y := by simpa using hy
      exact prev_z (List.cons_ne_nil z B)
  · rw [← List.cons_append] at fresh ⊢
    exact List.perm_middle.nodup_iff.mpr (List.nodup_cons.mpr ⟨fresh, hnodup⟩)

theorem ClosedRing.insert (ring : ClosedRing next prev h (pre ++ post))
    (fresh : x ∉ h :: (pre ++ post))
    (next_y : next' (before h pre) = x) (next_x : next' x = after h post)
    (prev_x : prev' x = before h pre) (prev_z : prev' (after h post) = x)
    (hnext : ∀ a ∈ h :: (pre ++ post), a ≠ before h pre → next' a = next a)
    (hprev : ∀ a ∈ h :: (pre ++ post), a ≠ after h post → prev' a = prev a) :
    ClosedRing next' prev' h (pre ++ x :: post) where
  toRing := ring.toRing.insert fresh next_y next_x prev_x (fun _ => prev_z) hnext
    fun a ha => hprev a (List.mem_cons_of_mem h ha)
  back := by
    cases post with
    | nil => simpa using prev_z
    | cons z B =>
      have hne : h ≠ z := fun e => ring.head_notMem (by simp [e])
      rw [hprev h List.mem_cons_self hne, ring.back]
      simp

/-- Unlink the member `x`. -/
theorem Ring.remove (ring : Ring next prev h (pre ++ x :: post))
    (next_y : next' (before h pre) = after h post)
    (prev_z : post ≠ [] → prev' (after h post) = before h pre)
    (hnext : ∀ a ∈ h :: (pre ++ post), a ≠ before h pre → next' a = next a)
    (hprev : ∀ a ∈ pre ++ post, a ≠ after h post → prev' a = prev a) :
    Ring next' prev' h (pre ++ post) := by
  obtain ⟨fleft, fright, -⟩ := isChain_fwd_split.mp ring.fwd
  obtain ⟨bleft, bright, -⟩ := isChain_bwd_split.mp ring.bwd
  have hnodup : (h :: pre ++ post).Nodup := by
    have := ring.nodup
    rw [← List.cons_append] at this
    exact (List.nodup_cons.mp (List.perm_middle.nodup_iff.mp this)).2
  -- `x` goes from the head of the right part
  rw [List.cons_append] at fright
  exact {
    fwd := isChain_fwd_split.mpr ⟨
      isChain_next_left (List.nodup_append.mp hnodup).1
        (fun a ha => hnext a (List.mem_append_left post ha)) fleft,
      isChain_next_right hnodup
        (fun a ha => hnext a (List.mem_append_right (h :: pre) ha)) fright.tail,
      next_y⟩
    bwd := isChain_bwd_split.mpr ⟨
      isChain_prev_left hnodup (fun b hb => hprev b (List.mem_append_left post hb)) bleft,
      isChain_prev_right (List.nodup_append.mp hnodup).2.1
        (fun b hb => hprev b (List.mem_append_right pre hb)) bright.tail,
      prev_z⟩
    nodup := hnodup }

theorem ClosedRing.remove (ring : ClosedRing next prev h (pre ++ x :: post))
    (next_y : next' (before h pre) = after h post) (prev_z : prev' (after h post) = before h pre)
    (hnext : ∀ a ∈ h :: (pre ++ post), a ≠ before h pre → next' a = next a)
    (hprev : ∀ a ∈ h :: (pre ++ post), a ≠ after h post → prev' a = prev a) :
    ClosedRing next' prev' h (pre ++ post) where
  toRing := ring.toRing.remove next_y (fun _ => prev_z) hnext
    fun a ha => hprev a (List.mem_cons_of_mem h ha)
  back := by
    cases post with
    | nil => simpa using prev_z
    | cons z B =>
      have hne : h ≠ z := fun e => ring.head_notMem (by simp [e])
      rw [hprev h List.mem_cons_self hne, ring.back]
      simp

/-! ### Walking a ring -/

/-- The elements that `next` visits from `a` before it meets `h`, if it does so in time. -/
def walk [DecidableEq α] (next : α → α) (h : α) : ℕ → α → Option (List α)
  | 0, _ => none
  | fuel + 1, a =>
    if next a = h then some [] else (walk next h fuel (next a)).map (next a :: ·)

theorem walk_chain [DecidableEq α] {a : α} {fuel : ℕ}
    (chain : (a :: xs ++ [h]).IsChain fun a b => next a = b) (hh : h ∉ xs)
    (enough : xs.length < fuel) : walk next h fuel a = some xs := by
  induction xs generalizing a fuel with
  | nil =>
    obtain ⟨fuel, rfl⟩ := Nat.exists_eq_succ_of_ne_zero (Nat.ne_zero_of_lt enough)
    have hnext : next a = h := by simpa using chain
    rw [walk, if_pos hnext]
  | cons b xs ih =>
    obtain ⟨fuel, rfl⟩ := Nat.exists_eq_succ_of_ne_zero (Nat.ne_zero_of_lt enough)
    rw [List.cons_append, List.cons_append, List.isChain_cons_cons] at chain
    obtain ⟨hnext, hrest⟩ := chain
    have hb : b ≠ h := fun e => hh (e ▸ List.mem_cons_self)
    rw [walk, if_neg (hnext ▸ hb), hnext,
      ih hrest (fun hmem => hh (List.mem_cons_of_mem b hmem)) (Nat.lt_of_succ_lt_succ enough)]
    rfl

/-- Following `next` from the head visits the members in order. -/
theorem Ring.walk_eq [DecidableEq α] {fuel : ℕ} (ring : Ring next prev h xs)
    (enough : xs.length < fuel) : walk next h fuel h = some xs :=
  walk_chain ring.fwd (List.nodup_cons.mp ring.nodup).1 enough

/-- The `prev` links of the members are the head and the members up to the last. -/
theorem Ring.map_prev (ring : Ring next prev h xs) : xs.map prev = (h :: xs).dropLast := by
  have hchain := ring.bwd
  clear ring
  induction xs generalizing h with
  | nil => rfl
  | cons x xs ih =>
    obtain ⟨hprev, hrest⟩ := List.isChain_cons_cons.mp hchain
    rw [List.map_cons, hprev, ih hrest, List.dropLast_cons_cons]

end CLanguage.Lib
