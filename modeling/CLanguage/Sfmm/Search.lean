import CLanguage.Sfmm.Lists

/-!
# The search loops

Each loop over the list of free lists, run on a memory that holds the lists,
computes a function of the sizes in list order. A loop that has not reached the
sentinel yet stands at a position of the list, given by what is before it and
what is still to come.

## Main results

* `findFit_eq` — the first list that can serve a request
* `findEqual_eq`, `findNode_eq` — the list of a given size; the first of the two
  does not look at the last list
* `findGap_eq`, `findGapOrLast_eq`, `findPlace_eq` — where a new list goes
-/

namespace CLanguage.Sfmm

open Lib

variable {L : Layout} {m : Mem} {n bs size fuel : ℕ} {A B lists : List FreeList} {l k : FreeList}

/-- The node before a position of the list of free lists. -/
abbrev nodeBefore (L : Layout) (A : List FreeList) : ℕ :=
  before L.sentinel (A.map FreeList.node)

/-- The node after a position of the list of free lists. -/
abbrev nodeAfter (L : Layout) (B : List FreeList) : ℕ :=
  after L.sentinel (B.map FreeList.node)

/-- The sizes increase along the list of free lists. -/
def Increasing (lists : List FreeList) : Prop := lists.Pairwise fun k l => k.size < l.size

/-- The size `bs` belongs between the lists `A` and the lists `B`. -/
def Between (bs : ℕ) (A B : List FreeList) : Prop :=
  (∀ l ∈ A, l.size < bs) ∧ ∀ l ∈ B, bs < l.size

/-- The list that can serve a request for `size` bytes. -/
def fits (size : ℕ) (l : FreeList) : Bool := add64 size 8 ≤ l.size && l.blocks ≠ []

/-- The list of size `bs`, if no larger one comes before it. -/
def listOf (bs : ℕ) (lists : List FreeList) : Option FreeList :=
  (lists.find? fun l => bs ≤ l.size).filter fun l => l.size = bs

theorem listOf_cons : listOf bs (l :: lists) =
    if l.size = bs then some l else if l.size > bs then none else listOf bs lists := by
  unfold listOf
  rcases lt_trichotomy l.size bs with h | h | h
  · simp [h.ne, h.not_gt, h.not_ge]
  · simp [h]
  · simp [h.ne', h, h.le, Option.filter]

theorem listOf_eq_some (h : listOf bs lists = some l) :
    l.size = bs ∧ ∃ A B, lists = A ++ l :: B := by
  obtain ⟨hfind, hsize⟩ := Option.filter_eq_some_iff.mp h
  exact ⟨by simpa using hsize, List.append_of_mem (List.mem_of_find?_eq_some hfind)⟩

/-! ### Reading the list of free lists -/

@[simp] theorem nodeBefore_nil : nodeBefore L [] = L.sentinel := rfl

@[simp] theorem nodeAfter_nil : nodeAfter L [] = L.sentinel := rfl

theorem nodeBefore_concat : nodeBefore L (A ++ [k]) = k.node := by
  simp [nodeBefore, before]

theorem nodeAfter_cons : nodeAfter L (l :: B) = l.node := rfl

theorem append_singleton_append : (A ++ [k]) ++ B = A ++ k :: B := by simp

theorem NodesOk.nodeNext_before (ok : NodesOk L m n (A ++ B)) :
    m.nodeNext (nodeBefore L A) = nodeAfter L B := by
  have ring := ok.ring.toRing
  rw [List.map_append] at ring
  exact ring.next_before

theorem NodesOk.nodeNext_sentinel (ok : NodesOk L m n lists) :
    m.nodeNext L.sentinel = nodeAfter L lists := by
  have ok' : NodesOk L m n ([] ++ lists) := ok
  exact ok'.nodeNext_before

theorem NodesOk.nodeNext_node (ok : NodesOk L m n (A ++ k :: B)) :
    m.nodeNext k.node = nodeAfter L B := by
  rw [← append_singleton_append] at ok
  simpa only [nodeBefore_concat] using ok.nodeNext_before

theorem NodesOk.nodePrev_node (ok : NodesOk L m n (A ++ k :: B)) :
    m.nodePrev k.node = nodeBefore L A := by
  have ring := ok.ring.toRing
  rw [List.map_append, List.map_cons] at ring
  exact ring.prev_member

theorem NodesOk.node_ne_sentinel (ok : NodesOk L m n lists) (hl : l ∈ lists) :
    l.node ≠ L.sentinel := fun e =>
  ok.ring.toRing.head_notMem (e ▸ List.mem_map_of_mem hl)

theorem NodesOk.nodeAfter_eq_sentinel_iff (ok : NodesOk L m n (A ++ B)) :
    nodeAfter L B = L.sentinel ↔ B = [] := by
  cases B with
  | nil => simp
  | cons l B =>
    have := ok.node_ne_sentinel (l := l) (by simp)
    simpa [nodeAfter_cons] using this

theorem NodesOk.nodeBefore_eq_sentinel_iff (ok : NodesOk L m n (A ++ B)) :
    nodeBefore L A = L.sentinel ↔ A = [] := by
  rcases List.eq_nil_or_concat A with rfl | ⟨A, k, rfl⟩
  · simp
  · have hk : k.node ≠ L.sentinel := ok.node_ne_sentinel (by simp)
    rw [List.concat_eq_append, nodeBefore_concat]
    simpa using hk

theorem ListsOk.linksNext_head_eq_iff (ok : ListsOk L m n lists) (hl : l ∈ lists) :
    m.linksNext (nodeHead l.node) = nodeHead l.node ↔ l.blocks = [] :=
  (ok.blocks_ring l hl).next_head_eq_iff

theorem mem_of_middle : k ∈ A ++ k :: B := List.mem_append_right A List.mem_cons_self

/-! ### `sf_malloc` looks for a block -/

/-- A list is empty exactly if its dummy header is linked to itself. -/
def HeadsOk (m : Mem) (lists : List FreeList) : Prop :=
  ∀ l ∈ lists, m.linksNext (nodeHead l.node) = nodeHead l.node ↔ l.blocks = []

theorem ListsOk.headsOk (ok : ListsOk L m n lists) : HeadsOk m lists :=
  fun _ hl => ok.linksNext_head_eq_iff hl

theorem NodesOk.findFit_from (ok : NodesOk L m n (A ++ B)) (heads : HeadsOk m (A ++ B))
    (enough : B.length < fuel) :
    findFit L m size fuel (nodeBefore L A) =
      .ok ((B.find? (fits size)).map FreeList.node) := by
  induction B generalizing A fuel with
  | nil =>
    obtain ⟨fuel, rfl⟩ := Nat.exists_eq_add_one_of_ne_zero (Nat.ne_of_gt enough)
    simp [findFit, ok.nodeNext_before]
  | cons l B ih =>
    obtain ⟨fuel, rfl⟩ := Nat.exists_eq_add_one_of_ne_zero (Nat.ne_of_gt (Nat.zero_lt_of_lt enough))
    have hl : l ∈ A ++ l :: B := mem_of_middle
    have step : findFit L m size fuel l.node = .ok ((B.find? (fits size)).map FreeList.node) := by
      rw [← nodeBefore_concat (L := L) (A := A)]
      exact ih (by rwa [append_singleton_append]) (by rwa [append_singleton_append])
        (by simpa using enough)
    rw [findFit, ok.nodeNext_before, nodeAfter_cons, if_neg (ok.node_ne_sentinel hl),
      ok.node_size l hl, step, List.find?_cons]
    have hempty := heads l hl
    by_cases hfit : add64 size 8 ≤ l.size ∧ l.blocks ≠ []
    · simp [fits, hempty, hfit]
    · have hnot : fits size l = false := by simpa [fits] using hfit
      simp only [ne_eq, hempty, hfit, hnot, if_false]

theorem NodesOk.findFit_eq (ok : NodesOk L m n lists) (heads : HeadsOk m lists) :
    findFit L m size (n + 1) L.sentinel = .ok ((lists.find? (fits size)).map FreeList.node) := by
  have enough : lists.length < n + 1 := ok.length_lt.trans (Nat.lt_succ_self n)
  have ok' : NodesOk L m n ([] ++ lists) := ok
  exact ok'.findFit_from heads enough

/-! ### The list of a given size -/

theorem NodesOk.findEqual_from (ok : NodesOk L m n (A ++ k :: B)) (enough : B.length < fuel) :
    findEqual L m bs fuel k.node =
      .ok ((listOf bs (k :: B).dropLast).map FreeList.node) := by
  induction B generalizing A k fuel with
  | nil =>
    obtain ⟨fuel, rfl⟩ := Nat.exists_eq_add_one_of_ne_zero (Nat.ne_of_gt enough)
    simp [findEqual, ok.nodeNext_node, listOf]
  | cons l B ih =>
    obtain ⟨fuel, rfl⟩ := Nat.exists_eq_add_one_of_ne_zero (Nat.ne_of_gt (Nat.zero_lt_of_lt enough))
    have ok' : NodesOk L m n ((A ++ [k]) ++ l :: B) := by rwa [append_singleton_append]
    rw [findEqual, ok.nodeNext_node, nodeAfter_cons, if_neg (ok'.node_ne_sentinel mem_of_middle),
      ok.node_size k mem_of_middle, ih ok' (by simpa using enough), List.dropLast_cons_cons,
      listOf_cons]
    split_ifs <;> rfl

/-- The `flag` loop of `sf_malloc` finds a list of the given size among all but
the last. -/
theorem NodesOk.findEqual_eq (ok : NodesOk L m n lists) (pos : 0 < bs) :
    findEqual L m bs (n + 1) L.sentinel =
      .ok ((listOf bs lists.dropLast).map FreeList.node) := by
  have enough := ok.length_lt
  cases lists with
  | nil => simp [findEqual, ok.nodeNext_sentinel, listOf]
  | cons l B =>
    have ok' : NodesOk L m n ([] ++ l :: B) := ok
    rw [findEqual, ok.nodeNext_sentinel, nodeAfter_cons,
      if_neg (ok.node_ne_sentinel List.mem_cons_self), ok.sentinel_size,
      if_neg (by omega), if_neg (by omega)]
    exact ok'.findEqual_from ((Nat.lt_succ_self B.length).trans enough)

theorem NodesOk.findNode_from (ok : NodesOk L m n (A ++ B)) (enough : B.length < fuel) :
    findNode L m bs fuel (nodeAfter L B) = .ok ((listOf bs B).map FreeList.node) := by
  induction B generalizing A fuel with
  | nil =>
    obtain ⟨fuel, rfl⟩ := Nat.exists_eq_add_one_of_ne_zero (Nat.ne_of_gt enough)
    simp [findNode, listOf]
  | cons l B ih =>
    obtain ⟨fuel, rfl⟩ := Nat.exists_eq_add_one_of_ne_zero (Nat.ne_of_gt (Nat.zero_lt_of_lt enough))
    have hl : l ∈ A ++ l :: B := mem_of_middle
    have ok' : NodesOk L m n ((A ++ [l]) ++ B) := by rwa [append_singleton_append]
    rw [nodeAfter_cons, findNode, if_neg (ok.node_ne_sentinel hl), ok.node_size l hl,
      ok.nodeNext_node, ih ok' (by simpa using enough), listOf_cons]
    split_ifs <;> rfl

/-- The `flag` loop of `sf_free` and `sf_realloc` looks at every list. -/
theorem NodesOk.findNode_eq (ok : NodesOk L m n lists) :
    findNode L m bs (n + 1) (m.nodeNext L.sentinel) =
      .ok ((listOf bs lists).map FreeList.node) := by
  have ok' : NodesOk L m n ([] ++ lists) := ok
  rw [ok.nodeNext_sentinel]
  exact ok'.findNode_from (ok.length_lt.trans (Nat.lt_succ_self n))

/-! ### Where a new list goes -/

/-- The size of the last list before a position, or that of the sentinel. -/
theorem NodesOk.nodeSize_before_lt (ok : NodesOk L m n (A ++ B)) (pos : 0 < bs)
    (hA : ∀ l ∈ A, l.size < bs) : m.nodeSize (nodeBefore L A) < bs := by
  rcases List.eq_nil_or_concat A with rfl | ⟨A, k, rfl⟩
  · simpa [ok.sentinel_size] using pos
  · rw [List.concat_eq_append] at *
    rw [nodeBefore_concat, ok.node_size k (by simp)]
    exact hA k (by simp)

/-- If a larger list follows and the `flag` loop fails, the second loop after a
split finds a gap. -/
theorem NodesOk.findGap_from (ok : NodesOk L m n (A ++ B)) (enough : B.length < fuel)
    (pos : 0 < bs) (hA : ∀ l ∈ A, l.size < bs) (hnone : listOf bs B.dropLast = none)
    (larger : ∃ l ∈ B, bs < l.size) :
    ∃ A' l B', A' ++ l :: B' = A ++ B ∧ (∀ l ∈ A', l.size < bs) ∧ bs < l.size ∧
      findGap L m bs fuel (nodeBefore L A) = .ok (some (nodeBefore L A')) := by
  induction B generalizing A fuel with
  | nil =>
    obtain ⟨l, hl, -⟩ := larger
    exact absurd hl List.not_mem_nil
  | cons l B ih =>
    obtain ⟨fuel, rfl⟩ := Nat.exists_eq_add_one_of_ne_zero (Nat.ne_of_gt (Nat.zero_lt_of_lt enough))
    have hl : l ∈ A ++ l :: B := mem_of_middle
    have hbefore := ok.nodeSize_before_lt pos hA
    have hstep : findGap L m bs (fuel + 1) (nodeBefore L A) =
        if bs < l.size then .ok (some (nodeBefore L A)) else findGap L m bs fuel l.node := by
      rw [findGap, ok.nodeNext_before, nodeAfter_cons, if_neg (ok.node_ne_sentinel hl),
        ok.node_size l hl]
      simp only [hbefore, gt_iff_lt, true_and]
    by_cases hlt : bs < l.size
    · exact ⟨A, l, B, rfl, hA, hlt, by rw [hstep, if_pos hlt]⟩
    · -- an equal size cannot come here: the `flag` loop would have found it
      have hB : ∃ k ∈ B, bs < k.size := by
        obtain ⟨k, hk, hkbs⟩ := larger
        rcases List.mem_cons.mp hk with rfl | hk
        · exact absurd hkbs hlt
        · exact ⟨k, hk, hkbs⟩
      have hBne : B ≠ [] := by
        rintro rfl
        simp at hB
      rw [List.dropLast_cons_of_ne_nil hBne, listOf_cons] at hnone
      have hne : l.size ≠ bs := fun e => by simp [e] at hnone
      rw [if_neg hne, if_neg hlt] at hnone
      obtain ⟨A', k, B', heq, hA', hk, hfind⟩ := ih
        (show NodesOk L m n ((A ++ [l]) ++ B) by rwa [append_singleton_append])
        (by simpa using enough) (fun k hk => by
          rcases List.mem_append.mp hk with hk | hk
          · exact hA k hk
          · rw [List.mem_singleton.mp hk]
            omega) hnone hB
      refine ⟨A', k, B', heq.trans append_singleton_append, hA', hk, ?_⟩
      rw [hstep, if_neg hlt, ← hfind, nodeBefore_concat]

/-- The second loop after a split puts the new list before the first larger one. -/
theorem NodesOk.findGap_eq (ok : NodesOk L m n lists) (pos : 0 < bs)
    (hnone : listOf bs lists.dropLast = none) (larger : ∃ l ∈ lists, bs < l.size) :
    ∃ A l B, A ++ l :: B = lists ∧ (∀ l ∈ A, l.size < bs) ∧ bs < l.size ∧
      findGap L m bs (n + 1) L.sentinel = .ok (some (nodeBefore L A)) := by
  have ok' : NodesOk L m n ([] ++ lists) := ok
  exact ok'.findGap_from (ok.length_lt.trans (Nat.lt_succ_self n)) pos (by simp) hnone larger

theorem increasing_split (h : Increasing (A ++ l :: B)) :
    (∀ k ∈ A, k.size < l.size) ∧ ∀ k ∈ B, l.size < k.size := by
  obtain ⟨-, hB, hA⟩ := List.pairwise_append.mp h
  exact ⟨fun k hk => hA k hk l List.mem_cons_self, (List.pairwise_cons.mp hB).1⟩

/-- The second loop after growing finds a position behind some list. It is the
right one if the sizes increase and the first list is smaller. -/
theorem NodesOk.findGapOrLast_from (ok : NodesOk L m n (A ++ k :: B)) (enough : B.length < fuel) :
    ∃ A' B', A' ++ B' = A ++ k :: B ∧
      findGapOrLast L m bs fuel k.node = .ok (some (nodeBefore L A')) ∧
      (Increasing (A ++ k :: B) → k.size < bs → (∀ l ∈ B, l.size ≠ bs) → Between bs A' B') := by
  induction B generalizing A k fuel with
  | nil =>
    obtain ⟨fuel, rfl⟩ := Nat.exists_eq_add_one_of_ne_zero (Nat.ne_of_gt enough)
    refine ⟨A ++ [k], [], by simp, ?_, fun sorted hk _ => ⟨fun l hl => ?_, by simp⟩⟩
    · simp [findGapOrLast, ok.nodeNext_node, ok.node_ne_sentinel mem_of_middle]
    · rcases List.mem_append.mp hl with hl | hl
      · exact ((increasing_split sorted).1 l hl).trans hk
      · rwa [List.mem_singleton.mp hl]
  | cons l B ih =>
    obtain ⟨fuel, rfl⟩ := Nat.exists_eq_add_one_of_ne_zero (Nat.ne_of_gt (Nat.zero_lt_of_lt enough))
    have ok' : NodesOk L m n ((A ++ [k]) ++ l :: B) := by rwa [append_singleton_append]
    -- one round of the loop, at the node of `k`
    have hstep : findGapOrLast L m bs (fuel + 1) k.node =
        if k.size < bs ∧ l.size > bs then .ok (some k.node)
        else findGapOrLast L m bs fuel l.node := by
      rw [findGapOrLast, if_neg (ok.node_ne_sentinel mem_of_middle), ok.nodeNext_node,
        nodeAfter_cons, ok.node_size k mem_of_middle, ok'.node_size l mem_of_middle]
      simp only [ok'.node_ne_sentinel mem_of_middle, or_false]
    -- the loop ends in the gap between `k` and `l`
    by_cases hgap : k.size < bs ∧ l.size > bs
    · refine ⟨A ++ [k], l :: B, append_singleton_append, ?_,
        fun sorted _ _ => ⟨fun j hj => ?_, fun j hj => ?_⟩⟩
      · rw [hstep, if_pos hgap, nodeBefore_concat]
      · rcases List.mem_append.mp hj with hj | hj
        · exact ((increasing_split sorted).1 j hj).trans hgap.1
        · rw [List.mem_singleton.mp hj]
          exact hgap.1
      · rw [← append_singleton_append] at sorted
        rcases List.mem_cons.mp hj with rfl | hj
        · exact hgap.2
        · exact hgap.2.trans ((increasing_split sorted).2 j hj)
    · obtain ⟨A', B', heq, hfind, hbetween⟩ := ih ok' (by simpa using enough)
      refine ⟨A', B', heq.trans append_singleton_append, ?_, fun sorted hk hne => ?_⟩
      · rw [hstep, if_neg hgap, hfind]
      · have hl := hne l List.mem_cons_self
        exact hbetween (by rwa [append_singleton_append]) (by omega) fun j hj =>
          hne j (List.mem_cons_of_mem l hj)

theorem NodesOk.findGapOrLast_eq (ok : NodesOk L m n (k :: B)) (bs : ℕ) :
    ∃ A' B', A' ++ B' = k :: B ∧
      findGapOrLast L m bs (n + 1) (m.nodeNext L.sentinel) = .ok (some (nodeBefore L A')) ∧
      (Increasing (k :: B) → k.size < bs → (∀ l ∈ B, l.size ≠ bs) → Between bs A' B') := by
  have ok' : NodesOk L m n ([] ++ k :: B) := ok
  have enough := ok.length_lt
  rw [ok.nodeNext_sentinel, nodeAfter_cons]
  exact ok'.findGapOrLast_from ((Nat.lt_succ_self B.length).trans (enough.trans (Nat.lt_succ_self n)))

/-- A position that the second loop of `sf_free` describes. -/
def Place.At (L : Layout) (A B : List FreeList) : Place → Prop
  | .after t => t = nodeBefore L A
  | .before t => t = nodeAfter L B ∧ A = []

theorem NodesOk.findPlace_from (ok : NodesOk L m n (A ++ k :: B)) (enough : B.length < fuel) :
    ∃ place A' B', A' ++ B' = A ++ k :: B ∧ findPlace L m bs fuel k.node = .ok (some place) ∧
      place.At L A' B' ∧
      (Increasing (A ++ k :: B) → (∀ l ∈ A ++ k :: B, l.size ≠ bs) → (∀ l ∈ A, l.size < bs) →
        (A ≠ [] → k.size < bs) → (A = [] → B = [] → k.size < bs) → Between bs A' B') := by
  induction B generalizing A k fuel with
  | nil =>
    obtain ⟨fuel, rfl⟩ := Nat.exists_eq_add_one_of_ne_zero (Nat.ne_of_gt enough)
    refine ⟨.after k.node, A ++ [k], [], by simp, ?_, nodeBefore_concat.symm,
      fun _ _ hA hne hnil => ⟨fun l hl => ?_, by simp⟩⟩
    · simp [findPlace, ok.nodeNext_node, ok.node_ne_sentinel mem_of_middle]
    · rcases List.mem_append.mp hl with hl | hl
      · exact hA l hl
      · rw [List.mem_singleton.mp hl]
        by_cases hnil' : A = []
        · exact hnil hnil' rfl
        · exact hne hnil'
  | cons l B ih =>
    obtain ⟨fuel, rfl⟩ := Nat.exists_eq_add_one_of_ne_zero (Nat.ne_of_gt (Nat.zero_lt_of_lt enough))
    have ok' : NodesOk L m n ((A ++ [k]) ++ l :: B) := by rwa [append_singleton_append]
    -- one round of the loop, at the node of `k`
    have hstep : findPlace L m bs (fuel + 1) k.node =
        if k.size < bs ∧ l.size > bs then .ok (some (.after k.node))
        else if A = [] ∧ k.size > bs then .ok (some (.before k.node))
        else findPlace L m bs fuel l.node := by
      rw [findPlace, if_neg (ok.node_ne_sentinel mem_of_middle), ok.nodeNext_node,
        nodeAfter_cons, ok.node_size k mem_of_middle, ok'.node_size l mem_of_middle,
        ok.nodePrev_node]
      simp only [ok'.node_ne_sentinel mem_of_middle, or_false, ok.nodeBefore_eq_sentinel_iff]
    by_cases hgap : k.size < bs ∧ l.size > bs
    · refine ⟨.after k.node, A ++ [k], l :: B, append_singleton_append, ?_, nodeBefore_concat.symm,
        fun sorted _ hA _ _ => ⟨fun j hj => ?_, fun j hj => ?_⟩⟩
      · rw [hstep, if_pos hgap]
      · rcases List.mem_append.mp hj with hj | hj
        · exact hA j hj
        · rw [List.mem_singleton.mp hj]
          exact hgap.1
      · rw [← append_singleton_append] at sorted
        rcases List.mem_cons.mp hj with rfl | hj
        · exact hgap.2
        · exact hgap.2.trans ((increasing_split sorted).2 j hj)
    by_cases hfirst : A = [] ∧ k.size > bs
    · obtain ⟨rfl, hk⟩ := hfirst
      refine ⟨.before k.node, [], k :: l :: B, rfl, ?_, ⟨rfl, rfl⟩,
        fun sorted _ _ _ _ => ⟨by simp, fun j hj => ?_⟩⟩
      · rw [hstep, if_neg hgap, if_pos ⟨rfl, hk⟩]
      · rcases List.mem_cons.mp hj with rfl | hj
        · exact hk
        · exact hk.trans ((increasing_split sorted).2 j hj)
    · obtain ⟨place, A', B', heq, hfind, hat, hbetween⟩ := ih ok' (by simpa using enough)
      refine ⟨place, A', B', heq.trans append_singleton_append, ?_, hat,
        fun sorted hne hA hk _ => ?_⟩
      · rw [hstep, if_neg hgap, if_neg hfirst, hfind]
      · have hkne := hne k mem_of_middle
        have hlne := hne l (by simp)
        -- the loop goes on only past lists that are smaller
        have hkbs : k.size < bs := by
          by_cases hnil : A = []
          · have : ¬ k.size > bs := fun h => hfirst ⟨hnil, h⟩
            omega
          · exact hk hnil
        refine hbetween (by rwa [append_singleton_append]) (by rwa [append_singleton_append])
          (fun j hj => ?_) (fun _ => by omega) (by simp)
        rcases List.mem_append.mp hj with hj | hj
        · exact hA j hj
        · rwa [List.mem_singleton.mp hj]

/-- The second loop of `sf_free` finds a position. It is the right one if the
sizes increase, unless a single larger list is all there is. -/
theorem NodesOk.findPlace_eq (ok : NodesOk L m n lists) (bs : ℕ) (nonempty : lists ≠ []) :
    ∃ place A B, A ++ B = lists ∧
      findPlace L m bs (n + 1) (m.nodeNext L.sentinel) = .ok (some place) ∧ place.At L A B ∧
      (Increasing lists → (∀ l ∈ lists, l.size ≠ bs) →
        (∀ k, lists = [k] → k.size < bs) → Between bs A B) := by
  obtain ⟨k, B, rfl⟩ := List.exists_cons_of_ne_nil nonempty
  have ok' : NodesOk L m n ([] ++ k :: B) := ok
  have enough := ok.length_lt
  rw [ok.nodeNext_sentinel, nodeAfter_cons]
  obtain ⟨place, A', B', heq, hfind, hat, hbetween⟩ := ok'.findPlace_from
    ((Nat.lt_succ_self B.length).trans (enough.trans (Nat.lt_succ_self n)))
  exact ⟨place, A', B', heq, hfind, hat, fun sorted hne hsingle =>
    hbetween sorted hne (by simp) (by simp) fun _ hB => hsingle k (by rw [hB])⟩

end CLanguage.Sfmm
