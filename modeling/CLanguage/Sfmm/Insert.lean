import CLanguage.Lib.Outcome
import CLanguage.Sfmm.Blocks
import CLanguage.Sfmm.NewNode

/-!
# Listing a free block

The three ways in which a free block gets listed: the remainder of a split, the
block that ends with a new page, and a freed block. Each either joins the list
of its size or gets a list of its own.

`sf_malloc` joins an existing list by `linkBehindFirst`, which leaves the block
unreachable from the head. The lemmas for its two insertions therefore assume
that its `flag` loop finds no list.
-/

namespace CLanguage.Sfmm

open Lib

variable {L : Layout} {s s' : State} {n bs h : ℕ} {A B lists lists' : List FreeList}
  {k l : FreeList}

/-- The blocks of a list of free lists, with the sizes of their lists. -/
def listed (lists : List FreeList) : List Block :=
  lists.flatMap fun l => l.blocks.map fun a => ⟨a, l.size, none⟩

/-- The block `h` of size `bs` has joined a list, or has got a list of its own. -/
inductive Inserted (bs h : ℕ) : List FreeList → List FreeList → Prop
  | front (A : List FreeList) (l : FreeList) (B : List FreeList) (size : l.size = bs) :
      Inserted bs h (A ++ l :: B) (A ++ { l with blocks := h :: l.blocks } :: B)
  | newList (A B : List FreeList) (t : ℕ) :
      Inserted bs h (A ++ B) (A ++ ⟨t, bs, [h]⟩ :: B)

/-- Listing a block changes nothing but link words. -/
structure Linked (L : Layout) (bs h : ℕ) (lists lists' : List FreeList) (s s' : State) :
    Prop where
  heapEnd : s'.heapEnd = s.heapEnd
  pagesLeft : s'.pagesLeft = s.pagesLeft
  growCalls : s'.growCalls = s.growCalls
  nodes_le : s.nodes ≤ s'.nodes
  ok : ListsOk L s'.mem s'.nodes lists'
  inserted : Inserted bs h lists lists'
  frame : ∀ a, ¬ LinkWord L s'.nodes (members lists') a → s'.mem a = s.mem a

theorem members_eq_map_listed : members lists = (listed lists).map Block.addr := by
  simp [members, listed, List.map_flatMap, Function.comp_def]

theorem listed_append : listed (A ++ B) = listed A ++ listed B := by simp [listed]

theorem listed_cons :
    listed (l :: B) = l.blocks.map (fun a => ⟨a, l.size, none⟩) ++ listed B := by simp [listed]

theorem Inserted.listed_perm (h' : Inserted bs h lists lists') :
    (listed lists').Perm (⟨h, bs, none⟩ :: listed lists) := by
  cases h' with
  | front A l B size =>
    subst size
    simp only [listed_append, listed_cons, List.map_cons]
    exact List.perm_middle
  | newList A B t =>
    simp only [listed_append, listed_cons, List.map_cons, List.map_nil]
    exact List.perm_middle

theorem Inserted.ne_nil (h' : Inserted bs h lists lists') : lists' ≠ [] := by
  cases h' <;> simp

/-! ### Order -/

theorem Between.increasing {t : ℕ} {bl : List ℕ} (between : Between bs A B)
    (sorted : Increasing (A ++ B)) : Increasing (A ++ ⟨t, bs, bl⟩ :: B) := by
  obtain ⟨hA, hB, hAB⟩ := List.pairwise_append.mp sorted
  refine List.pairwise_append.mpr
    ⟨hA, List.pairwise_cons.mpr ⟨between.2, hB⟩, fun k hk l hl => ?_⟩
  rcases List.mem_cons.mp hl with rfl | hl
  · exact between.1 k hk
  · exact hAB k hk l hl

theorem Increasing.of_sizes (sorted : Increasing (A ++ l :: B)) (size : k.size = l.size) :
    Increasing (A ++ k :: B) := by
  obtain ⟨hA, hB, hAB⟩ := List.pairwise_append.mp sorted
  obtain ⟨hlB, hB⟩ := List.pairwise_cons.mp hB
  refine List.pairwise_append.mpr
    ⟨hA, List.pairwise_cons.mpr ⟨fun j hj => size ▸ hlB j hj, hB⟩, fun i hi j hj => ?_⟩
  rcases List.mem_cons.mp hj with rfl | hj
  · exact size ▸ hAB i hi l List.mem_cons_self
  · exact hAB i hi j (List.mem_cons_of_mem l hj)

theorem Increasing.nodup_sizes (sorted : Increasing lists) :
    (lists.map FreeList.size).Nodup :=
  List.pairwise_map.mpr (sorted.imp Nat.ne_of_lt)

/-- If the sizes increase, the `flag` loop misses no list. -/
theorem Increasing.size_ne (sorted : Increasing lists) (hnone : listOf bs lists = none) :
    ∀ l ∈ lists, l.size ≠ bs := by
  induction lists with
  | nil => simp
  | cons k lists ih =>
    rw [listOf_cons] at hnone
    have hk : k.size ≠ bs := fun e => by simp [e] at hnone
    rw [if_neg hk] at hnone
    obtain ⟨hfirst, hrest⟩ := List.pairwise_cons.mp sorted
    intro l hl
    rcases List.mem_cons.mp hl with rfl | hl
    · exact hk
    · by_cases hlt : k.size > bs
      · exact ((Nat.lt_trans hlt (hfirst l hl))).ne'
      · rw [if_neg hlt] at hnone
        exact ih hrest hnone l hl

/-- The `flag` loop reads the sizes only. -/
theorem listOf_eq_none_congr (sizes : lists.map FreeList.size = lists'.map FreeList.size) :
    listOf bs lists = none ↔ listOf bs lists' = none := by
  induction lists generalizing lists' with
  | nil =>
    obtain rfl : lists' = [] := by simpa using sizes.symm
    rfl
  | cons k lists ih =>
    cases lists' with
    | nil => simp at sizes
    | cons k' lists' =>
      obtain ⟨hk, hrest⟩ : k.size = k'.size ∧ _ := by simpa using sizes
      rw [listOf_cons, listOf_cons, hk]
      split_ifs with heq hgt
      · simp
      · rfl
      · exact ih hrest

/-! ### The insertions -/

/-- The new block gets a list of its own. -/
theorem ListsOk.addListAfter_ensures (ok : ListsOk L s.mem s.nodes (A ++ B)) (hbs : bs < 2 ^ 64)
    (hin : InHeap L h) (hapart : ∀ y ∈ members (A ++ B), Apart h y) :
    Ensures (· = Fault.noNode)
      (fun s' => ∃ t, Linked L bs h (A ++ B) (A ++ ⟨t, bs, [h]⟩ :: B) s s')
      (addListAfter L bs (nodeBefore L A) h s) := by
  by_cases room : s.nodes < L.maxNodes
  · obtain ⟨m', hrun, ok', frame⟩ := ok.addNode room hbs hin hapart
    rw [hrun]
    exact .ok ⟨L.node s.nodes, rfl, rfl, rfl, Nat.le_succ _, ok', .newList A B _, frame⟩
  · have hrun : addListAfter L bs (nodeBefore L A) h s = .error .noNode := by
      simp [addListAfter, sfAddFreeList, room, bind, Except.bind]
    rw [hrun]
    exact .error rfl

theorem addListFirst_eq {t : ℕ} (first : s.mem.nodeNext L.sentinel = t) :
    addListFirst L bs t h s = addListAfter L bs L.sentinel h s := by
  rw [addListFirst, addListAfter, first]

theorem ListsOk.insertRemainder_ensures (ok : ListsOk L s.mem s.nodes lists) (pos : 0 < bs)
    (hbs : bs < 2 ^ 64) (hin : InHeap L h) (hapart : ∀ y ∈ members lists, Apart h y)
    (hnone : listOf bs lists.dropLast = none) (larger : ∃ l ∈ lists, bs < l.size) :
    Ensures (· = Fault.noNode)
      (fun s' => ∃ lists', Linked L bs h lists lists' s s' ∧ (Increasing lists → Increasing lists'))
      (insertRemainder L bs h s) := by
  obtain ⟨A, l, B, rfl, hA, hl, hfind⟩ := ok.findGap_eq pos hnone larger
  have hadd := ok.addListAfter_ensures hbs hin hapart
  simp only [insertRemainder, ok.findEqual_eq pos, hnone, hfind]
  refine Ensures.mono hadd fun s' hs' => ?_
  obtain ⟨t, linked⟩ := hs'
  refine ⟨_, linked, fun sorted => Between.increasing ⟨hA, fun j hj => ?_⟩ sorted⟩
  rcases List.mem_cons.mp hj with rfl | hj
  · exact hl
  · exact hl.trans ((increasing_split sorted).2 j hj)

theorem ListsOk.insertGrown_ensures (ok : ListsOk L s.mem s.nodes (k :: B)) (pos : 0 < bs)
    (hbs : bs < 2 ^ 64) (hin : InHeap L h) (hapart : ∀ y ∈ members (k :: B), Apart h y)
    (hnone : listOf bs (k :: B).dropLast = none) :
    Ensures (· = Fault.noNode)
      (fun s' => ∃ lists' t A C, k :: B = A ++ C ∧ lists' = A ++ ⟨t, bs, [h]⟩ :: C ∧
        Linked L bs h (k :: B) lists' s s' ∧
        (Increasing (k :: B) → k.size < bs → listOf bs (k :: B) = none → Increasing lists'))
      (insertGrown L bs h s) := by
  obtain ⟨A, C, heq, hfind, hbetween⟩ := ok.findGapOrLast_eq bs
  have hadd : Ensures _ _ (addListAfter L bs (nodeBefore L A) h s) :=
    ListsOk.addListAfter_ensures (heq ▸ ok) hbs hin (heq ▸ hapart)
  simp only [insertGrown, ok.findEqual_eq pos, hnone, hfind]
  refine Ensures.mono hadd fun s' hs' => ?_
  obtain ⟨t, linked⟩ := hs'
  refine ⟨_, t, A, C, heq.symm, rfl, heq ▸ linked, fun sorted hk hall => ?_⟩
  have hne := sorted.size_ne hall
  exact (hbetween sorted hk fun j hj => hne j (List.mem_cons_of_mem k hj)).increasing
    (heq ▸ sorted)

theorem ListsOk.insertFreed_ensures (ok : ListsOk L s.mem s.nodes lists) (nonempty : lists ≠ [])
    (hbs : bs < 2 ^ 64) (hin : InHeap L h) (hapart : ∀ y ∈ members lists, Apart h y) :
    Ensures (· = Fault.noNode)
      (fun s' => ∃ lists', Linked L bs h lists lists' s s' ∧
        (Increasing lists → (lists'.map FreeList.size).Nodup ∧
          ((∀ k, lists = [k] → k.size ≤ bs) → Increasing lists')))
      (insertFreed L bs h s) := by
  unfold insertFreed
  rw [ok.findNode_eq]
  -- a list of the size exists, or a new one is added at the place that is found
  cases hlist : listOf bs lists with
  | some l =>
    obtain ⟨hsize, A, B, rfl⟩ := listOf_eq_some hlist
    obtain ⟨ok', frame⟩ := ok.linkFront hin hapart
    refine .ok ⟨_, ⟨rfl, rfl, rfl, le_rfl, ok', .front A l B hsize, frame⟩, fun sorted => ?_⟩
    have inc : Increasing (A ++ { l with blocks := h :: l.blocks } :: B) := sorted.of_sizes rfl
    exact ⟨inc.nodup_sizes, fun _ => inc⟩
  | none =>
    obtain ⟨place, A, B, rfl, hfind, hat, hbetween⟩ := ok.findPlace_eq bs nonempty
    have hadd := ok.addListAfter_ensures hbs hin hapart
    have hpost : ∀ s', (∃ t, Linked L bs h (A ++ B) (A ++ ⟨t, bs, [h]⟩ :: B) s s') →
        ∃ lists', Linked L bs h (A ++ B) lists' s s' ∧ (Increasing (A ++ B) →
          (lists'.map FreeList.size).Nodup ∧
            ((∀ k, A ++ B = [k] → k.size ≤ bs) → Increasing lists')) := by
      rintro s' ⟨t, linked⟩
      refine ⟨_, linked, fun sorted => ?_⟩
      have hne := sorted.size_ne hlist
      refine ⟨?_, fun hsingle => ?_⟩
      · rw [List.map_append, List.map_cons, List.perm_middle.nodup_iff, List.nodup_cons,
          ← List.map_append]
        refine ⟨fun hmem => ?_, sorted.nodup_sizes⟩
        obtain ⟨l, hl, hsize⟩ := List.mem_map.mp hmem
        exact hne l hl hsize
      exact (hbetween sorted hne fun k hk =>
        lt_of_le_of_ne (hsingle k hk) (hne k (by simp [hk]))).increasing sorted
    change Ensures _ _ (findPlace L s.mem bs (s.nodes + 1) (s.mem.nodeNext L.sentinel) >>= _)
    rw [hfind]
    cases place with
    | after t =>
      obtain rfl : t = nodeBefore L A := hat
      exact hadd.mono hpost
    | before t =>
      obtain ⟨rfl, rfl⟩ : t = nodeAfter L B ∧ A = [] := hat
      change Ensures _ _ (addListFirst L bs (nodeAfter L B) h s)
      have hfirst : s.mem.nodeNext L.sentinel = nodeAfter L B := ok.nodeNext_sentinel
      rw [addListFirst_eq hfirst]
      exact hadd.mono hpost

/-! ### Unlisting a block -/

theorem Increasing.congr (sorted : Increasing lists)
    (sizes : lists'.map FreeList.size = lists.map FreeList.size) : Increasing lists' := by
  have hsorted : (lists.map FreeList.size).Pairwise (· < ·) := List.pairwise_map.mpr sorted
  rw [← sizes] at hsorted
  exact List.pairwise_map.mp hsorted

/-- Unlinking a listed block takes it off its list. -/
theorem ListsOk.unlist {m : Mem} {c : Block} (ok : ListsOk L m n lists) (hc : c ∈ listed lists) :
    ∃ lists₀, ListsOk L (m.unlink c.addr) n lists₀ ∧ (listed lists).Perm (c :: listed lists₀) ∧
      lists₀.map FreeList.size = lists.map FreeList.size ∧
      ∀ a, ¬ LinkWord L n (members lists₀) a → m.unlink c.addr a = m a := by
  obtain ⟨l, hl, hcl⟩ := List.mem_flatMap.mp hc
  obtain ⟨x, hx, rfl⟩ := List.mem_map.mp hcl
  obtain ⟨A, B, rfl⟩ := List.append_of_mem hl
  obtain ⟨pre, post, hblocks⟩ := List.append_of_mem hx
  obtain ⟨ok', frame⟩ := ok.unlink hblocks
  refine ⟨_, ok', ?_, by simp, frame⟩
  simp only [listed_append, listed_cons, hblocks, List.map_append, List.map_cons, List.append_assoc,
    List.cons_append]
  rw [← List.append_assoc, ← List.append_assoc]
  exact List.perm_middle

/-- The links of a listed block lead to positions of its ring. -/
theorem ListsOk.unlink_targets {m : Mem} {c : Block} (ok : ListsOk L m n lists)
    (hc : c ∈ listed lists) :
    LinkWord L n (members lists) (m.linksNext c.addr + 16) ∧
      LinkWord L n (members lists) (m.linksPrev c.addr + 8) := by
  obtain ⟨l, hl, hcl⟩ := List.mem_flatMap.mp hc
  obtain ⟨x, hx, rfl⟩ := List.mem_map.mp hcl
  obtain ⟨pre, post, hblocks⟩ := List.append_of_mem hx
  have ring := ok.blocks_ring l hl
  rw [hblocks] at ring
  have hnode := ok.node_mem l hl
  have hhead := nodeHead_eq l.node
  have hnext : m.linksNext x = after (nodeHead l.node) post := ring.next_member
  have hprev : m.linksPrev x = before (nodeHead l.node) pre := ring.prev_member
  -- both neighbours are the head or members of the ring
  have hmem : ∀ y ∈ nodeHead l.node :: l.blocks, ∀ o, o = 8 ∨ o = 16 →
      LinkWord L n (members lists) (y + o) := by
    intro y hy o ho
    rcases List.mem_cons.mp hy with rfl | hy
    · exact Or.inl ⟨l.node, hnode, by omega, by omega⟩
    · exact Or.inr ⟨y, List.mem_flatMap.mpr ⟨l, hl, hy⟩, by omega⟩
  simp only [hnext, hprev]
  refine ⟨hmem _ ?_ 16 (Or.inr rfl), hmem _ ?_ 8 (Or.inl rfl)⟩
  · have := after_mem_cons (nodeHead l.node) post
    rw [hblocks]
    simp only [List.mem_cons, List.mem_append] at this ⊢
    tauto
  · have := before_mem (nodeHead l.node) pre
    rw [hblocks]
    simp only [List.mem_cons, List.mem_append] at this ⊢
    tauto

end CLanguage.Sfmm
