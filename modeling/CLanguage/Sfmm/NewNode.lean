import CLanguage.Sfmm.Search

/-!
# Adding a node to the list of free lists

`sf_add_free_list` links a new node in before a given one, and its callers then
set the links on the other side again and put one block on the new list. The
net effect is that of linking one node into a closed ring.
-/

namespace CLanguage.Sfmm

open Lib

variable {L : Layout}

/-- Two list nodes do not overlap. -/
def NodeApart (t u : ℕ) : Prop := t + 48 ≤ u ∨ u + 48 ≤ t

/-- A list node does not overlap the header and links of a block. -/
def BlockApart (t h : ℕ) : Prop := t + 48 ≤ h ∨ h + 32 ≤ t

/-- The memory after a new node `new` has been linked in between `t` and `u`. -/
def withNode (m : Mem) (bs new t u : ℕ) : Mem :=
  let m := (m.setPtr new bs).setLinksPrev (nodeHead new) (nodeHead new)
  let m := (m.setLinksNext (nodeHead new) (nodeHead new)).setNodeNext new u
  let m := ((m.setNodePrev new t).setNodeNext t new).setNodePrev u new
  (m.setNodeNext t new).setNodePrev new t

section WithNode

variable {m : Mem} {bs new t u h : ℕ}

theorem addListAfter_eq {s : State} (room : s.nodes < L.maxNodes)
    (hprev : s.mem.nodePrev (s.mem.nodeNext t) = t) (htlt : t < 2 ^ 64)
    (hnode : L.node s.nodes + 48 ≤ 2 ^ 64)
    (hu : NodeApart (L.node s.nodes) (s.mem.nodeNext t)) :
    addListAfter L bs t h s = .ok { s with
      mem := linkAlone (withNode s.mem bs (L.node s.nodes) t (s.mem.nodeNext t))
        (L.node s.nodes) h
      nodes := s.nodes + 1 } := by
  unfold NodeApart at hu
  simp only [addListAfter, sfAddFreeList, room, if_true]
  generalize hnew : L.node s.nodes = new at *
  generalize hnext : s.mem.nodeNext t = u at *
  have hhead := nodeHead_eq new
  have e1 : ((s.mem.setPtr new bs).setLinksPrev (nodeHead new) (nodeHead new)).linksPrev
      (nodeHead new) = nodeHead new := Mem.ptr_setPtr_self _ _ (by omega)
  have e2 : ((((s.mem.setPtr new bs).setLinksPrev (nodeHead new) (nodeHead new)).setLinksNext
      (nodeHead new) (nodeHead new)).setNodeNext new u).nodePrev u = t := by
    rw [← hprev]
    simp (disch := omega) only [Mem.ptr_setPtr_of_ne]
  have e3 : (((((s.mem.setPtr new bs).setLinksPrev (nodeHead new) (nodeHead new)).setLinksNext
      (nodeHead new) (nodeHead new)).setNodeNext new u).setNodePrev new t).nodePrev new = t :=
    Mem.ptr_setPtr_self _ _ htlt
  simp only [e1, e2, e3]
  rfl

/-- `sf_malloc` sets all four links of its first list; two of them stand already. -/
theorem firstList_eq {s : State} (hnext : s.mem.nodeNext L.sentinel = L.sentinel)
    (hprev : s.mem.nodePrev L.sentinel = L.sentinel) (hlt : L.sentinel < 2 ^ 64)
    (hnode : L.node s.nodes + 48 ≤ 2 ^ 64) (hu : NodeApart (L.node s.nodes) L.sentinel) :
    (do
      let (new, s) ← sfAddFreeList L bs L.sentinel s
      let m := s.mem.setNodeNext L.sentinel new
      let m := m.setNodePrev L.sentinel new
      let m := m.setNodeNext new L.sentinel
      let m := m.setNodePrev new L.sentinel
      return { s with mem := linkAlone m new h }) = addListAfter L bs L.sentinel h s := by
  unfold NodeApart at hu
  rw [addListAfter, hnext]
  by_cases room : s.nodes < L.maxNodes
  · simp only [sfAddFreeList, room, if_true, pure, bind, Except.bind, Except.pure]
    generalize L.node s.nodes = new at *
    have hhead := nodeHead_eq new
    have e1 : ((s.mem.setPtr new bs).setLinksPrev (nodeHead new) (nodeHead new)).linksPrev
        (nodeHead new) = nodeHead new := Mem.ptr_setPtr_self _ _ (by omega)
    have e2 : ((((s.mem.setPtr new bs).setLinksPrev (nodeHead new) (nodeHead new)).setLinksNext
        (nodeHead new) (nodeHead new)).setNodeNext new L.sentinel).nodePrev L.sentinel =
        L.sentinel := by
      rw [← hprev]
      simp (disch := omega) only [Mem.ptr_setPtr_of_ne, hprev]
    have e3 : (((((s.mem.setPtr new bs).setLinksPrev (nodeHead new) (nodeHead new)).setLinksNext
        (nodeHead new) (nodeHead new)).setNodeNext new L.sentinel).setNodePrev new
          L.sentinel).nodePrev new = L.sentinel := Mem.ptr_setPtr_self _ _ hlt
    -- the second round of stores writes what is there already
    simp only [e1, e2, e3]
    have hprevWord : ((((((s.mem.setPtr new bs).setLinksPrev (nodeHead new) (nodeHead new)).setLinksNext
        (nodeHead new) (nodeHead new)).setNodeNext new L.sentinel).setNodePrev new
          L.sentinel).setNodeNext L.sentinel new).setNodePrev L.sentinel new (L.sentinel + 40) =
        Word.ofNat new := Mem.setPtr_self _ _ _
    have hnextWord : ((((((s.mem.setPtr new bs).setLinksPrev (nodeHead new) (nodeHead new)).setLinksNext
        (nodeHead new) (nodeHead new)).setNodeNext new L.sentinel).setNodePrev new
          L.sentinel).setNodeNext L.sentinel new).setNodePrev L.sentinel new (new + 32) =
        Word.ofNat L.sentinel := by
      simp (disch := omega) only [Mem.setPtr_of_ne, Mem.setPtr_self]
    generalize ((((((s.mem.setPtr new bs).setLinksPrev (nodeHead new) (nodeHead new)).setLinksNext
        (nodeHead new) (nodeHead new)).setNodeNext new L.sentinel).setNodePrev new
          L.sentinel).setNodeNext L.sentinel new).setNodePrev L.sentinel new = w at *
    have h1 : (w.setNodeNext L.sentinel new).setNodePrev L.sentinel new =
        w.setNodeNext L.sentinel new :=
      Mem.setPtr_eq_self _ _ ((Mem.setPtr_of_ne _ _ _ _ (by omega)).trans hprevWord)
    have h2 : (w.setNodeNext L.sentinel new).setNodeNext new L.sentinel =
        w.setNodeNext L.sentinel new :=
      Mem.setPtr_eq_self _ _ ((Mem.setPtr_of_ne _ _ _ _ (by omega)).trans hnextWord)
    rw [h1, h2]
  · simp [sfAddFreeList, room, bind, Except.bind]

/-- The links after `withNode`: those of a node between `t` and `u`. -/
theorem withNode_fields (bs : ℕ) (hnt : NodeApart new t) (hnu : NodeApart new u)
    (htu : t = u ∨ NodeApart t u) (hnew : new + 48 ≤ 2 ^ 64) (ht : t < 2 ^ 64) (hu : u < 2 ^ 64)
    (hbs : bs < 2 ^ 64) :
    (withNode m bs new t u).nodeSize new = bs ∧ (withNode m bs new t u).nodeNext new = u ∧
      (withNode m bs new t u).nodePrev new = t ∧ (withNode m bs new t u).nodeNext t = new ∧
      (withNode m bs new t u).nodePrev u = new := by
  unfold NodeApart at *
  have hhead := nodeHead_eq new
  have hwords : u + 40 ≠ t + 32 := by omega
  refine ⟨?_, ?_, ?_, ?_, ?_⟩ <;>
    simp (disch := omega) only [withNode, Mem.ptr_setPtr_of_ne, Mem.ptr_setPtr_self]

theorem withNode_of_ne {a : ℕ} (ha : a < new ∨ new + 48 ≤ a) (ht : a ≠ t + 32) (hu : a ≠ u + 40) :
    withNode m bs new t u a = m a := by
  have hhead := nodeHead_eq new
  simp (disch := omega) only [withNode, Mem.setPtr_of_ne]

end WithNode

section NodeAdded

variable {m m' : Mem} {n bs t u h : ℕ} {A B : List FreeList}

theorem isNode_new (L : Layout) (n : ℕ) : IsNode L (n + 1) (L.node n) :=
  ⟨n, Nat.lt_succ_self n, rfl⟩

theorem nodeApart_new (room : n < L.maxNodes) (ht : IsNode L n t) : NodeApart (L.node n) t := by
  obtain ⟨i, hi, rfl⟩ := ht
  exact L.node_apart _ room i (hi.trans room) (by omega)

theorem IsNode.blockApart (ht : IsNode L n t) (hn : n ≤ L.maxNodes) (hin : InHeap L h) :
    BlockApart t h := by
  have hout := ht.outside hn
  unfold InHeap at hin
  unfold BlockApart
  omega

/-- What becomes of the memory when node `n` is linked in between the nodes `t` and `u` and
gets the one block `h`. -/
structure NodeAdded (L : Layout) (m m' : Mem) (n bs t u h : ℕ) : Prop where
  size : m'.nodeSize (L.node n) = bs
  next : m'.nodeNext (L.node n) = u
  prev : m'.nodePrev (L.node n) = t
  next_before : m'.nodeNext t = L.node n
  prev_after : m'.nodePrev u = L.node n
  ring : BlockRing m' (nodeHead (L.node n)) [h]
  /-- the fields of the old nodes, but for the two links to the new one -/
  fields : ∀ t', IsNode L n t' → ∀ o < 48, (t' = t → o ≠ 32) → (t' = u → o ≠ 40) →
    m'.ptr (t' + o) = m.ptr (t' + o)
  /-- the links of the other blocks -/
  links : ∀ x, InHeap L x → Apart h x → ∀ o, o = 8 ∨ o = 16 → m'.ptr (x + o) = m.ptr (x + o)
  frame : ∀ a, (∀ t', IsNode L (n + 1) t' → a < t' ∨ t' + 48 ≤ a) → a ≠ h + 8 → a ≠ h + 16 →
    m' a = m a

theorem nodeAdded (room : n < L.maxNodes) (ht : IsNode L n t) (hu : IsNode L n u)
    (hbs : bs < 2 ^ 64) (hin : InHeap L h) :
    NodeAdded L m (linkAlone (withNode m bs (L.node n) t u) (L.node n) h) n bs t u h := by
  have hnew : ∀ t', IsNode L n t' → NodeApart (L.node n) t' := fun _ => nodeApart_new room
  have hheap : ∀ t', IsNode L (n + 1) t' → BlockApart t' h := fun _ ht' => ht'.blockApart room hin
  have htu : t = u ∨ NodeApart t u :=
    (eq_or_ne t u).imp_right fun hne => ht.apart room.le hu hne
  have htlt := ht.le room.le
  have hult := hu.le room.le
  have hhead := nodeHead_eq (L.node n)
  have hself := hheap _ (isNode_new L n)
  unfold BlockApart at hself
  have hspaced : Spaced (nodeHead (L.node n) :: [h]) :=
    spaced_ring room (isNode_new L n) (by simpa using hin) (by simp)
  obtain ⟨hsize, hnext, hprev, hbefore, hafter⟩ := withNode_fields bs (m := m) (hnew t ht)
    (hnew u hu) htu ((isNode_new L n).le room) (by omega) (by omega) hbs
  obtain ⟨hring, hagree⟩ := linkAlone_ring (m := withNode m bs (L.node n) t u) hspaced (by omega)
  have hframe : ∀ a, (a < L.node n ∨ L.node n + 48 ≤ a) → a ≠ t + 32 → a ≠ u + 40 →
      withNode m bs (L.node n) t u a = m a := fun a => withNode_of_ne
  generalize withNode m bs (L.node n) t u = w at *
  generalize linkAlone w (L.node n) h = m' at *
  -- linking `h` leaves the fields of the nodes alone
  have hnewField : ∀ o, o = 0 ∨ o = 32 ∨ o = 40 → m'.ptr (L.node n + o) = w.ptr (L.node n + o) :=
    fun o ho => Mem.ptr_congr (hagree _ (by omega) (by omega) (by omega) (by omega))
  have hlinked : ∀ t', IsNode L n t' → ∀ o < 48, m'.ptr (t' + o) = w.ptr (t' + o) := by
    intro t' ht' o ho
    have hapartNew := hnew t' ht'
    have hapartHeap := hheap t' ht'.succ
    unfold NodeApart at hapartNew
    unfold BlockApart at hapartHeap
    exact Mem.ptr_congr (hagree _ (by omega) (by omega) (by omega) (by omega))
  refine ⟨(hnewField 0 (by simp)).trans hsize, (hnewField 32 (by simp)).trans hnext,
    (hnewField 40 (by simp)).trans hprev, (hlinked t ht 32 (by omega)).trans hbefore,
    (hlinked u hu 40 (by omega)).trans hafter, hring, fun t' ht' o ho h32 h40 => ?_,
    fun x hx hapart o ho => ?_, fun a hnot h8 h16 => ?_⟩
  · have hapartNew := hnew t' ht'
    unfold NodeApart at hapartNew
    rw [hlinked t' ht' o ho]
    refine Mem.ptr_congr (hframe _ (by omega) (fun e => ?_) fun e => ?_)
    · rcases eq_or_ne t' t with rfl | hne
      · exact h32 rfl (by omega)
      · have := ht'.apart room.le ht hne
        omega
    · rcases eq_or_ne t' u with rfl | hne
      · exact h40 rfl (by omega)
      · have := ht'.apart room.le hu hne
        omega
  · -- the block lies in the heap, and no node does
    have hout := (isNode_new L n).outside room
    have htout := ht.outside room.le
    have huout := hu.outside room.le
    unfold InHeap at hx
    unfold Apart at hapart
    refine Mem.ptr_congr ((hagree _ ?_ ?_ ?_ ?_).trans (hframe _ ?_ ?_ ?_)) <;> omega
  · have hanew := hnot _ (isNode_new L n)
    have hat := hnot t ht.succ
    have hau := hnot u hu.succ
    exact (hagree a (by omega) (by omega) h8 h16).trans
      (hframe a (by omega) (by omega) (by omega))

/-- The new list stands between the others. -/
theorem ListsOk.of_nodeAdded (ok : ListsOk L m n (A ++ B)) (room : n < L.maxNodes)
    (hin : InHeap L h) (hapart : ∀ y ∈ members (A ++ B), Apart h y)
    (added : NodeAdded L m m' n bs (nodeBefore L A) (nodeAfter L B) h) :
    ListsOk L m' (n + 1) (A ++ ⟨L.node n, bs, [h]⟩ :: B) := by
  have hring : ClosedRing m.nodeNext m.nodePrev L.sentinel
      (A.map FreeList.node ++ B.map FreeList.node) := by
    rw [← List.map_append]
    exact ok.ring
  have hnodes : ∀ t ∈ L.sentinel :: (A.map FreeList.node ++ B.map FreeList.node),
      IsNode L n t := fun t ht => ok.isNode (by rwa [List.map_append])
  -- the links of the listed blocks are kept, as these lie apart from `h`
  have hlinks : ∀ k ∈ A ++ B, ∀ x ∈ k.blocks, ∀ o, o = 8 ∨ o = 16 →
      m'.ptr (x + o) = m.ptr (x + o) := by
    intro k hk x hx
    have hmem : x ∈ members (A ++ B) := List.mem_flatMap.mpr ⟨k, hk, hx⟩
    exact added.links x (ok.in_heap x hmem) (hapart x hmem)
  have hmem : ∀ k ∈ A ++ ⟨L.node n, bs, [h]⟩ :: B, k = ⟨L.node n, bs, [h]⟩ ∨ k ∈ A ++ B := by
    intro k hk
    simp only [List.mem_append, List.mem_cons] at hk ⊢
    tauto
  have hperm : (members (A ++ ⟨L.node n, bs, [h]⟩ :: B)).Perm (h :: members (A ++ B)) := by
    simp only [members, List.flatMap_append, List.flatMap_cons]
    exact List.perm_middle
  exact {
    nodes_le := room
    length_lt := by
      have := ok.length_lt
      simp only [List.length_append, List.length_cons] at this ⊢
      omega
    node_mem := fun k hk => by
      rcases hmem k hk with rfl | hk
      · exact isNode_new L n
      · exact (ok.node_mem k hk).succ
    ring := by
      rw [List.map_append, List.map_cons]
      refine hring.insert (fun hmem => ?_) added.next_before added.next added.prev added.prev_after
        (fun t ht hne => ?_) fun t ht hne => ?_
      · have hself : NodeApart (L.node n) (L.node n) := nodeApart_new room (hnodes _ hmem)
        unfold NodeApart at hself
        omega
      · exact added.fields t (hnodes t ht) 32 (by omega) (fun e => absurd e hne) (by omega)
      · exact added.fields t (hnodes t ht) 40 (by omega) (by omega) (fun e => absurd e hne)
    sentinel_size := (added.fields _ ok.isNode_sentinel 0 (by omega) (by omega) (by omega)).trans
      ok.sentinel_size
    node_size := fun k hk => by
      rcases hmem k hk with rfl | hk
      · exact added.size
      · exact (added.fields _ (ok.node_mem k hk) 0 (by omega) (by omega) (by omega)).trans
          (ok.node_size k hk)
    blocks_ring := fun k hk => by
      rcases hmem k hk with rfl | hk
      · exact added.ring
      · refine (ok.blocks_ring k hk).congr (fun a ha => ?_) fun a ha =>
          hlinks k hk a ha 16 (Or.inr rfl)
        rcases List.mem_cons.mp ha with rfl | ha
        · exact added.fields _ (ok.node_mem k hk) 16 (by omega) (by omega) (by omega)
        · exact hlinks k hk a ha 8 (Or.inl rfl)
    apart := by
      rw [hperm.pairwise_iff Apart.symm]
      exact List.pairwise_cons.mpr ⟨hapart, ok.apart⟩
    in_heap := fun y hy => by
      rcases List.mem_cons.mp (hperm.subset hy) with rfl | hy
      · exact hin
      · exact ok.in_heap y hy }

end NodeAdded

variable {s : State} {bs h : ℕ} {A B : List FreeList}

/-- `addListAfter` inserts a list with the one block `h` behind the node `t`. -/
theorem ListsOk.addNode (ok : ListsOk L s.mem s.nodes (A ++ B)) (room : s.nodes < L.maxNodes)
    (hbs : bs < 2 ^ 64) (hin : InHeap L h) (hapart : ∀ y ∈ members (A ++ B), Apart h y) :
    ∃ m', addListAfter L bs (nodeBefore L A) h s =
        .ok { s with mem := m', nodes := s.nodes + 1 } ∧
      ListsOk L m' (s.nodes + 1) (A ++ ⟨L.node s.nodes, bs, [h]⟩ :: B) ∧
      ∀ a, ¬ LinkWord L (s.nodes + 1) (members (A ++ ⟨L.node s.nodes, bs, [h]⟩ :: B)) a →
        m' a = s.mem a := by
  have hring : ClosedRing s.mem.nodeNext s.mem.nodePrev L.sentinel
      (A.map FreeList.node ++ B.map FreeList.node) := by
    rw [← List.map_append]
    exact ok.ring
  have hnodes : ∀ t ∈ L.sentinel :: (A.map FreeList.node ++ B.map FreeList.node),
      IsNode L s.nodes t := fun t ht => ok.isNode (by rwa [List.map_append])
  have ht : IsNode L s.nodes (nodeBefore L A) :=
    hnodes _ (List.mem_append_left _ (before_mem _ _))
  have hu : IsNode L s.nodes (nodeAfter L B) := by
    refine hnodes _ ?_
    have := after_mem L.sentinel (B.map FreeList.node)
    simp only [List.mem_append, List.mem_cons] at this ⊢
    tauto
  have hnext : s.mem.nodeNext (nodeBefore L A) = nodeAfter L B := hring.toRing.next_before
  have hprev : s.mem.nodePrev (nodeAfter L B) = nodeBefore L A := hring.prev_after
  have htlt := ht.le ok.nodes_le
  have added := nodeAdded (m := s.mem) room ht hu hbs hin
  refine ⟨_, addListAfter_eq room ?_ (by omega) ((isNode_new L s.nodes).le room) ?_, ?_⟩
  · rw [hnext, hprev]
  · rw [hnext]
    exact nodeApart_new room hu
  rw [hnext]
  refine ⟨ok.of_nodeAdded room hin hapart added, fun a ha => ?_⟩
  have hmem : h ∈ members (A ++ ⟨L.node s.nodes, bs, [h]⟩ :: B) := by
    simp [members]
  -- a word that is no link word belongs to no node and is no link of `h`
  refine added.frame a (fun t ht => ?_) (fun e => ?_) fun e => ?_
  · by_contra hlt
    exact ha (Or.inl ⟨t, ht, by omega, by omega⟩)
  · exact ha (Or.inr ⟨h, hmem, Or.inl e⟩)
  · exact ha (Or.inr ⟨h, hmem, Or.inr e⟩)

end CLanguage.Sfmm
