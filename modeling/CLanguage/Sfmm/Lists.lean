import CLanguage.Sfmm.Links
import Mathlib.Data.List.Pairwise

/-!
# The list of free lists

`ListsOk` states that memory holds a given list of free lists: the nodes form a
closed ring through the sentinel, and each node's blocks form the ring of its
dummy header. It reads the words of `LinkWord` only: the fields of the list
nodes, and the two words after the header of each listed block.

## Main results

* `ListsOk.congr` — what else changes in memory does not matter
* `ListsOk.update` — editing the ring of one node
* `ListsOk.addNode` — a new node with one block, at any position
-/

namespace CLanguage.Sfmm

open Lib

/-- A node of the list of free lists and the blocks that its ring visits. -/
structure FreeList where
  node : ℕ
  size : ℕ
  blocks : List ℕ
  deriving DecidableEq

/-- All listed blocks. -/
abbrev members (lists : List FreeList) : List ℕ := lists.flatMap FreeList.blocks

/-- Two free blocks leave room for each other's header, links and footer. -/
def Apart (x y : ℕ) : Prop := x + 32 ≤ y ∨ y + 32 ≤ x

theorem Apart.symm {x y : ℕ} (h : Apart x y) : Apart y x := Or.symm h

instance : Std.Symm Apart := ⟨fun _ _ => Apart.symm⟩

theorem Apart.ne {x y : ℕ} (h : Apart x y) : x ≠ y := by
  unfold Apart at h
  omega

variable (L : Layout)

/-- One of the first `n` list nodes. -/
def IsNode (n t : ℕ) : Prop := ∃ i < n, t = L.node i

/-- The words that hold node fields or the links of the blocks `frees`. -/
def LinkWord (n : ℕ) (frees : List ℕ) (a : ℕ) : Prop :=
  (∃ t, IsNode L n t ∧ t ≤ a ∧ a < t + 48) ∨ ∃ y ∈ frees, a = y + 8 ∨ a = y + 16

/-- A block that can be put on a list lies inside the heap region. -/
def InHeap (y : ℕ) : Prop := L.start ≤ y ∧ y + 32 ≤ L.top

/-- Memory `m` holds the list nodes of `lists`, made of the first `n` nodes. -/
structure NodesOk (m : Mem) (n : ℕ) (lists : List FreeList) : Prop where
  nodes_le : n ≤ L.maxNodes
  length_lt : lists.length < n
  node_mem : ∀ l ∈ lists, IsNode L n l.node
  ring : ClosedRing m.nodeNext m.nodePrev L.sentinel (lists.map FreeList.node)
  sentinel_size : m.nodeSize L.sentinel = 0
  node_size : ∀ l ∈ lists, m.nodeSize l.node = l.size

/-- Memory `m` holds the free lists `lists`, made of the first `n` nodes. -/
structure ListsOk (m : Mem) (n : ℕ) (lists : List FreeList) : Prop
    extends NodesOk L m n lists where
  blocks_ring : ∀ l ∈ lists, BlockRing m (nodeHead l.node) l.blocks
  apart : (members lists).Pairwise Apart
  in_heap : ∀ y ∈ members lists, InHeap L y

variable {L} {m m' : Mem} {n t t' y : ℕ} {lists A B : List FreeList} {l l' : FreeList}

/-! ### Addresses -/

theorem IsNode.apart (hn : n ≤ L.maxNodes) (h : IsNode L n t) (h' : IsNode L n t')
    (hne : t ≠ t') : t + 48 ≤ t' ∨ t' + 48 ≤ t := by
  obtain ⟨i, hi, rfl⟩ := h
  obtain ⟨j, hj, rfl⟩ := h'
  exact L.node_apart i (hi.trans_le hn) j (hj.trans_le hn) fun e => hne (by rw [e])

theorem IsNode.outside (hn : n ≤ L.maxNodes) (h : IsNode L n t) :
    t + 48 ≤ L.start ∨ L.top ≤ t := by
  obtain ⟨i, hi, rfl⟩ := h
  exact L.node_outside i (hi.trans_le hn)

theorem IsNode.le (hn : n ≤ L.maxNodes) (h : IsNode L n t) : t + 48 ≤ 2 ^ 64 := by
  obtain ⟨i, hi, rfl⟩ := h
  exact L.node_le i (hi.trans_le hn)

theorem IsNode.mono {n' : ℕ} (h : IsNode L n t) (hn : n ≤ n') : IsNode L n' t :=
  h.imp fun _ hi => ⟨hi.1.trans_le hn, hi.2⟩

theorem IsNode.succ (h : IsNode L n t) : IsNode L (n + 1) t := h.mono (Nat.le_succ n)

theorem InHeap.lt (h : InHeap L y) : y + 32 ≤ 2 ^ 64 := h.2.trans L.top_le

theorem NodesOk.isNode_sentinel (ok : NodesOk L m n lists) : IsNode L n L.sentinel :=
  ⟨0, (Nat.zero_le _).trans_lt ok.length_lt, rfl⟩

/-- The sentinel and the nodes of the lists are list nodes. -/
theorem NodesOk.isNode (ok : NodesOk L m n lists)
    (ht : t ∈ L.sentinel :: lists.map FreeList.node) : IsNode L n t := by
  rcases List.mem_cons.mp ht with rfl | ht
  · exact ok.isNode_sentinel
  · obtain ⟨l, hl, rfl⟩ := List.mem_map.mp ht
    exact ok.node_mem l hl

theorem ListsOk.apart_of_ne (ok : ListsOk L m n lists) {x y : ℕ} (hx : x ∈ members lists)
    (hy : y ∈ members lists) (hne : x ≠ y) : Apart x y :=
  ok.apart.forall hx hy hne

/-! ### Frame -/

/-- The list nodes are kept by any change that spares their sizes and links. -/
theorem NodesOk.congr (ok : NodesOk L m n lists) (agree : ∀ t, IsNode L n t →
    ∀ o, o = 0 ∨ o = 32 ∨ o = 40 → m'.ptr (t + o) = m.ptr (t + o)) : NodesOk L m' n lists where
  nodes_le := ok.nodes_le
  length_lt := ok.length_lt
  node_mem := ok.node_mem
  ring := ok.ring.congr (fun t ht => agree t (ok.isNode ht) 32 (by simp)) fun t ht =>
    agree t (ok.isNode ht) 40 (by simp)
  sentinel_size := (agree _ ok.isNode_sentinel 0 (by simp)).trans ok.sentinel_size
  node_size l hl := (agree _ (ok.node_mem l hl) 0 (by simp)).trans (ok.node_size l hl)

/-- The lists are kept by any change that spares the link words. The heads' own `prev` is free. -/
theorem ListsOk.congr_heads (ok : ListsOk L m n lists)
    (agree : ∀ a, LinkWord L n (members lists) a → (∀ l ∈ lists, a ≠ nodeHead l.node + 16) →
      m'.ptr a = m.ptr a) : ListsOk L m' n lists := by
  -- `prev` of a head lies at offset 24 of its node
  have field : ∀ t, IsNode L n t → ∀ o < 48, o ≠ 24 → m'.ptr (t + o) = m.ptr (t + o) := by
    intro t ht o ho h24
    refine agree _ (Or.inl ⟨t, ht, by omega, by omega⟩) fun l hl e => ?_
    have hhead := nodeHead_eq l.node
    rcases eq_or_ne t l.node with rfl | hne
    · omega
    · have := ht.apart ok.nodes_le (ok.node_mem l hl) hne
      omega
  have link : ∀ l ∈ lists, ∀ y ∈ l.blocks, ∀ o, o = 8 ∨ o = 16 →
      m'.ptr (y + o) = m.ptr (y + o) := by
    intro l hl y hy o ho
    have hmem : y ∈ members lists := List.mem_flatMap.mpr ⟨l, hl, hy⟩
    refine agree _ (Or.inr ⟨y, hmem, by omega⟩) fun k hk e => ?_
    have hin := ok.in_heap y hmem
    have hout := (ok.node_mem k hk).outside ok.nodes_le
    have hhead := nodeHead_eq k.node
    unfold InHeap at hin
    omega
  exact {
    ok with
    toNodesOk := ok.toNodesOk.congr fun t ht o ho => field t ht o (by omega) (by omega)
    blocks_ring := fun l hl => by
      refine (ok.blocks_ring l hl).congr (fun a ha => ?_) fun a ha => link l hl a ha 16 (Or.inr rfl)
      rcases List.mem_cons.mp ha with rfl | ha
      · exact field _ (ok.node_mem l hl) 16 (by omega) (by omega)
      · exact link l hl a ha 8 (Or.inl rfl) }

/-- The lists are kept by any change that spares the link words. -/
theorem ListsOk.congr (ok : ListsOk L m n lists)
    (agree : ∀ a, LinkWord L n (members lists) a → m' a = m a) : ListsOk L m' n lists :=
  ok.congr_heads fun a ha _ => Mem.ptr_congr (agree a ha)

/-! ### Editing one ring -/

theorem members_split : members (A ++ l :: B) = members A ++ (l.blocks ++ members B) := by
  simp [members]

/-- Blocks of different nodes are apart. -/
theorem ListsOk.apart_other (ok : ListsOk L m n (A ++ l :: B)) {k : FreeList}
    (hk : k ∈ A ++ B) {x y : ℕ} (hx : x ∈ k.blocks) (hy : y ∈ l.blocks) : Apart x y := by
  have h := ok.apart
  rw [members_split, List.pairwise_append, List.pairwise_append] at h
  obtain ⟨-, ⟨-, -, hlB⟩, hA⟩ := h
  rcases List.mem_append.mp hk with hk | hk
  · exact hA x (List.mem_flatMap.mpr ⟨k, hk, hx⟩) y (List.mem_append_left _ hy)
  · exact (hlB y hy x (List.mem_flatMap.mpr ⟨k, hk, hx⟩)).symm

theorem ListsOk.node_ne_other (ok : ListsOk L m n (A ++ l :: B)) {k : FreeList}
    (hk : k ∈ A ++ B) : k.node ≠ l.node := by
  have h := (List.nodup_cons.mp ok.ring.nodup).2
  rw [List.map_append, List.map_cons, List.perm_middle.nodup_iff, List.nodup_cons,
    ← List.map_append] at h
  exact fun e => h.1 (e ▸ List.mem_map_of_mem hk)

/-- Replace the ring of one node, changing only the links of its old and new positions. -/
theorem ListsOk.update (ok : ListsOk L m n (A ++ l :: B)) (hnode : l'.node = l.node)
    (hsize : l'.size = l.size) (ring : BlockRing m' (nodeHead l.node) l'.blocks)
    (apart : (members (A ++ l' :: B)).Pairwise Apart) (in_heap : ∀ y ∈ l'.blocks, InHeap L y)
    (agree : ∀ a, a ≠ l.node + 16 → a ≠ l.node + 24 →
      (∀ y ∈ l.blocks ++ l'.blocks, a ≠ y + 8 ∧ a ≠ y + 16) → m' a = m a) :
    ListsOk L m' n (A ++ l' :: B) := by
  have hl : l ∈ A ++ l :: B := by simp
  have hln := ok.node_mem l hl
  have hold : ∀ y ∈ l.blocks ++ l'.blocks, InHeap L y := by
    intro y hy
    rcases List.mem_append.mp hy with hy | hy
    · exact ok.in_heap y (List.mem_flatMap.mpr ⟨l, hl, hy⟩)
    · exact in_heap y hy
  -- a field of a list node, the links of the edited dummy header apart
  have field : ∀ t, IsNode L n t → ∀ o < 48, (t = l.node → o ≠ 16 ∧ o ≠ 24) →
      m'.ptr (t + o) = m.ptr (t + o) := by
    intro t ht o ho hedit
    have hout := ht.outside ok.nodes_le
    refine Mem.ptr_congr (agree _ ?_ ?_ fun y hy => ?_)
    · rcases eq_or_ne t l.node with rfl | hne
      · have := (hedit rfl).1
        omega
      · have := ht.apart ok.nodes_le hln hne
        omega
    · rcases eq_or_ne t l.node with rfl | hne
      · have := (hedit rfl).2
        omega
      · have := ht.apart ok.nodes_le hln hne
        omega
    · have := hold y hy
      unfold InHeap at this
      omega
  have hmap : (A ++ l' :: B).map FreeList.node = (A ++ l :: B).map FreeList.node := by
    simp [hnode]
  have hmem : ∀ k ∈ A ++ l' :: B, k = l' ∨ k ∈ A ++ B := by
    intro k hk
    simp only [List.mem_append, List.mem_cons] at hk ⊢
    tauto
  have hmem' : ∀ k ∈ A ++ B, k ∈ A ++ l :: B := by
    intro k hk
    simp only [List.mem_append, List.mem_cons] at hk ⊢
    tauto
  have link : ∀ k ∈ A ++ B, ∀ x ∈ k.blocks, ∀ o, o = 8 ∨ o = 16 →
      m'.ptr (x + o) = m.ptr (x + o) := by
    intro k hk x hx o ho
    have hin := ok.in_heap x (List.mem_flatMap.mpr ⟨k, hmem' k hk, hx⟩)
    have hout := hln.outside ok.nodes_le
    unfold InHeap at hin
    refine Mem.ptr_congr (agree _ (by omega) (by omega) fun y hy => ?_)
    have hapart : Apart x y := by
      rcases List.mem_append.mp hy with hy | hy
      · exact ok.apart_other hk hx hy
      · rw [members_split, List.pairwise_append, List.pairwise_append] at apart
        obtain ⟨-, ⟨-, -, hlB⟩, hA⟩ := apart
        rcases List.mem_append.mp hk with hk | hk
        · exact hA x (List.mem_flatMap.mpr ⟨k, hk, hx⟩) y (List.mem_append_left _ hy)
        · exact (hlB y hy x (List.mem_flatMap.mpr ⟨k, hk, hx⟩)).symm
    unfold Apart at hapart
    omega
  exact {
    nodes_le := ok.nodes_le
    length_lt := by simpa using ok.length_lt
    node_mem := fun k hk => by
      rcases hmem k hk with rfl | hk
      · rw [hnode]
        exact hln
      · exact ok.node_mem k (hmem' k hk)
    ring := by
      rw [hmap]
      exact ok.ring.congr (fun t ht => field t (ok.isNode ht) 32 (by omega) (by omega))
        fun t ht => field t (ok.isNode ht) 40 (by omega) (by omega)
    sentinel_size :=
      (field _ ok.isNode_sentinel 0 (by omega) (by omega)).trans ok.sentinel_size
    node_size := fun k hk => by
      rcases hmem k hk with rfl | hk
      · rw [hnode, hsize]
        exact (field _ hln 0 (by omega) (by omega)).trans (ok.node_size l hl)
      · have hk' := hmem' k hk
        exact (field _ (ok.node_mem k hk') 0 (by omega) (by omega)).trans (ok.node_size k hk')
    blocks_ring := fun k hk => by
      rcases hmem k hk with rfl | hk
      · rw [hnode]
        exact ring
      · refine (ok.blocks_ring k (hmem' k hk)).congr (fun a ha => ?_) fun a ha =>
          link k hk a ha 16 (Or.inr rfl)
        rcases List.mem_cons.mp ha with rfl | ha
        · have hne := ok.node_ne_other hk
          exact field _ (ok.node_mem k (hmem' k hk)) 16 (by omega) fun e => absurd e hne
        · exact link k hk a ha 8 (Or.inl rfl)
    apart := apart
    in_heap := fun y hy => by
      obtain ⟨k, hk, hyk⟩ := List.mem_flatMap.mp hy
      rcases hmem k hk with rfl | hk
      · exact in_heap y hyk
      · exact ok.in_heap y (List.mem_flatMap.mpr ⟨k, hmem' k hk, hyk⟩) }

theorem spaced_ring (hn : n ≤ L.maxNodes) (ht : IsNode L n t) {ys : List ℕ}
    (in_heap : ∀ y ∈ ys, InHeap L y) (apart : ∀ x ∈ ys, ∀ y ∈ ys, x ≠ y → Apart x y) :
    Spaced (nodeHead t :: ys) := by
  have hout := ht.outside hn
  have hle := ht.le hn
  have hhead := nodeHead_eq t
  have hrange : ∀ y ∈ ys, L.start ≤ y ∧ y + 32 ≤ L.top ∧ y + 32 ≤ 2 ^ 64 := fun y hy =>
    ⟨(in_heap y hy).1, (in_heap y hy).2, (in_heap y hy).lt⟩
  refine fun a ha => ⟨?_, fun b hb => ?_⟩
  · rcases List.mem_cons.mp ha with rfl | ha
    · omega
    · have := hrange a ha
      omega
  · rcases List.mem_cons.mp ha with rfl | ha' <;> rcases List.mem_cons.mp hb with rfl | hb'
    · omega
    · have := hrange b hb'
      omega
    · have := hrange a ha'
      omega
    · rcases eq_or_ne a b with rfl | hne
      · omega
      · have := apart a ha' b hb' hne
        unfold Apart at this
        omega

theorem ListsOk.spaced (ok : ListsOk L m n lists) (hl : l ∈ lists) :
    Spaced (nodeHead l.node :: l.blocks) :=
  spaced_ring ok.nodes_le (ok.node_mem l hl)
    (fun y hy => ok.in_heap y (List.mem_flatMap.mpr ⟨l, hl, hy⟩)) fun _ hx _ hy =>
      ok.apart_of_ne (List.mem_flatMap.mpr ⟨l, hl, hx⟩) (List.mem_flatMap.mpr ⟨l, hl, hy⟩)

theorem mem_members_cons {y : ℕ} (hy : y ∈ l.blocks) : y ∈ members (A ++ l :: B) :=
  List.mem_flatMap.mpr ⟨l, by simp, hy⟩

/-- A word that is no link word of the edited lists is not one of the written ones. -/
theorem ne_of_not_linkWord (l : FreeList) (ht : IsNode L n l.node) {a : ℕ}
    (ha : ¬ LinkWord L n (members (A ++ l :: B)) a) :
    a ≠ nodeHead l.node + 8 ∧ a ≠ nodeHead l.node + 16 ∧
      ∀ y ∈ l.blocks, a ≠ y + 8 ∧ a ≠ y + 16 := by
  have hhead := nodeHead_eq l.node
  refine ⟨fun e => ha (Or.inl ⟨_, ht, by omega, by omega⟩),
    fun e => ha (Or.inl ⟨_, ht, by omega, by omega⟩), fun y hy => ⟨fun e => ?_, fun e => ?_⟩⟩
  · exact ha (Or.inr ⟨y, mem_members_cons hy, Or.inl e⟩)
  · exact ha (Or.inr ⟨y, mem_members_cons hy, Or.inr e⟩)

/-- Unlink a listed block. -/
theorem ListsOk.unlink (ok : ListsOk L m n (A ++ l :: B)) {x : ℕ} {pre post : List ℕ}
    (hblocks : l.blocks = pre ++ x :: post) :
    ListsOk L (m.unlink x) n (A ++ { l with blocks := pre ++ post } :: B) ∧
      ∀ a, ¬ LinkWord L n (members (A ++ { l with blocks := pre ++ post } :: B)) a →
        m.unlink x a = m a := by
  have hl : l ∈ A ++ l :: B := by simp
  have hhead := nodeHead_eq l.node
  obtain ⟨ring, agree⟩ := unlink_ring (hblocks ▸ ok.blocks_ring l hl) (hblocks ▸ ok.spaced hl)
  have hsub : ∀ y ∈ pre ++ post, y ∈ l.blocks := by
    intro y hy
    rw [hblocks]
    simp only [List.mem_append, List.mem_cons] at hy ⊢
    tauto
  have hz : after (nodeHead l.node) post = nodeHead l.node ∨
      after (nodeHead l.node) post ∈ pre ++ post := by
    have := after_mem_cons (nodeHead l.node) post
    simp only [List.mem_cons, List.mem_append] at this ⊢
    tauto
  have hy : before (nodeHead l.node) pre = nodeHead l.node ∨
      before (nodeHead l.node) pre ∈ pre ++ post := by
    have := before_mem (nodeHead l.node) pre
    simp only [List.mem_cons, List.mem_append] at this ⊢
    tauto
  -- the words written are links of the ring that is left
  have written : ∀ a, a ≠ nodeHead l.node + 8 → a ≠ nodeHead l.node + 16 →
      (∀ y ∈ pre ++ post, a ≠ y + 8 ∧ a ≠ y + 16) → m.unlink x a = m a := by
    intro a h8 h16 hys
    refine agree a ?_ ?_
    · rcases hz with hz | hz
      · rwa [hz]
      · exact (hys _ hz).2
    · rcases hy with hy | hy
      · rwa [hy]
      · exact (hys _ hy).1
  refine ⟨ok.update rfl rfl ring ?_ (fun y hy => ?_) fun a h16 h24 hys => ?_, fun a ha => ?_⟩
  · refine ok.apart.sublist ?_
    rw [members_split, members_split, hblocks]
    exact (((List.sublist_cons_self x post).append_left pre).append_right _).append_left _
  · exact ok.in_heap y (mem_members_cons (hsub y hy))
  · exact written a (by omega) (by omega) fun y hy => hys y (List.mem_append_right _ hy)
  · obtain ⟨h8, h16, hys⟩ := ne_of_not_linkWord { l with blocks := pre ++ post } (ok.node_mem l hl) ha
    exact written a h8 h16 hys

/-- A block off the lists is no position of a ring, and its links are apart from them. -/
theorem ListsOk.fresh (ok : ListsOk L m n (A ++ l :: B)) {h : ℕ} (hin : InHeap L h)
    (hapart : ∀ y ∈ members (A ++ l :: B), Apart h y) :
    h ∉ nodeHead l.node :: l.blocks ∧ Spaced (nodeHead l.node :: h :: l.blocks) := by
  have ht := ok.node_mem l (by simp)
  have hhead := nodeHead_eq l.node
  constructor
  · intro hmem
    rcases List.mem_cons.mp hmem with rfl | hmem
    · have hout := ht.outside ok.nodes_le
      unfold InHeap at hin
      omega
    · exact (hapart h (mem_members_cons hmem)).ne rfl
  · refine spaced_ring ok.nodes_le ht (fun y hy => ?_) fun x hx y hy hne => ?_
    · rcases List.mem_cons.mp hy with rfl | hy
      · exact hin
      · exact ok.in_heap y (mem_members_cons hy)
    · rcases List.mem_cons.mp hx with rfl | hx' <;> rcases List.mem_cons.mp hy with rfl | hy'
      · exact absurd rfl hne
      · exact hapart y (mem_members_cons hy')
      · exact (hapart x (mem_members_cons hx')).symm
      · exact ok.apart_of_ne (mem_members_cons hx') (mem_members_cons hy') hne

/-- Put a block in front of a list. -/
theorem ListsOk.linkFront (ok : ListsOk L m n (A ++ l :: B)) {h : ℕ} (hin : InHeap L h)
    (hapart : ∀ y ∈ members (A ++ l :: B), Apart h y) :
    ListsOk L (linkFront m l.node h) n (A ++ { l with blocks := h :: l.blocks } :: B) ∧
      ∀ a, ¬ LinkWord L n (members (A ++ { l with blocks := h :: l.blocks } :: B)) a →
        linkFront m l.node h a = m a := by
  have hl : l ∈ A ++ l :: B := by simp
  have ht := ok.node_mem l hl
  have hhead := nodeHead_eq l.node
  have hin' : ∀ y ∈ h :: l.blocks, InHeap L y := by
    intro y hy
    rcases List.mem_cons.mp hy with rfl | hy
    · exact hin
    · exact ok.in_heap y (mem_members_cons hy)
  obtain ⟨fresh, hspaced⟩ := ok.fresh hin hapart
  obtain ⟨ring, agree⟩ := linkFront_ring (ok.blocks_ring l hl) fresh hspaced
  -- the words written are links of the new ring
  have written : ∀ a, a ≠ nodeHead l.node + 8 → a ≠ nodeHead l.node + 16 →
      (∀ y ∈ h :: l.blocks, a ≠ y + 8 ∧ a ≠ y + 16) →
        CLanguage.Sfmm.linkFront m l.node h a = m a := by
    intro a h8 h16 hys
    have hh := hys h List.mem_cons_self
    refine agree a ?_ hh.2 hh.1 h8
    rcases List.mem_cons.mp (after_mem_cons (nodeHead l.node) l.blocks) with hz | hz
    · rwa [hz]
    · exact (hys _ (List.mem_cons_of_mem h hz)).2
  refine ⟨ok.update rfl rfl ring ?_ hin' fun a h16 h24 hys => ?_, fun a ha => ?_⟩
  · have hperm : (members (A ++ { l with blocks := h :: l.blocks } :: B)).Perm
        (h :: members (A ++ l :: B)) := by
      rw [members_split, members_split]
      exact List.perm_middle
    rw [hperm.pairwise_iff Apart.symm]
    exact List.pairwise_cons.mpr ⟨hapart, ok.apart⟩
  · exact written a (by omega) (by omega) fun y hy => hys y (List.mem_append_right _ hy)
  · obtain ⟨h8, h16, hys⟩ := ne_of_not_linkWord { l with blocks := h :: l.blocks } ht ha
    exact written a h8 h16 hys

/-- Unlinking a block that has been linked behind the first of a list gives the lists back. -/
theorem ListsOk.unlink_linkBehindFirst (ok : ListsOk L m n (A ++ l :: B)) {h : ℕ}
    (hin : InHeap L h) (hapart : ∀ y ∈ members (A ++ l :: B), Apart h y) :
    ListsOk L ((linkBehindFirst m l.node h).unlink h) n (A ++ l :: B) := by
  have hl : l ∈ A ++ l :: B := by simp
  obtain ⟨hfresh, hspaced⟩ := ok.fresh hin hapart
  refine ok.congr_heads fun a ha back => ?_
  have hne : a ≠ h + 8 ∧ a ≠ h + 16 := by
    rcases ha with ⟨t, ht, hlo, hhi⟩ | ⟨y, hy, ha⟩
    · have hout := ht.outside ok.nodes_le
      unfold InHeap at hin
      omega
    · have := hapart y hy
      unfold Apart at this
      omega
  exact Sfmm.unlink_linkBehindFirst (ok.blocks_ring l hl) hfresh hspaced hne.1 hne.2 (back l hl)

/-- The `next` links of a dummy header and of the first block behind it. -/
theorem ListsOk.first_block (ok : ListsOk L m n (A ++ l :: B)) {x : ℕ} {ys : List ℕ}
    (hblocks : l.blocks = x :: ys) :
    m.linksNext (nodeHead l.node) = x ∧ m.linksNext x = after (nodeHead l.node) ys := by
  have ring : BlockRing m (nodeHead l.node) ([] ++ x :: ys) := hblocks ▸ ok.blocks_ring l (by simp)
  exact ⟨ring.next_before, ring.next_member⟩

/-- Take the only block of a list. -/
theorem ListsOk.takeOnly (ok : ListsOk L m n (A ++ l :: B)) :
    ListsOk L (m.setLinksNext (nodeHead l.node) (nodeHead l.node)) n
      (A ++ { l with blocks := [] } :: B) := by
  have hl : l ∈ A ++ l :: B := by simp
  have hhead := nodeHead_eq l.node
  have ring := takeOnly_ring (m := m) ((ok.spaced hl) _ List.mem_cons_self).1
  refine ok.update rfl rfl ring ?_ (fun y hy => absurd hy List.not_mem_nil) fun a h16 _ _ => ?_
  · refine ok.apart.sublist ?_
    rw [members_split, members_split]
    exact (List.sublist_append_right l.blocks _).append_left _
  · exact Mem.setPtr_of_ne _ _ _ _ (by omega)

end CLanguage.Sfmm
