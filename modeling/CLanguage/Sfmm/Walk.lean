import CLanguage.Sfmm.Invariant

/-!
# Walking the heap and the lists

What a reader of the memory sees: the blocks from the first header to the
epilogue, the nodes of the list of free lists, and the blocks of one list. In a
valid heap the walks end and find the blocks and lists of the invariant.
-/

namespace CLanguage.Sfmm

open Lib

variable {L : Layout} {s : State} {m : Mem} {a e n : ℕ} {p q : Bool} {fuel : ℕ}
  {blocks : List Block} {lists : List FreeList} {l : FreeList}

/-! ### The walks -/

/-- The block whose header is at `a`. -/
def blockAt (m : Mem) (a : ℕ) : Block where
  addr := a
  size := shl4 (m a).blockSize
  used := if (m a).allocated then some (m a).requestedSize.toNat else none

/-- The blocks from `a` to the epilogue at `e`. -/
def walkBlocks (m : Mem) (e : ℕ) : ℕ → ℕ → Option (List Block)
  | 0, _ => none
  | fuel + 1, a =>
    if a = e then
      some []
    else
      (walkBlocks m e fuel (add64 a (blockAt m a).size)).map (blockAt m a :: ·)

/-- The heap walk, from the first block to the epilogue. -/
def heapWalk (L : Layout) (s : State) : Option (List Block) :=
  if L.start = s.heapEnd then
    some []
  else
    walkBlocks s.mem (s.heapEnd - 8) (s.heapEnd - L.start) (L.start + 40)

/-- The nodes of the list of free lists. -/
def nodeWalk (L : Layout) (s : State) : Option (List ℕ) :=
  walk s.mem.nodeNext L.sentinel s.nodes L.sentinel

/-- The blocks on the list of node `t`. -/
def listWalk (L : Layout) (s : State) (t : ℕ) : Option (List ℕ) :=
  walk s.mem.linksNext (nodeHead t) (s.heapEnd - L.start) (nodeHead t)

/-! ### The walks of a valid heap -/

theorem Tagged.blockAt_eq {b : Block} (h : Tagged m p b) : blockAt m b.addr = b := by
  obtain ⟨a, n, u⟩ := b
  have hsize : shl4 (m a).blockSize = n := h.shl4_header
  have halloc : (m a).allocated = u.isSome := h.header_allocated
  rw [blockAt, hsize, halloc]
  cases u with
  | none => rfl
  | some k =>
    have hreq : (m a).requestedSize.toNat = k := h.requested k rfl
    rw [hreq]
    rfl

theorem Tiled.length_le (h : Tiled m a p blocks e q) : a + blocks.length ≤ e := by
  induction blocks generalizing a p with
  | nil => exact (tiled_nil.mp h).1.le
  | cons b blocks ih =>
    obtain ⟨rfl, htag, hrest⟩ := h
    have := ih hrest
    have := htag.size_ge
    have := b.fin_eq
    rw [List.length_cons]
    omega

theorem Tiled.walkBlocks_eq (h : Tiled m a p blocks e q) (enough : blocks.length < fuel)
    (he : e < 2 ^ 64) : walkBlocks m e fuel a = some blocks := by
  induction blocks generalizing a p fuel with
  | nil =>
    obtain ⟨fuel, rfl⟩ := Nat.exists_eq_succ_of_ne_zero (Nat.ne_zero_of_lt enough)
    rw [walkBlocks, if_pos (tiled_nil.mp h).1]
  | cons b blocks ih =>
    obtain ⟨fuel, rfl⟩ := Nat.exists_eq_succ_of_ne_zero (Nat.ne_zero_of_lt enough)
    obtain ⟨rfl, htag, hrest⟩ := h
    have hle := hrest.le
    have hsize := htag.size_ge
    have hfin := b.fin_eq
    have hne : b.addr ≠ e := by omega
    have hnext : add64 b.addr b.size = b.fin := add64_of_lt (by omega)
    rw [walkBlocks, if_neg hne, htag.blockAt_eq, hnext, ih hrest (Nat.lt_of_succ_lt_succ enough)]
    rfl

theorem HeapOk.heapWalk_eq (ok : HeapOk L s blocks lists) : heapWalk L s = some blocks := by
  have hlen := ok.region.1.length_le
  have hpage := pageSz_eq
  have hge := ok.heapEnd_ge
  have htop := ok.heapEnd_le
  have hlt := L.top_le
  rw [heapWalk, if_neg ok.heapEnd_ne]
  exact ok.region.1.walkBlocks_eq (by omega) (by omega)

theorem Valid.heapWalk_eq (h : Valid L s blocks lists) : heapWalk L s = some blocks := by
  rcases h with ok | ⟨ok, rfl, -⟩
  · exact ok.heapWalk_eq
  · rw [heapWalk, if_pos ok.heapEnd.symm]

theorem Valid.lists_ok (h : Valid L s blocks lists) : ListsOk L s.mem s.nodes lists := by
  rcases h with ok | ⟨ok, -, rfl⟩
  · exact ok.lists_ok
  · exact ok.lists_ok

theorem Valid.nodeWalk_eq (h : Valid L s blocks lists) :
    nodeWalk L s = some (lists.map FreeList.node) :=
  h.lists_ok.ring.walk_eq (by rw [List.length_map]; exact h.lists_ok.length_lt)

theorem HeapOk.listWalk_eq (ok : HeapOk L s blocks lists) (hl : l ∈ lists) :
    listWalk L s l.node = some l.blocks := by
  have hlen := ok.region.1.length_le
  have hpage := pageSz_eq
  have hge := ok.heapEnd_ge
  refine (ok.lists_ok.blocks_ring l hl).walk_eq ?_
  have hlisted : (listed lists).length = (frees blocks).length := ok.listed_frees.length_eq
  have hfrees : (frees blocks).length ≤ blocks.length := List.length_filter_le _ _
  have hsub : (l.blocks.map (⟨·, l.size, none⟩ : ℕ → Block)).Sublist (listed lists) :=
    List.sublist_flatten_of_mem (List.mem_map_of_mem hl)
  have hl := hsub.length_le
  rw [List.length_map] at hl
  omega

end CLanguage.Sfmm
