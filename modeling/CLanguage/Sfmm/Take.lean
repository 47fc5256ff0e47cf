import CLanguage.Sfmm.Heap

/-!
# Taking a block

`sf_malloc` takes the first block of the list it has found, with or without
splitting it. `Carved` describes the tags that it writes, whatever list the block
comes from. Removing the block writes only the head's `next`, which keeps the
lists when the block is the only one of its list; `Served` is about that case.
-/

namespace CLanguage.Sfmm

open Lib

variable {L : Layout} {s s' : State} {size p x : ℕ} {ys : List ℕ} {blocks blocks' : List Block}
  {A B lists lists' : List FreeList} {l : FreeList}

/-- The heap serves a request for `size` bytes with the payload at `p`. -/
structure Served (L : Layout) (size p : ℕ) (s : State) (blocks : List Block) (s' : State)
    (blocks' : List Block) (lists' : List FreeList) : Prop where
  heap : HeapOk L s' blocks' lists'
  payloads : (payloads blocks').Perm ((p, size) :: payloads blocks)
  keeps : Keeps (fun b => b.used ≠ none) s.mem blocks s'.mem blocks'
  origin : ∀ b ∈ blocks', b.used ≠ none → b ∈ blocks ∨ b.used = some size ∧ size + 8 ≤ b.size

/-- `bs` is the smallest block size that has room for `size` bytes and the header. -/
theorem blockSizeFor_eq (h : size < 2 ^ 31) :
    blockSizeFor size = max 32 ((size + 8 + 15) / 16 * 16) := by
  unfold blockSizeFor
  rw [add64_of_lt (show size + 8 < 2 ^ 64 by omega)]
  split_ifs with hsmall hodd
  · omega
  · rw [add64_of_lt (by omega)]
    omega
  · omega

/-- The tags after a block of `sz` bytes at `x` has been split at `bs`. -/
def splitTags (m : Mem) (x sz bs size : ℕ) : Mem :=
  freeHeader (freeHeader (allocHeader m x bs size) (x + bs) (sz - bs)) (x + sz - 8) (sz - bs)

/-- The tags after a block of `sz` bytes at `x` has been taken whole. -/
def wholeTags (m : Mem) (x sz size : ℕ) : Mem :=
  (allocHeader m x sz size).modify (x + sz) fun w => { w with prevAllocated := true }

section Tags

variable {m : Mem} {sz bs w : ℕ}

theorem splitTags_header (hbs : 0 < bs) (hsz : bs + 32 ≤ sz) :
    splitTags m x sz bs size x = { m x with
      blockSize := BitVec.ofNat 28 (bs / 16)
      requestedSize := BitVec.ofNat 32 size
      allocated := true } := by
  simp (disch := omega) only [splitTags, freeHeader, allocHeader, Mem.modify_of_ne,
    Mem.modify_self]

theorem splitTags_rest (hbs : 0 < bs) (hsz : bs + 32 ≤ sz) :
    FreeTag (splitTags m x sz bs size (x + bs)) (sz - bs) ∧
      FreeTag (splitTags m x sz bs size (x + sz - 8)) (sz - bs) := by
  constructor
  · simp (disch := omega) only [splitTags, freeHeader, allocHeader, Mem.modify_of_ne,
      Mem.modify_self]
    exact ⟨rfl, rfl, rfl⟩
  · simp (disch := omega) only [splitTags, freeHeader, Mem.modify_self]
    exact ⟨rfl, rfl, rfl⟩

theorem splitTags_of_ne (hx : w ≠ x) (hrest : w ≠ x + bs) (hfoot : w ≠ x + sz - 8) :
    splitTags m x sz bs size w = m w := by
  simp (disch := omega) only [splitTags, freeHeader, allocHeader, Mem.modify_of_ne]

theorem wholeTags_of_ne (hx : w ≠ x) (hnext : w ≠ x + sz) :
    wholeTags m x sz size w = m w := by
  simp (disch := omega) only [wholeTags, allocHeader, Mem.modify_of_ne]

end Tags

/-- The free block of `sz` bytes at `x` has been replaced by the blocks `mid`. -/
structure Carved (L : Layout) (s : State) (lists : List FreeList) (pre : List Block) (x sz : ℕ)
    (mid post : List Block) (m₁ : Mem) : Prop where
  before : Tiled s.mem (L.start + 40) true pre x true
  after : Region s.mem (x + sz) false post (s.heapEnd - 8)
  shape : Shaped L { s with mem := m₁ } (pre ++ (mid ++ post)) lists
  outside : ∀ w, w < x ∨ x + sz < w → m₁ w = s.mem w

/-- The first block of the list that the search has found. -/
structure Found (L : Layout) (s : State) (blocks : List Block) (A B : List FreeList)
    (l : FreeList) (x : ℕ) (ys : List ℕ) : Prop where
  heap : Consistent L s blocks (A ++ l :: B)
  blocks_eq : l.blocks = x :: ys

/-- The head of the list is linked to itself. -/
theorem Carved.takeOnly {mid post pre : List Block} {sz : ℕ} {m₁ : Mem}
    (carved : Carved L s (A ++ l :: B) pre x sz mid post m₁)
    (covers : Covers (pre ++ (mid ++ post)) (A ++ { l with blocks := [] } :: B)) :
    Shaped L { s with mem := m₁.setLinksNext (nodeHead l.node) (nodeHead l.node) }
        (pre ++ (mid ++ post)) (A ++ { l with blocks := [] } :: B) ∧
      ∀ w, Solid (pre ++ (mid ++ post)) w →
        m₁.setLinksNext (nodeHead l.node) (nodeHead l.node) w = m₁ w := by
  have hhead := nodeHead_eq l.node
  obtain ⟨hshape, hframe⟩ := carved.shape.relink
    { s with mem := m₁.setLinksNext (nodeHead l.node) (nodeHead l.node) } rfl
    carved.shape.lists_ok.takeOnly covers fun w hw => Mem.setPtr_of_ne _ _ _ _ fun e =>
      hw (Or.inl ⟨l.node, carved.shape.lists_ok.node_mem l mem_of_middle, by omega, by omega⟩)
  exact ⟨hshape, carved.shape.toTagsOk.solid_frame hframe⟩

/-- The blocks on either side of the block taken. -/
theorem Carved.keeps {mid post pre : List Block} {sz : ℕ} {m₁ m₂ : Mem} {u : Option ℕ}
    (carved : Carved L s lists pre x sz mid post m₁)
    (hsolid : ∀ w, Solid (pre ++ (mid ++ post)) w → m₂ w = m₁ w) (hu : u = none) :
    Keeps (fun b => b.used ≠ none) s.mem (pre ++ ⟨x, sz, u⟩ :: post) m₂ (pre ++ (mid ++ post)) := by
  intro b hb hused
  have hmem : b ∈ pre ++ post := by
    simp only [List.mem_append, List.mem_cons] at hb ⊢
    rcases hb with hb | rfl | hb
    · exact Or.inl hb
    · exact absurd hu hused
    · exact Or.inr hb
  exact keeps_sides carved.before carved.after carved.outside hsolid hmem hused

namespace Found

section Tagging

variable (found : Found L s blocks A B l x ys)
include found

theorem first : s.mem.linksNext (nodeHead l.node) = x :=
  (found.heap.lists_ok.first_block found.blocks_eq).1

theorem nodeSize_eq : s.mem.nodeSize l.node = l.size :=
  found.heap.lists_ok.node_size l mem_of_middle

theorem mem_blocks : (⟨x, l.size, none⟩ : Block) ∈ blocks := by
  have hmem : (⟨x, l.size, none⟩ : Block) ∈ listed (A ++ l :: B) := by
    simp [listed_append, listed_cons, found.blocks_eq]
  exact (mem_frees.mp (found.heap.listed_frees.subset hmem)).1

theorem sizeOk : SizeOk l.size :=
  (found.heap.region.1.tagged found.mem_blocks).elim fun _ htag => htag.sizeOk

/-- Without the block taken, the lists describe the other free blocks. -/
theorem listed_rest {pre post : List Block} (hblocks : blocks = pre ++ ⟨x, l.size, none⟩ :: post) :
    (listed (A ++ { l with blocks := ys } :: B)).Perm (frees (pre ++ post)) := by
  have perm := found.heap.listed_frees
  rw [hblocks, frees_append, frees_cons_free rfl, listed_append, listed_cons, found.blocks_eq,
    List.map_cons, List.cons_append] at perm
  have perm' := (List.perm_middle.symm.trans perm).trans List.perm_middle
  simpa [listed_append, listed_cons] using (List.perm_cons _).mp perm'

theorem node_outside : l.node + 48 ≤ L.start ∨ L.top ≤ l.node :=
  (found.heap.lists_ok.node_mem l mem_of_middle).outside found.heap.lists_ok.nodes_le

/-- Where the block lies. -/
theorem range : L.start + 40 ≤ x ∧ x + l.size ≤ s.heapEnd - 8 ∧ L.start + pageSz ≤ s.heapEnd ∧
    s.heapEnd ≤ L.top ∧ L.top ≤ 2 ^ 64 := by
  have hrange : L.start + 40 ≤ x ∧ x + l.size ≤ s.heapEnd - 8 :=
    found.heap.region.1.range found.mem_blocks
  exact ⟨hrange.1, hrange.2, found.heap.heapEnd_ge, found.heap.heapEnd_le, L.top_le⟩

/-- The tags when the block is given away whole. -/
theorem whole_carved (hn : size < 2 ^ 32) :
    ∃ pre post, blocks = pre ++ ⟨x, l.size, none⟩ :: post ∧
      Carved L s (A ++ l :: B) pre x l.size [⟨x, l.size, some size⟩] post
        (wholeTags s.mem x l.size size) := by
  obtain ⟨pre, post, r, rfl, hpre, htag, hpost⟩ := found.heap.region.cut found.mem_blocks
  obtain rfl : r = true := htag.no_adjacent rfl
  have hsz : SizeOk l.size := htag.sizeOk
  have hsz' := hsz
  unfold SizeOk at hsz'
  -- only the header and the bit behind the block are written
  have hheader : wholeTags s.mem x l.size size x = { s.mem x with
      blockSize := BitVec.ofNat 28 (l.size / 16)
      requestedSize := BitVec.ofNat 32 size
      allocated := true } := by
    simp (disch := omega) only [wholeTags, allocHeader, Mem.modify_of_ne, Mem.modify_self]
  have hnext : wholeTags s.mem x l.size size (x + l.size) =
      { s.mem (x + l.size) with prevAllocated := true } := by
    simp (disch := omega) only [wholeTags, allocHeader, Mem.modify_of_ne, Mem.modify_self]
  have hshape : Shaped L s (pre ++ ([⟨x, l.size, none⟩] ++ post)) (A ++ l :: B) :=
    found.heap.toShaped
  have hused : Tagged (wholeTags s.mem x l.size size) true ⟨x, l.size, some size⟩ :=
    tagged_used rfl hsz hn (by rw [hheader]) (by rw [hheader]) (by rw [hheader])
      (by rw [hheader]; exact htag.header_prev)
  have hpost' : Region (wholeTags s.mem x l.size size) (x + l.size) true post (s.heapEnd - 8) :=
    hpost.setPrev hnext (fun w hw _ => wholeTags_of_ne (by omega) (by omega)) (by simp)
  have outside : ∀ w, w < x ∨ x + l.size < w → wholeTags s.mem x l.size size w = s.mem w :=
    fun w hw => wholeTags_of_ne (by omega) (by omega)
  refine ⟨pre, post, rfl, hpre, hpost, ?_, outside⟩
  exact hshape.retag found.heap.covers hpre (tiled_singleton htag) hpost outside
    (fun c hc _ => by
      obtain rfl := List.mem_singleton.mp hc
      exact ⟨wholeTags_of_ne (by simp) (by simp; omega), wholeTags_of_ne (by simp) (by simp; omega)⟩)
    (tiled_singleton hused) hpost'

/-- The branch of `sf_malloc` that does not split, with the tags written first. -/
theorem takeWhole_eq (hn : size < 2 ^ 32) :
    takeWhole size l.node s = (x + 8, { s with
      mem := (wholeTags s.mem x l.size size).setLinksNext (nodeHead l.node)
        (after (nodeHead l.node) ys) }) := by
  obtain ⟨pre, post, -, carved⟩ := found.whole_carved hn
  obtain ⟨hfirst, hsecond⟩ := carved.shape.lists_ok.first_block found.blocks_eq
  obtain ⟨hxlo, hxhi, hend, htop, hlt⟩ := found.range
  have hsz := found.sizeOk
  have hshift : shl4 (BitVec.ofNat 28 (l.size / 16)) = l.size := shl4_ofNat hsz.2.2 hsz.2.1
  have hpage := pageSz_eq
  have hadd : add64 x l.size = x + l.size := add64_of_lt (by omega)
  have halloc : (allocHeader s.mem x l.size size x).blockSize = BitVec.ofNat 28 (l.size / 16) := by
    simp only [allocHeader, Mem.modify_self]
  unfold wholeTags at hfirst hsecond ⊢
  simp only [takeWhole, found.first, found.nodeSize_eq, halloc, hshift, hadd, hfirst, hsecond]

/-- The tags when the block is split at `bs`. -/
theorem split_carved {bs : ℕ} (hn : size < 2 ^ 32) (hbs_ok : SizeOk bs) (room : bs + 32 ≤ l.size) :
    ∃ pre post, blocks = pre ++ ⟨x, l.size, none⟩ :: post ∧
      Carved L s (A ++ l :: B) pre x l.size [⟨x, bs, some size⟩, ⟨x + bs, l.size - bs, none⟩] post
        (splitTags s.mem x l.size bs size) := by
  obtain ⟨pre, post, r, rfl, hpre, htag, hpost⟩ := found.heap.region.cut found.mem_blocks
  obtain rfl : r = true := htag.no_adjacent rfl
  have hsz : SizeOk l.size := htag.sizeOk
  have hrem : SizeOk (l.size - bs) := by
    unfold SizeOk at *
    omega
  have hpos : 0 < bs := by
    unfold SizeOk at hbs_ok
    omega
  have hheader : splitTags s.mem x l.size bs size x = _ := splitTags_header hpos room
  obtain ⟨hresth, hrestf⟩ :
    FreeTag (splitTags s.mem x l.size bs size (x + bs)) (l.size - bs) ∧ _ :=
    splitTags_rest hpos room
  have htags : ∀ w, w ≠ x → w ≠ x + bs → w ≠ x + l.size - 8 →
      splitTags s.mem x l.size bs size w = s.mem w := fun w => splitTags_of_ne
  generalize splitTags s.mem x l.size bs size = m₁ at *
  have hused : Tagged m₁ true ⟨x, bs, some size⟩ :=
    tagged_used rfl hbs_ok hn (by rw [hheader]) (by rw [hheader]) (by rw [hheader])
      (by rw [hheader]; exact htag.header_prev)
  have hfoot : Block.footer ⟨x + bs, l.size - bs, none⟩ = x + l.size - 8 := by
    change x + bs + (l.size - bs) - 8 = _
    omega
  have hfin : Block.fin ⟨x + bs, l.size - bs, none⟩ = x + l.size := by
    change x + bs + (l.size - bs) = _
    omega
  have hfree : Tagged m₁ true ⟨x + bs, l.size - bs, none⟩ :=
    tagged_free rfl hrem hresth (by rw [hfoot]; exact hrestf)
  unfold SizeOk at hsz hrem hbs_ok
  have outside : ∀ w, w < x ∨ x + l.size < w → m₁ w = s.mem w :=
    fun w hw => htags w (by omega) (by omega) (by omega)
  have hpost' : Region m₁ (x + l.size) false post (s.heapEnd - 8) :=
    hpost.congr fun w hw _ => htags w (by omega) (by omega) (by omega)
  have hshape : Shaped L s (pre ++ ([⟨x, l.size, none⟩] ++ post)) (A ++ l :: B) :=
    found.heap.toShaped
  -- the two blocks fill the place of the one taken
  have hmid : Tiled m₁ x true [⟨x, bs, some size⟩, ⟨x + bs, l.size - bs, none⟩] (x + l.size) false :=
    ⟨rfl, hused, rfl, hfree, hfin, rfl⟩
  refine ⟨pre, post, rfl, hpre, hpost, ?_, outside⟩
  exact hshape.retag found.heap.covers hpre (tiled_singleton htag) hpost outside
    (fun c hc _ => by
      obtain rfl := List.mem_singleton.mp hc
      exact ⟨htags _ (by simp) (by simp; omega) (by simp; omega),
        htags _ (by simp) (by simp; omega) (by simp; omega)⟩)
    hmid hpost'

/-- The branch of `sf_malloc` that splits, with the tags written first. -/
theorem takeSplit_eq {bs : ℕ} (hbs : blockSizeFor size = bs) (hn : size < 2 ^ 32)
    (hbs_ok : SizeOk bs) (room : bs + 32 ≤ l.size) :
    takeSplit L size l.node s =
      insertRemainder L (l.size - bs) (x + bs) { s with
        mem := (splitTags s.mem x l.size bs size).setLinksNext (nodeHead l.node)
          (after (nodeHead l.node) ys) } >>= fun s' => pure (x + 8, s') := by
  obtain ⟨pre, post, -, carved⟩ := found.split_carved hn hbs_ok room
  obtain ⟨hfirst, hsecond⟩ := carved.shape.lists_ok.first_block found.blocks_eq
  have hnode := found.node_outside
  have hsz := found.sizeOk
  obtain ⟨hxlo, hxhi, hend, htop, hlt⟩ := found.range
  have hshift : shl4 (BitVec.ofNat 28 (bs / 16)) = bs := shl4_ofNat hbs_ok.2.2 hbs_ok.2.1
  unfold SizeOk at hsz
  have halloc : (allocHeader s.mem x bs size x).blockSize = BitVec.ofNat 28 (bs / 16) := by
    simp only [allocHeader, Mem.modify_self]
  -- writing the tags leaves the size in the node, which is read again each time
  have hsize₁ : (allocHeader s.mem x bs size).nodeSize l.node = l.size :=
    (Mem.ptr_modify_of_ne _ _ _ _ (by omega)).trans found.nodeSize_eq
  have hsize₂ : ∀ k, (freeHeader (allocHeader s.mem x bs size) (x + bs) k).nodeSize l.node =
      l.size := fun k => (Mem.ptr_modify_of_ne _ _ _ _ (by omega)).trans hsize₁
  have hsize₃ : ∀ k, (freeHeader (freeHeader (allocHeader s.mem x bs size) (x + bs) k)
      (x + l.size - 8) k).nodeSize l.node = l.size := fun k =>
    (Mem.ptr_modify_of_ne _ _ _ _ (by omega)).trans (hsize₂ k)
  have hpage := pageSz_eq
  have hrest : add64 x bs = x + bs := add64_of_lt (by omega)
  have hlen : sub64 l.size bs = l.size - bs := sub64_of_le (by omega) (by omega)
  have hfoot : sub64 (sub64 (add64 (x + bs) l.size) bs) 8 = x + l.size - 8 := by
    unfold add64 sub64
    omega
  unfold splitTags at hfirst hsecond ⊢
  simp only [takeSplit, hbs, found.first, halloc, hshift, hrest, hsize₁, hlen, hsize₂, hfoot,
    hsize₃, hfirst, hsecond]

end Tagging

/-! ### The only block of its list -/

section Only

variable (found : Found L s blocks A B l x [])
include found

/-- A block that is large enough is given away whole. -/
theorem takeWhole_served (fit : size + 8 ≤ l.size) :
    ∃ m' blocks', takeWhole size l.node s = (x + 8, { s with mem := m' }) ∧
      Served L size (x + 8) s blocks { s with mem := m' } blocks'
        (A ++ { l with blocks := [] } :: B) := by
  have hsz := found.sizeOk.2.2
  obtain ⟨pre, post, rfl, carved⟩ := found.whole_carved (show size < 2 ^ 32 by omega)
  have hrest : (listed (A ++ { l with blocks := [] } :: B)).Perm
      (frees (pre ++ ([⟨x, l.size, some size⟩] ++ post))) := by
    have := found.listed_rest rfl
    rw [frees_append, List.singleton_append, frees_cons_used (by simp), ← frees_append]
    exact this
  obtain ⟨hshape, hsolid⟩ := carved.takeOnly (covers_of_perm hrest)
  refine ⟨_, _, found.takeWhole_eq (by omega), ⟨⟨hshape, hrest⟩, by simp⟩, ?_,
    carved.keeps hsolid rfl, fun b hb hused => ?_⟩
  · rw [List.singleton_append, payloads_append, payloads_append, payloads_cons_used rfl,
      payloads_cons_free rfl]
    exact List.perm_middle
  · simp only [List.mem_append, List.mem_cons, List.not_mem_nil, or_false] at hb ⊢
    rcases hb with hb | rfl | hb
    · exact Or.inl (Or.inl hb)
    · exact Or.inr ⟨rfl, fit⟩
    · exact Or.inl (Or.inr (Or.inr hb))

/-- A block is split, and the remainder gets a list of its own. -/
theorem takeSplit_served {bs : ℕ} (hbs : blockSizeFor size = bs) (hbs_ok : SizeOk bs)
    (fit : size + 8 ≤ bs) (room : bs + 32 ≤ l.size)
    (hnone : listOf (l.size - bs) (A ++ l :: B).dropLast = none) :
    Ensures (· = Fault.noNode)
      (fun r : ℕ × State => r.1 = x + 8 ∧ r.2.heapEnd = s.heapEnd ∧
        r.2.pagesLeft = s.pagesLeft ∧ r.2.growCalls = s.growCalls ∧
        ∃ blocks' lists', Served L size (x + 8) s blocks r.2 blocks' lists' ∧
          (Increasing (A ++ l :: B) → Increasing lists'))
      (takeSplit L size l.node s) := by
  have hsz := found.sizeOk
  have hlt := hsz.2.2
  obtain ⟨pre, post, rfl, carved⟩ := found.split_carved (show size < 2 ^ 32 by omega) hbs_ok room
  rw [found.takeSplit_eq hbs (by omega) hbs_ok room]
  have hrest := found.listed_rest rfl
  -- the remainder is the one free block that is not listed
  have hfrees : (frees (pre ++ ([⟨x, bs, some size⟩, ⟨x + bs, l.size - bs, none⟩] ++ post))).Perm
      (⟨x + bs, l.size - bs, none⟩ :: listed (A ++ { l with blocks := [] } :: B)) := by
    refine List.Perm.trans ?_ (hrest.symm.cons _)
    rw [List.cons_append, List.singleton_append, frees_append, frees_append,
      frees_cons_used (by simp), frees_cons_free rfl]
    exact List.perm_middle
  obtain ⟨hshape₂, hsolid₂⟩ := carved.takeOnly (covers_of_cons_perm hfrees)
  have hunlisted : Unlisted L _ _ _ _ _ := ⟨hshape₂, hfrees⟩
  obtain ⟨hin, hapart⟩ := hunlisted.insertable
  have hsizes : listOf (l.size - bs) (A ++ { l with blocks := [] } :: B).dropLast = none := by
    refine (listOf_eq_none_congr ?_).mpr hnone
    rw [List.map_dropLast, List.map_dropLast]
    simp
  unfold SizeOk at hsz hbs_ok
  refine Ensures.bind (hshape₂.lists_ok.insertRemainder_ensures (by omega) (by omega) hin hapart
    hsizes ⟨_, mem_of_middle, by simp only; omega⟩) fun s' hs' => ?_
  obtain ⟨lists', linked, sorted⟩ := hs'
  obtain ⟨hheap, hframe₃⟩ := hunlisted.linked linked
  have hsolid : ∀ w, Solid (pre ++ ([⟨x, bs, some size⟩, ⟨x + bs, l.size - bs, none⟩] ++ post)) w →
      s'.mem w = splitTags s.mem x l.size bs size w := fun w hw =>
    (hshape₂.toTagsOk.solid_frame hframe₃ w hw).trans (hsolid₂ w hw)
  refine .ok ⟨rfl, linked.heapEnd, linked.pagesLeft, linked.growCalls, _, lists',
    ⟨hheap, ?_, carved.keeps hsolid rfl, fun b hb hused => ?_⟩,
    fun inc => sorted (inc.of_sizes rfl)⟩
  · rw [List.cons_append, List.singleton_append, payloads_append, payloads_append,
      payloads_cons_used rfl, payloads_cons_free rfl, payloads_cons_free rfl]
    exact List.perm_middle
  · simp only [List.mem_append, List.mem_cons, List.not_mem_nil, or_false] at hb ⊢
    rcases hb with hb | (rfl | rfl) | hb
    · exact Or.inl (Or.inl hb)
    · exact Or.inr ⟨rfl, fit⟩
    · exact absurd rfl hused
    · exact Or.inl (Or.inr (Or.inr hb))

end Only

end Found

end CLanguage.Sfmm
