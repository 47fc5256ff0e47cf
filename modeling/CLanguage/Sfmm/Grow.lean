import CLanguage.Sfmm.Take

/-!
# Growing the heap

`sf_malloc` formats the first page as one free block, and merges every further
page with the free block at the end of the heap, if there is one. The old
epilogue becomes the header of the new block or part of the merged one.
-/

namespace CLanguage.Sfmm

open Lib

variable {L : Layout} {s s' : State} {blocks : List Block} {lists : List FreeList}

/-- `sf_mem_grow` grants a page. -/
def CanGrow (L : Layout) (s : State) : Prop := 0 < s.pagesLeft ∧ s.heapEnd + pageSz ≤ L.top

instance : Decidable (CanGrow L s) := inferInstanceAs (Decidable (_ ∧ _))

/-- The memory with a zero-filled page at the end of the heap. -/
def zeroPage (s : State) : Mem :=
  ⟨fun a => if s.heapEnd ≤ a ∧ a < s.heapEnd + pageSz then Word.ofNat 0 else s.mem a⟩

/-- The state after `sf_mem_grow` has granted a page. -/
def withPage (s : State) : State where
  mem := zeroPage s
  heapEnd := s.heapEnd + pageSz
  nodes := s.nodes
  pagesLeft := s.pagesLeft - 1
  growCalls := s.growCalls + 1

theorem sfMemGrow_granted (granted : CanGrow L s) : sfMemGrow L s = (true, withPage s) :=
  if_pos granted

theorem sfMemGrow_refused (refused : ¬ CanGrow L s) :
    sfMemGrow L s = (false, { s with growCalls := s.growCalls + 1 }) :=
  if_neg refused

theorem zeroPage_new {w : ℕ} (hlo : s.heapEnd ≤ w) (hhi : w < s.heapEnd + pageSz) :
    zeroPage s w = Word.ofNat 0 := if_pos ⟨hlo, hhi⟩

theorem zeroPage_old {w : ℕ} (h : w < s.heapEnd ∨ s.heapEnd + pageSz ≤ w) :
    zeroPage s w = s.mem w := if_neg (by omega)

/-- The size of the free block at the end of the heap, if there is one. -/
def tailSize (blocks : List Block) : ℕ :=
  match blocks.getLast? with
  | some ⟨_, n, none⟩ => n
  | _ => 0

/-- The size of the block that ends with the next page. -/
def grownSize (s : State) : ℕ :=
  if (s.mem (s.heapEnd - 8)).prevAllocated then pageSz
  else shl4 (s.mem (s.heapEnd - 8 - 8)).blockSize + pageSz

theorem tailSize_used {b : Block} (h : b.used ≠ none) : tailSize (blocks ++ [b]) = 0 := by
  obtain ⟨a, n, _ | k⟩ := b
  · exact absurd rfl h
  · simp [tailSize]

theorem tailSize_free {a n : ℕ} : tailSize (blocks ++ [⟨a, n, none⟩]) = n := by
  simp [tailSize]

/-- The epilogue's `prev_allocated` bit tells whether the last block is free. -/
theorem Tiled.last {m : Mem} {a e : ℕ} {q : Bool} (h : Tiled m a true blocks e q) :
    (q = true ∧ tailSize blocks = 0) ∨
      ∃ front x n, q = false ∧ blocks = front ++ [⟨x, n, none⟩] ∧ x + n = e ∧ tailSize blocks = n := by
  rcases List.eq_nil_or_concat blocks with rfl | ⟨front, b, rfl⟩
  · exact Or.inl ⟨h.2.symm, rfl⟩
  · rw [List.concat_eq_append] at *
    obtain ⟨r, -, -, hend⟩ := h.split
    obtain ⟨hfin, hq⟩ := tiled_nil.mp hend
    obtain ⟨x, n, _ | k⟩ := b
    · exact Or.inr ⟨front, x, n, hq.symm, rfl, hfin, tailSize_free⟩
    · exact Or.inl ⟨hq.symm, tailSize_used (by simp)⟩

theorem TagsOk.grownSize_eq (ok : TagsOk L s blocks) :
    grownSize s = tailSize blocks + pageSz := by
  unfold grownSize
  rcases ok.region.1.last with ⟨hq, htail⟩ | ⟨front, x, n, hq, rfl, hend, htail⟩
  · rw [if_pos hq, htail]
    omega
  · obtain ⟨r, -, htag, -⟩ := ok.region.1.split
    have hsize := htag.size_ge
    have hfoot : s.heapEnd - 8 - 8 = Block.footer ⟨x, n, none⟩ := by
      change _ = x + n - 8
      omega
    rw [hq, if_neg (by simp), htail, hfoot, htag.footer_size rfl, htag.shl4_header]

/-! ### A further page -/

/-- The heap with the block that ends with a new page, before `sf_malloc` lists it. -/
structure Paged (L : Layout) (s : State) (blocks : List Block) (lists : List FreeList) (h : ℕ)
    (s₁ : State) (blocks' : List Block) (lists₁ : List FreeList) : Prop where
  unlisted : Unlisted L s₁ blocks' lists₁ h (tailSize blocks + pageSz)
  heapEnd : s₁.heapEnd = s.heapEnd + pageSz
  pagesLeft : s₁.pagesLeft = s.pagesLeft - 1
  growCalls : s₁.growCalls = s.growCalls + 1
  sizes : lists₁.map FreeList.size = lists.map FreeList.size
  payloads : payloads blocks' = payloads blocks
  keeps : Keeps (fun b => b.used ≠ none) s.mem blocks s₁.mem blocks'
  last : ∃ front, blocks' = front ++ [⟨h, tailSize blocks + pageSz, none⟩] ∧ ∀ b ∈ front, b ∈ blocks

theorem Paged.tail {h : ℕ} {s₁ : State} {blocks' : List Block} {lists₁ : List FreeList}
    (paged : Paged L s blocks lists h s₁ blocks' lists₁) :
    tailSize blocks' = tailSize blocks + pageSz := by
  obtain ⟨front, rfl, -⟩ := paged.last
  exact tailSize_free

/-- The tags when the page becomes a block of its own. -/
def pageTags (s : State) : Mem :=
  freeHeader (freeHeader ((zeroPage s).modify (s.heapEnd + pageSz - 8)
    fun w => { w with allocated := true }) (s.heapEnd - 8) pageSz) (s.heapEnd + pageSz - 16) pageSz

/-- The tags when the page joins the free block at `x`. -/
def mergeTags (s : State) (x : ℕ) : Mem :=
  let m := ((zeroPage s).modify (s.heapEnd + pageSz - 8) fun w => { w with allocated := true }).modify
    x fun w => { w with blockSize := w.blockSize + BitVec.ofNat 28 (pageSz / 16) }
  m.modify (s.heapEnd + pageSz - 16) fun w =>
    { w with
      blockSize := (m x).blockSize
      prevAllocated := (m x).prevAllocated
      allocated := (m x).allocated }

section Tags

variable {w x : ℕ}

theorem pageTags_of_ne (hw : w < s.heapEnd - 8 ∨ s.heapEnd + pageSz ≤ w) :
    pageTags s w = s.mem w := by
  have hpage := pageSz_eq
  unfold pageTags freeHeader
  rw [Mem.modify_of_ne _ _ _ _ (by omega), Mem.modify_of_ne _ _ _ _ (by omega),
    Mem.modify_of_ne _ _ _ _ (by omega), zeroPage_old (by omega)]

theorem pageTags_block (hend : 8 ≤ s.heapEnd) :
    FreeTag (pageTags s (s.heapEnd - 8)) pageSz ∧
      FreeTag (pageTags s (s.heapEnd + pageSz - 16)) pageSz := by
  have hpage := pageSz_eq
  unfold pageTags freeHeader
  rw [Mem.modify_of_ne _ _ (s.heapEnd - 8) _ (by omega), Mem.modify_self, Mem.modify_self]
  exact ⟨⟨rfl, rfl, rfl⟩, ⟨rfl, rfl, rfl⟩⟩

theorem pageTags_epilogue :
    pageTags s (s.heapEnd + pageSz - 8) = { Word.ofNat 0 with allocated := true } := by
  have hpage := pageSz_eq
  unfold pageTags freeHeader
  rw [Mem.modify_of_ne _ _ _ _ (by omega), Mem.modify_of_ne _ _ _ _ (by omega), Mem.modify_self,
    zeroPage_new (by omega) (by omega)]

theorem mergeTags_of_ne (hx : w ≠ x) (hw : w < s.heapEnd ∨ s.heapEnd + pageSz ≤ w) :
    mergeTags s x w = s.mem w := by
  have hpage := pageSz_eq
  unfold mergeTags
  rw [Mem.modify_of_ne _ _ _ _ (by omega), Mem.modify_of_ne _ _ _ _ hx,
    Mem.modify_of_ne _ _ _ _ (by omega), zeroPage_old (by omega)]

theorem mergeTags_header (hx : x + 8 ≤ s.heapEnd) :
    mergeTags s x x = { s.mem x with
      blockSize := (s.mem x).blockSize + BitVec.ofNat 28 (pageSz / 16) } := by
  have hpage := pageSz_eq
  unfold mergeTags
  rw [Mem.modify_of_ne _ _ _ _ (by omega), Mem.modify_self, Mem.modify_of_ne _ _ _ _ (by omega),
    zeroPage_old (by omega)]

theorem mergeTags_epilogue (hx : x + 8 ≤ s.heapEnd) :
    mergeTags s x (s.heapEnd + pageSz - 8) = { Word.ofNat 0 with allocated := true } := by
  have hpage := pageSz_eq
  unfold mergeTags
  rw [Mem.modify_of_ne _ _ _ _ (by omega), Mem.modify_of_ne _ _ _ _ (by omega), Mem.modify_self,
    zeroPage_new (by omega) (by omega)]

/-- The footer of the merged block is a copy of its header, up to the requested size. -/
theorem mergeTags_footer (hx : x + 8 ≤ s.heapEnd) {n : ℕ} (h : FreeTag (mergeTags s x x) n) :
    FreeTag (mergeTags s x (s.heapEnd + pageSz - 16)) n := by
  have hpage := pageSz_eq
  have hheader : mergeTags s x x = ((((zeroPage s).modify (s.heapEnd + pageSz - 8)
      fun w => { w with allocated := true }).modify x fun w =>
      { w with blockSize := w.blockSize + BitVec.ofNat 28 (pageSz / 16) }) x) := by
    unfold mergeTags
    rw [Mem.modify_of_ne _ _ _ _ (by omega)]
  rw [hheader] at h
  unfold mergeTags
  rw [Mem.modify_self]
  exact ⟨h.1, h.2.1, h.2.2⟩

end Tags

/-- The page becomes a block of its own. -/
private theorem addPage_alone (ok : Consistent L s blocks lists) (granted : CanGrow L s)
    (hq : (s.mem (s.heapEnd - 8)).prevAllocated = true) (htail : tailSize blocks = 0) :
    ∃ s₁ blocks', addPage L (withPage s) = insertGrown L pageSz (s.heapEnd - 8) s₁ ∧
      Paged L s blocks lists (s.heapEnd - 8) s₁ blocks' lists ∧
      s₁.mem s.heapEnd = Word.ofNat 0 ∧ s₁.mem (s.heapEnd + 8) = Word.ofNat 0 := by
  have hpage := pageSz_eq
  have hge := ok.heapEnd_ge
  have htop := granted.2
  have hlt := L.top_le
  -- the memory that the branch writes
  have hread : ((zeroPage s).modify (s.heapEnd + pageSz - 8) fun w => { w with allocated := true })
      (s.heapEnd - 8) = s.mem (s.heapEnd - 8) := by
    rw [Mem.modify_of_ne _ _ _ _ (by omega), zeroPage_old (by omega)]
  have hp : s.heapEnd + pageSz - pageSz - 8 = s.heapEnd - 8 := by omega
  have hf : s.heapEnd - 8 + pageSz - 8 = s.heapEnd + pageSz - 16 := by omega
  have hrun : addPage L (withPage s) = insertGrown L pageSz (s.heapEnd - 8)
      { withPage s with mem := pageTags s } := by
    simp only [addPage, withPage, hp, hread, hq, if_true, hf, pageTags]
  have hzero : ∀ w, s.heapEnd ≤ w → w < s.heapEnd + pageSz - 16 → pageTags s w = Word.ofNat 0 := by
    intro w hlo hhi
    unfold pageTags freeHeader
    rw [Mem.modify_of_ne _ _ _ _ (by omega), Mem.modify_of_ne _ _ _ _ (by omega),
      Mem.modify_of_ne _ _ _ _ (by omega), zeroPage_new hlo (by omega)]
  -- the region with the page as its last block
  obtain ⟨hheader, hfooter⟩ := pageTags_block (s := s) (by omega)
  have hepilogue := @pageTags_epilogue s
  have hold : ∀ w, w < s.heapEnd - 8 ∨ s.heapEnd + pageSz ≤ w → pageTags s w = s.mem w :=
    fun w => pageTags_of_ne
  generalize pageTags s = m₁ at *
  have hsize : SizeOk pageSz := by
    unfold SizeOk
    omega
  have hnew : Tagged m₁ true ⟨s.heapEnd - 8, pageSz, none⟩ :=
    tagged_free rfl hsize hheader (by
      change FreeTag (m₁ (s.heapEnd - 8 + pageSz - 8)) _
      rw [hf]
      exact hfooter)
  have hold' : Tiled m₁ (L.start + 40) true blocks (s.heapEnd - 8) true := by
    have htiled := ok.region.1.congr_range fun w _ hw => hold w (Or.inl hw)
    rwa [hq] at htiled
  have hregion : Region m₁ (L.start + 40) true (blocks ++ [⟨s.heapEnd - 8, pageSz, none⟩])
      (s.heapEnd + pageSz - 8) := by
    refine region_append.mpr ⟨_, _, hold', region_cons.mpr ⟨rfl, hnew, region_nil.mpr ⟨?_, ?_, ?_⟩⟩⟩
    · change s.heapEnd - 8 + pageSz = _
      omega
    · rw [hepilogue]
      rfl
    · rw [hepilogue]
  have hlists : ListsOk L m₁ s.nodes lists := by
    refine ok.lists_ok.congr fun w hw => hold w ?_
    rcases hw with ⟨t, ht, hlo, hhi⟩ | ⟨z, hz, hw⟩
    · have := ht.outside ok.lists_ok.nodes_le
      omega
    · obtain ⟨c, hc, rfl, -⟩ := ok.covers z hz
      have := ok.region.1.range hc
      have := ok.region.1.size_ge hc
      have := c.fin_eq
      omega
  have hshape : Shaped L { withPage s with mem := m₁ }
      (blocks ++ [⟨s.heapEnd - 8, pageSz, none⟩]) lists :=
    ⟨⟨hregion, by simp only [withPage]; omega, htop⟩, hlists⟩
  have hperm : (frees (blocks ++ [⟨s.heapEnd - 8, pageSz, none⟩])).Perm
      (⟨s.heapEnd - 8, pageSz, none⟩ :: listed lists) := by
    rw [frees_append, frees_cons_free rfl, frees_nil]
    exact List.perm_append_comm.trans (ok.listed_frees.symm.cons _)
  refine ⟨_, blocks ++ [⟨s.heapEnd - 8, pageSz, none⟩], hrun, ⟨?_, rfl, rfl, rfl, rfl, ?_,
    fun b hb _ => ?_, blocks, ?_, fun b hb => hb⟩, hzero _ le_rfl (by omega),
    hzero _ (by omega) (by omega)⟩
  · rw [htail, Nat.zero_add]
    exact ⟨hshape, hperm⟩
  · rw [payloads_append, payloads_cons_free rfl, payloads_nil, List.append_nil]
  · refine ⟨List.mem_append_left _ hb, fun w hlo hhi => hold w ?_⟩
    have := ok.region.1.range hb
    omega
  · rw [htail, Nat.zero_add]

/-- Unlinking the block at `x` and writing the tags can be exchanged. -/
private theorem Detachable.mergeTags_unlink {front : List Block} {x n : ℕ}
    (d : Detachable L s (front ++ [⟨x, n, none⟩]) lists x n) (granted : CanGrow L s) :
    (mergeTags s x).unlink x = mergeTags { s with mem := s.mem.unlink x } x := by
  have hpage := pageSz_eq
  have hge := d.tags.heapEnd_ge
  have htop := granted.2
  have hx : L.start + 40 ≤ x ∧ x + n ≤ s.heapEnd - 8 :=
    d.tags.region.1.range (b := ⟨x, n, none⟩) (by simp)
  have hn : 32 ≤ n := d.tags.region.1.size_ge (b := ⟨x, n, none⟩) (by simp)
  have hsame : s.mem.unlink x x = s.mem x :=
    d.unlink_of_solid ⟨⟨x, n, none⟩, by simp, Or.inl rfl⟩
  have h8 : mergeTags s x (x + 8) = s.mem (x + 8) := mergeTags_of_ne (by omega) (by omega)
  have h16 : mergeTags s x (x + 16) = s.mem (x + 16) := mergeTags_of_ne (by omega) (by omega)
  ext1
  funext w
  by_cases hw : w = x ∨ s.heapEnd ≤ w ∧ w < s.heapEnd + pageSz
  · -- the written words are no links
    have hnot : ¬ SoftWord L (front ++ [⟨x, n, none⟩]) w := by
      rcases hw with rfl | hw
      · exact fun soft => (d.tags.soft_ne soft).1 ⟨⟨w, n, none⟩, by simp, Or.inl rfl⟩
      · rintro (h | h | ⟨c, hc, -, h⟩)
        · omega
        · omega
        · have := d.tags.region.1.range hc
          have := d.tags.region.1.size_ge hc
          have := c.fin_eq
          omega
    have hleft : (mergeTags s x).unlink x w = mergeTags s x w := by
      refine Mem.unlink_of_ne (fun e => hnot ?_) fun e => hnot ?_
      · rw [e, Mem.linksNext, Mem.ptr_congr h8]
        exact d.next_soft
      · rw [e, Mem.linksPrev, Mem.ptr_congr h16]
        exact d.prev_soft
    refine hleft.trans ?_
    have hzero : zeroPage { s with mem := s.mem.unlink x } x = zeroPage s x := by
      rw [zeroPage_old (by simp only; omega), zeroPage_old (by omega)]
      exact hsame
    have hzero' : ∀ v, s.heapEnd ≤ v → v < s.heapEnd + pageSz →
        zeroPage { s with mem := s.mem.unlink x } v = zeroPage s v := fun v hlo hhi => by
      exact (zeroPage_new (s := { s with mem := s.mem.unlink x }) hlo hhi).trans
        (zeroPage_new hlo hhi).symm
    have hzw : zeroPage { s with mem := s.mem.unlink x } w = zeroPage s w := by
      rcases hw with rfl | hw
      · exact hzero
      · exact hzero' w hw.1 hw.2
    simp only [mergeTags, Mem.modify, Mem.write]
    split_ifs <;> simp_all
  · have hold : mergeTags s x w = s.mem w := mergeTags_of_ne (by omega) (by omega)
    refine (Mem.unlink_congr h8 h16 hold).trans ?_
    exact (mergeTags_of_ne (s := { s with mem := s.mem.unlink x }) (by omega)
      (by simp only; omega)).symm

section Merged

variable {front : List Block} {x n : ℕ} {m : Mem}

/-- The free block at the end of the heap, and the blocks before it. -/
private theorem Detachable.last (d : Detachable L s (front ++ [⟨x, n, none⟩]) lists x n) :
    Tiled s.mem (L.start + 40) true front x true ∧ Tagged s.mem true ⟨x, n, none⟩ ∧
      x + n = s.heapEnd - 8 ∧ (s.mem (s.heapEnd - 8)).prevAllocated = false := by
  obtain ⟨r, hfront, htag, hnil⟩ := d.tags.region.1.split
  obtain rfl : r = true := htag.no_adjacent rfl
  obtain ⟨hend, hprev⟩ := tiled_nil.mp hnil
  exact ⟨hfront, htag, hend, hprev.symm⟩

private theorem Detachable.addPage_run (d : Detachable L s (front ++ [⟨x, n, none⟩]) lists x n)
    (granted : CanGrow L s) : addPage L (withPage s) =
      insertGrown L (shl4 ((mergeTags s x).unlink x x).blockSize) x
        { withPage s with mem := (mergeTags s x).unlink x } := by
  have hpage := pageSz_eq
  have hge := d.tags.heapEnd_ge
  have htop := granted.2
  have hlt := L.top_le
  obtain ⟨hfront, htag, hend, hprev⟩ := d.last
  have hx := hfront.le
  have hn : SizeOk n := htag.sizeOk
  obtain ⟨-, hfooter⟩ := htag.freeTag rfl
  have hfooter : FreeTag (s.mem (x + n - 8)) n := hfooter
  have hread : ∀ w, w < s.heapEnd → ((zeroPage s).modify (s.heapEnd + pageSz - 8)
      fun w => { w with allocated := true }) w = s.mem w := by
    intro w hw
    rw [Mem.modify_of_ne _ _ _ _ (by omega), zeroPage_old (by omega)]
  have hp : s.heapEnd + pageSz - pageSz - 8 = s.heapEnd - 8 := by omega
  have hf : s.heapEnd - 8 - 8 = x + n - 8 := by omega
  -- the block is found through its footer
  have hback : sub64 (s.heapEnd - 8) n = x := by
    unfold sub64
    omega
  have hshift : shl4 (s.mem (x + n - 8)).blockSize = n := by
    rw [hfooter.1]
    exact shl4_ofNat hn.2.2 hn.2.1
  unfold SizeOk at hn
  simp only [addPage, withPage, hp, hread _ (show s.heapEnd - 8 < s.heapEnd by omega), hprev, hf,
    hread _ (show x + n - 8 < s.heapEnd by omega), hshift, hback, mergeTags]
  rfl

/-- Memory with the block at `x` unlinked and the page merged into it. -/
structure Merge (s : State) (x n : ℕ) (m : Mem) : Prop where
  header : FreeTag (m x) (n + pageSz)
  footer : FreeTag (m (s.heapEnd + pageSz - 16)) (n + pageSz)
  epilogue : m (s.heapEnd + pageSz - 8) = { Word.ofNat 0 with allocated := true }
  old : ∀ w, w ≠ x → w < s.heapEnd ∨ s.heapEnd + pageSz ≤ w → m w = s.mem.unlink x w

private theorem Detachable.merge (d : Detachable L s (front ++ [⟨x, n, none⟩]) lists x n)
    (granted : CanGrow L s) : Merge s x n ((mergeTags s x).unlink x) := by
  have hge := d.tags.heapEnd_ge
  obtain ⟨hfront, htag, hend, -⟩ := d.last
  have hn : SizeOk n := htag.sizeOk
  have hn16 := hn.2.1
  obtain ⟨hheader, -⟩ := htag.freeTag rfl
  have hheader : FreeTag (s.mem x) n := hheader
  have hsum : (s.mem x).blockSize + BitVec.ofNat 28 (pageSz / 16) =
      BitVec.ofNat 28 ((n + pageSz) / 16) := by
    have hpage := pageSz_eq
    rw [hheader.1, ← BitVec.ofNat_add]
    congr 1
    omega
  have hsame : s.mem.unlink x x = s.mem x :=
    d.unlink_of_solid ⟨⟨x, n, none⟩, by simp, Or.inl rfl⟩
  have hx : x + 8 ≤ s.heapEnd := by
    unfold SizeOk at hn
    omega
  have hfree : FreeTag (mergeTags { s with mem := s.mem.unlink x } x x) (n + pageSz) := by
    rw [mergeTags_header (s := { s with mem := s.mem.unlink x }) hx, hsame]
    exact ⟨hsum, hheader.2⟩
  -- the tags are written to the memory without the links of the block
  rw [d.mergeTags_unlink granted]
  generalize hu : ({ s with mem := s.mem.unlink x } : State) = u at *
  have hmem : u.mem = s.mem.unlink x := by rw [← hu]
  have hheap : u.heapEnd = s.heapEnd := by rw [← hu]
  have hfooter := mergeTags_footer (s := u) (by omega) hfree
  have hepilogue := mergeTags_epilogue (s := u) (x := x) (by omega)
  rw [hheap] at hfooter hepilogue
  refine ⟨hfree, hfooter, hepilogue, fun w hw hout => ?_⟩
  rw [mergeTags_of_ne hw (hheap.symm ▸ hout), hmem]

/-- The region with the merged block as its last, after the block has been unlinked. -/
private theorem Detachable.shaped_merge (d : Detachable L s (front ++ [⟨x, n, none⟩]) lists x n)
    (granted : CanGrow L s) (fits : n + pageSz < 2 ^ 31) (merge : Merge s x n m) :
    Shaped L { withPage s with mem := m } (front ++ [⟨x, n + pageSz, none⟩]) lists := by
  have hpage := pageSz_eq
  have hge := d.tags.heapEnd_ge
  have htop := granted.2
  have hlt := L.top_le
  obtain ⟨hfront, htag, hend, -⟩ := d.last
  have hx := hfront.le
  have hsolid : ∀ w, Solid (front ++ [⟨x, n, none⟩]) w → s.mem.unlink x w = s.mem w :=
    fun w => d.unlink_of_solid
  have hn : SizeOk n := htag.sizeOk
  have hsize : SizeOk (n + pageSz) := by
    unfold SizeOk at *
    omega
  unfold SizeOk at hn
  have hfin : x + (n + pageSz) = s.heapEnd + pageSz - 8 := by omega
  have hnew : Tagged m true ⟨x, n + pageSz, none⟩ :=
    tagged_free rfl hsize merge.header (by
      have hfoot : Block.footer ⟨x, n + pageSz, none⟩ = s.heapEnd + pageSz - 16 := by
        change x + (n + pageSz) - 8 = _
        omega
      rw [hfoot]
      exact merge.footer)
  have hfront' : Tiled m (L.start + 40) true front x true := by
    refine hfront.congr (fun b hb => ?_) fun b hb hfree => ?_
    · have hrange := hfront.range hb
      have hsize := hfront.size_ge hb
      have hfin := b.fin_eq
      rw [merge.old _ (by omega) (by omega)]
      exact hsolid _ ⟨b, List.mem_append_left _ hb, Or.inl rfl⟩
    · have hrange := hfront.range hb
      have hsize := hfront.size_ge hb
      have hfin := b.fin_eq
      have hfoot := b.footer_eq
      rw [merge.old _ (by omega) (by omega)]
      exact hsolid _ ⟨b, List.mem_append_left _ hb, Or.inr (Or.inl ⟨hfree, rfl⟩)⟩
  have hregion : Region m (L.start + 40) true (front ++ [⟨x, n + pageSz, none⟩])
      (s.heapEnd + pageSz - 8) := by
    refine region_append.mpr ⟨x, true, hfront', region_cons.mpr ⟨rfl, hnew,
      region_nil.mpr ⟨hfin, ?_, ?_⟩⟩⟩
    · rw [merge.epilogue]
      rfl
    · rw [merge.epilogue]
  have hlists : ListsOk L m s.nodes lists := by
    have hok := d.unlisted.shape.lists_ok
    simp only at hok
    refine hok.congr fun w hw => ?_
    rcases hw with ⟨t, ht, hlo, hhi⟩ | ⟨z, hz, hw⟩
    · have := ht.outside hok.nodes_le
      exact merge.old w (by omega) (by omega)
    · obtain ⟨c, hc, rfl, hfree⟩ := covers_of_cons_perm d.unlisted.perm z hz
      have hrange := d.tags.region.1.range hc
      have := d.tags.region.1.size_ge hc
      have hfin := c.fin_eq
      refine merge.old w (fun e => ?_) (by omega)
      -- the links of a listed block do not lie at the header of the merged one
      exact (d.tags.region.1.solid_ne ⟨⟨x, n, none⟩, by simp, Or.inl rfl⟩ hc hfree).elim
        fun h8 h16 => hw.elim (fun h => h8 (e ▸ h)) fun h => h16 (e ▸ h)
  exact ⟨⟨hregion, by simp only [withPage]; omega, htop⟩, hlists⟩

/-- The page joins the free block at the end of the heap. -/
theorem Detachable.addPage_eq (d : Detachable L s (front ++ [⟨x, n, none⟩]) lists x n)
    (granted : CanGrow L s) (fits : n + pageSz < 2 ^ 31) :
    ∃ s₁ blocks', addPage L (withPage s) = insertGrown L (n + pageSz) x s₁ ∧
      Paged L s (front ++ [⟨x, n, none⟩]) lists x s₁ blocks' lists ∧
      s₁.mem (x + 8) = s.mem.unlink x (x + 8) ∧ s₁.mem (x + 16) = s.mem.unlink x (x + 16) := by
  have hpage := pageSz_eq
  have hge := d.tags.heapEnd_ge
  obtain ⟨hfront, htag, hend, -⟩ := d.last
  have hn : SizeOk n := htag.sizeOk
  have hrun := d.addPage_run granted
  have merge := d.merge granted
  generalize (mergeTags s x).unlink x = m at hrun merge
  have hbs : shl4 (m x).blockSize = n + pageSz := by
    have hn16 := hn.2.1
    rw [merge.header.1]
    exact shl4_ofNat fits (by omega)
  rw [hbs] at hrun
  have hperm : (frees (front ++ [⟨x, n + pageSz, none⟩])).Perm
      (⟨x, n + pageSz, none⟩ :: listed lists) := by
    have hold := d.unlisted.perm
    rw [frees_append, frees_cons_free rfl, frees_nil] at hold ⊢
    exact List.perm_append_comm.trans
      (((List.perm_cons _).mp (List.perm_append_comm.trans hold)).cons _)
  unfold SizeOk at hn
  refine ⟨_, front ++ [⟨x, n + pageSz, none⟩], hrun, ⟨?_, rfl, rfl, rfl, rfl, ?_,
    fun b hb hused => ?_, front, ?_, fun b hb => List.mem_append_left _ hb⟩,
    merge.old _ (by omega) (by omega), merge.old _ (by omega) (by omega)⟩
  · rw [tailSize_free]
    exact ⟨d.shaped_merge granted fits merge, hperm⟩
  · rw [payloads_append, payloads_append, payloads_cons_free rfl, payloads_cons_free rfl]
  · -- the last block is free, so that all allocated ones stand before it
    have hb : b ∈ front := by
      rcases List.mem_append.mp hb with hb | hb
      · exact hb
      · rw [List.mem_singleton.mp hb] at hused
        exact absurd rfl hused
    refine ⟨List.mem_append_left _ hb, fun w hlo hhi => ?_⟩
    have := hfront.range hb
    refine (merge.old w (by omega) (by omega)).trans
      (d.unlink_of_solid ⟨b, List.mem_append_left _ hb, ?_⟩)
    exact Or.inr (Or.inr ⟨hused, by omega, hhi⟩)
  · rw [tailSize_free]

end Merged

/-- A further page makes a free block that has to be listed. -/
theorem Consistent.addPage_eq (ok : Consistent L s blocks lists) (granted : CanGrow L s)
    (fits : tailSize blocks + pageSz < 2 ^ 31) :
    ∃ h s₁ blocks' lists₁, addPage L (withPage s) = insertGrown L (tailSize blocks + pageSz) h s₁ ∧
      Paged L s blocks lists h s₁ blocks' lists₁ ∧
      (lists = [] → s₁.mem (h + 8) = Word.ofNat 0 ∧ s₁.mem (h + 16) = Word.ofNat 0) := by
  rcases ok.region.1.last with ⟨hq, htail⟩ | ⟨front, x, n, hq, rfl, hend, htail⟩
  · obtain ⟨s₁, blocks', hrun, paged, hzero⟩ := addPage_alone ok granted hq htail
    have hpage := pageSz_eq
    have hge := ok.heapEnd_ge
    have h8 : s.heapEnd - 8 + 8 = s.heapEnd := by omega
    have h16 : s.heapEnd - 8 + 16 = s.heapEnd + 8 := by omega
    rw [htail, Nat.zero_add]
    refine ⟨_, s₁, blocks', lists, hrun, paged, fun _ => ?_⟩
    rwa [h8, h16]
  · rw [htail] at fits ⊢
    have hx : (⟨x, n, none⟩ : Block) ∈ front ++ [⟨x, n, none⟩] := by simp
    obtain ⟨lists₀, d, sizes⟩ := ok.detachable hx
    obtain ⟨s₁, blocks', hrun, paged, -⟩ := d.addPage_eq granted fits
    refine ⟨x, s₁, blocks', lists₀, hrun, { paged with sizes := sizes }, ?_⟩
    rintro rfl
    have hlisted := ok.listed_frees.symm.subset (mem_frees.mpr ⟨hx, rfl⟩)
    exact absurd hlisted List.not_mem_nil

/-! ### Listing the block, where its size is new -/

/-- The heap after `sf_malloc` has made a free block that ends with a new page. -/
structure Grown (L : Layout) (s : State) (blocks : List Block) (lists : List FreeList)
    (s' : State) (blocks' : List Block) (lists' : List FreeList) : Prop where
  heap : HeapOk L s' blocks' lists'
  heapEnd : s'.heapEnd = s.heapEnd + pageSz
  pagesLeft : s'.pagesLeft = s.pagesLeft - 1
  growCalls : s'.growCalls = s.growCalls + 1
  payloads : payloads blocks' = payloads blocks
  keeps : Keeps (fun b => b.used ≠ none) s.mem blocks s'.mem blocks'
  tail : tailSize blocks' = tailSize blocks + pageSz
  old : ∀ b ∈ blocks', b ∈ blocks ∨ b.used = none ∧ b.size = tailSize blocks + pageSz
  order : Increasing lists → (∀ k, lists.head? = some k → k.size < tailSize blocks + pageSz) →
    listOf (tailSize blocks + pageSz) lists = none → Increasing lists'

private theorem Unlisted.insertGrown_ensures {n x : ℕ} {lists₀ : List FreeList}
    (u : Unlisted L s blocks lists₀ x n) (nonempty : lists ≠ []) (hn : 0 < n) (hlt : n < 2 ^ 64)
    (sizes : lists₀.map FreeList.size = lists.map FreeList.size)
    (hnone : listOf n lists.dropLast = none) :
    Ensures (· = Fault.noNode)
      (fun s' => s'.heapEnd = s.heapEnd ∧ s'.pagesLeft = s.pagesLeft ∧
        s'.growCalls = s.growCalls ∧ ∃ lists', HeapOk L s' blocks lists' ∧
          (∀ w, Solid blocks w → s'.mem w = s.mem w) ∧
          (Increasing lists → (∀ k, lists.head? = some k → k.size < n) →
            listOf n lists = none → Increasing lists'))
      (insertGrown L n x s) := by
  obtain ⟨hin, hapart⟩ := u.insertable
  obtain ⟨j, D, rfl⟩ := List.exists_cons_of_ne_nil nonempty
  cases lists₀ with
  | nil => simp at sizes
  | cons k B =>
    have hnone₀ : listOf n (k :: B).dropLast = none := by
      refine (listOf_eq_none_congr ?_).mpr hnone
      rw [List.map_dropLast, List.map_dropLast, sizes]
    refine (u.shape.lists_ok.insertGrown_ensures hn hlt hin hapart hnone₀).mono fun s' hs' => ?_
    obtain ⟨lists', t, A, C, -, -, linked, sorted⟩ := hs'
    obtain ⟨hheap, hframe⟩ := u.linked linked
    have hsolid := u.shape.toTagsOk.solid_frame hframe
    refine ⟨linked.heapEnd, linked.pagesLeft, linked.growCalls, lists', hheap, hsolid,
      fun inc hfirst hall => sorted (inc.congr sizes) ?_ ((listOf_eq_none_congr sizes).mpr hall)⟩
    -- unlinking the block has left the size of the first list
    obtain ⟨hkj, -⟩ : k.size = j.size ∧ _ := by simpa using sizes
    rw [hkj]
    exact hfirst j rfl

/-- A further page ends in a free block that is listed. -/
theorem HeapOk.addPage_ensures (ok : HeapOk L s blocks lists) (granted : CanGrow L s)
    (fits : tailSize blocks + pageSz < 2 ^ 31)
    (hnone : listOf (tailSize blocks + pageSz) lists.dropLast = none) :
    Ensures (· = Fault.noNode) (fun s' => ∃ blocks' lists', Grown L s blocks lists s' blocks' lists')
      (addPage L (withPage s)) := by
  have hpage := pageSz_eq
  obtain ⟨h, s₁, blocks', lists₁, hrun, paged, -⟩ := ok.addPage_eq granted fits
  rw [hrun]
  refine (paged.unlisted.insertGrown_ensures ok.nonempty (by omega) (by omega) paged.sizes
    hnone).mono fun s' hs' => ?_
  obtain ⟨hE, hpages, hcalls, lists', hheap, hsolid, horder⟩ := hs'
  refine ⟨blocks', lists', hheap, hE.trans paged.heapEnd, hpages.trans paged.pagesLeft,
    hcalls.trans paged.growCalls, paged.payloads, fun b hb hused => ?_, paged.tail, ?_, horder⟩
  · obtain ⟨hmem, hkept⟩ := paged.keeps b hb hused
    exact ⟨hmem, hkept.trans (kept_of_solid hsolid hmem hused)⟩
  · obtain ⟨front, rfl, hfront⟩ := paged.last
    intro b hb
    rcases List.mem_append.mp hb with hb | hb
    · exact Or.inl (hfront b hb)
    · rw [List.mem_singleton.mp hb]
      exact Or.inr ⟨rfl, rfl⟩

/-! ### The first page -/

/-- A heap without a page. -/
structure Unformatted (L : Layout) (s : State) : Prop where
  heapEnd : s.heapEnd = L.start
  lists_ok : ListsOk L s.mem s.nodes []

/-- The tags of a formatted first page. -/
def firstTags (L : Layout) (s : State) : Mem :=
  let m := (zeroPage s).modify (L.start + 8) fun w => { w with allocated := true }
  let m := m.modify (L.start + 32) fun w => { w with allocated := true }
  let m := m.modify (s.heapEnd + pageSz - 8) fun w => { w with allocated := true }
  freeHeader (freeHeader m (L.start + 40) (pageSz - 48)) (s.heapEnd + pageSz - 16) (pageSz - 48)

theorem firstTags_of_ne {w : ℕ} (hE : s.heapEnd = L.start)
    (hw : w < s.heapEnd ∨ s.heapEnd + pageSz ≤ w) : firstTags L s w = s.mem w := by
  have hpage := pageSz_eq
  unfold firstTags freeHeader
  rw [Mem.modify_of_ne _ _ _ _ (by omega), Mem.modify_of_ne _ _ _ _ (by omega),
    Mem.modify_of_ne _ _ _ _ (by omega), Mem.modify_of_ne _ _ _ _ (by omega),
    Mem.modify_of_ne _ _ _ _ (by omega), zeroPage_old (by omega)]

theorem firstTags_block (hE : s.heapEnd = L.start) :
    FreeTag (firstTags L s (L.start + 40)) (pageSz - 48) ∧
      FreeTag (firstTags L s (s.heapEnd + pageSz - 16)) (pageSz - 48) := by
  have hpage := pageSz_eq
  unfold firstTags freeHeader
  rw [Mem.modify_of_ne _ _ (L.start + 40) _ (by omega), Mem.modify_self, Mem.modify_self]
  exact ⟨⟨rfl, rfl, rfl⟩, ⟨rfl, rfl, rfl⟩⟩

theorem firstTags_epilogue (hE : s.heapEnd = L.start) :
    firstTags L s (s.heapEnd + pageSz - 8) = { Word.ofNat 0 with allocated := true } := by
  have hpage := pageSz_eq
  unfold firstTags freeHeader
  rw [Mem.modify_of_ne _ _ _ _ (by omega), Mem.modify_of_ne _ _ _ _ (by omega), Mem.modify_self,
    Mem.modify_of_ne _ _ _ _ (by omega), Mem.modify_of_ne _ _ _ _ (by omega),
    zeroPage_new (by omega) (by omega)]

/-- The state with a formatted first page that is not listed yet. -/
def formatted (L : Layout) (s : State) : State := { withPage s with mem := firstTags L s }

/-- The formatted page as a region of one free block. -/
theorem Unformatted.formatted_region (h : Unformatted L s) :
    Region (firstTags L s) (L.start + 40) true [⟨L.start + 40, pageSz - 48, none⟩]
      (s.heapEnd + pageSz - 8) := by
  have hpage := pageSz_eq
  have hE := h.heapEnd
  have hsize : SizeOk (pageSz - 48) := by
    unfold SizeOk
    omega
  obtain ⟨hheader, hfooter⟩ := firstTags_block hE
  have hepilogue := firstTags_epilogue hE
  have hfoot : Block.footer ⟨L.start + 40, pageSz - 48, none⟩ = s.heapEnd + pageSz - 16 := by
    rw [Block.footer_eq]
    simp only
    omega
  refine region_cons.mpr ⟨rfl, tagged_free rfl hsize hheader (by rw [hfoot]; exact hfooter),
    region_nil.mpr ⟨?_, ?_, ?_⟩⟩
  · rw [Block.fin_eq]
    simp only
    omega
  · rw [hepilogue]
    rfl
  · rw [hepilogue]

theorem Unformatted.firstPage_eq (h : Unformatted L s) (granted : CanGrow L s)
    (room : s.nodes < L.maxNodes) :
    firstPage L s =
      addListAfter L (pageSz - 48) L.sentinel (L.start + 40) (formatted L s) := by
  have hpage := pageSz_eq
  have hE := h.heapEnd
  have htop := granted.2
  have hsent := h.lists_ok.isNode_sentinel
  have hsentOut := hsent.outside h.lists_ok.nodes_le
  have hsentLe := hsent.le h.lists_ok.nodes_le
  -- formatting the page leaves the links of the sentinel
  have hnext : (formatted L s).mem.nodeNext L.sentinel = L.sentinel :=
    (Mem.ptr_congr (firstTags_of_ne hE (by omega))).trans h.lists_ok.nodeNext_sentinel
  have hprev : (formatted L s).mem.nodePrev L.sentinel = L.sentinel :=
    (Mem.ptr_congr (firstTags_of_ne hE (by omega))).trans h.lists_ok.ring.back
  have hnode : L.node (formatted L s).nodes + 48 ≤ 2 ^ 64 := L.node_le s.nodes room
  have hapart : NodeApart (L.node (formatted L s).nodes) L.sentinel :=
    L.node_apart s.nodes room 0 L.sentinel_exists (by have := h.lists_ok.length_lt; omega)
  rw [firstPage, sfMemGrow_granted granted, ← firstList_eq hnext hprev (by omega) hnode hapart]
  -- the list after the sentinel is the sentinel itself, as on a page without lists
  exact congrArg (fun next => sfAddFreeList L (pageSz - 48) next (formatted L s) >>= _) hnext

/-- The first page becomes one free block. -/
theorem Unformatted.firstPage_ensures (h : Unformatted L s) (granted : CanGrow L s) :
    Ensures (· = Fault.noNode)
      (fun s' => s'.heapEnd = s.heapEnd + pageSz ∧ s'.pagesLeft = s.pagesLeft - 1 ∧
        s'.growCalls = s.growCalls + 1 ∧ ∃ t, HeapOk L s'
          [⟨L.start + 40, pageSz - 48, none⟩] [⟨t, pageSz - 48, [L.start + 40]⟩])
      (firstPage L s) := by
  have hpage := pageSz_eq
  have hE := h.heapEnd
  have htop := granted.2
  have hlists : ListsOk L (firstTags L s) s.nodes ([] ++ []) := by
    refine h.lists_ok.congr fun w hw => firstTags_of_ne hE ?_
    rcases hw with ⟨t, ht, hlo, hhi⟩ | ⟨z, hz, -⟩
    · have := ht.outside h.lists_ok.nodes_le
      omega
    · exact absurd hz List.not_mem_nil
  have hin : InHeap L (L.start + 40) := by
    unfold InHeap
    omega
  by_cases room : s.nodes < L.maxNodes
  · obtain ⟨m', hadd, ok', frame⟩ := ListsOk.addNode (s := formatted L s) (h := L.start + 40)
      (A := []) (B := []) hlists room (show pageSz - 48 < 2 ^ 64 by omega) hin (by simp)
    have hadd : addListAfter L (pageSz - 48) L.sentinel (L.start + 40) (formatted L s) = _ := hadd
    rw [h.firstPage_eq granted room, hadd]
    -- adding the list writes no tag of the page
    have hkeep : ∀ w, L.start ≤ w → w < L.top → w ≠ L.start + 48 → w ≠ L.start + 56 →
        m' w = firstTags L s w := fun w hlo hhi h48 h56 =>
      frame w (not_linkWord ok'.nodes_le hlo hhi fun z hz => by
        obtain rfl : z = L.start + 40 := by simpa using hz
        omega)
    have hregion := h.formatted_region
    have hend : m' (s.heapEnd + pageSz - 8) = firstTags L s (s.heapEnd + pageSz - 8) :=
      hkeep _ (by omega) (by omega) (by omega) (by omega)
    refine .ok ⟨rfl, rfl, rfl, L.node s.nodes, ⟨⟨⟨⟨⟨?_, ?_⟩, ?_, htop⟩, ok'⟩, ?_⟩, by simp⟩⟩
    · change Tiled m' _ _ _ _ (m' (s.heapEnd + pageSz - 8)).prevAllocated
      rw [hend]
      refine hregion.1.congr (fun b hb => ?_) fun b hb _ => ?_
      · obtain rfl := List.mem_singleton.mp hb
        exact hkeep _ (by simp only; omega) (by simp only; omega) (by simp only; omega)
          (by simp only; omega)
      · obtain rfl := List.mem_singleton.mp hb
        rw [Block.footer_eq]
        exact hkeep _ (by simp only; omega) (by simp only; omega) (by simp only; omega)
          (by simp only; omega)
    · change (m' (s.heapEnd + pageSz - 8)).allocated = true
      rw [hend]
      exact hregion.2
    · simp only [formatted, withPage]
      omega
    · simp [listed, frees]
  · have hrun : firstPage L s = .error .noNode := by
      simp [firstPage, sfMemGrow_granted granted, sfAddFreeList, withPage, room, bind, Except.bind]
    rw [hrun]
    exact .error rfl

end CLanguage.Sfmm
