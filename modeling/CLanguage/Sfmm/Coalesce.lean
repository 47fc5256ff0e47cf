import CLanguage.Sfmm.Grow
import CLanguage.Sfmm.Join

/-!
# Coalescing

`sf_free` merges the freed block with its free neighbours. Each of the four
cases rewrites the tags between the first and the last of the merged blocks
(`Merged`) and takes the neighbours off their lists, which leaves one free block
to be listed (`Coalesced`).
-/

namespace CLanguage.Sfmm

open Lib

variable {L : Layout} {s : State} {m m' : Mem} {x y z n o i k h bs : ℕ} {q r : Bool} {b : Block}
  {pre post front back left right blocks : List Block} {lists : List FreeList}

/-- An allocated block that passes the checks of `sf_free`, with what is before and after it. -/
structure Spot (L : Layout) (s : State) (pre : List Block) (r : Bool) (x n k : ℕ)
    (post : List Block) : Prop where
  tags : TagsOk L s (pre ++ ⟨x, n, some k⟩ :: post)
  before : Tiled s.mem (L.start + 40) true pre x r
  tagged : Tagged s.mem r ⟨x, n, some k⟩
  after : Region s.mem (x + n) true post (s.heapEnd - 8)
  accepted : (k + 8) % 2 ^ 32 ≤ n

/-- An allocated block of a heap that satisfies the invariant. -/
structure Target (L : Layout) (s : State) (lists : List FreeList) (pre : List Block) (r : Bool)
    (x n k : ℕ) (post : List Block) : Prop extends Spot L s pre r x n k post where
  heap : HeapOk L s (pre ++ ⟨x, n, some k⟩ :: post) lists

/-- The size of the block at `h` together with its free neighbours. -/
def mergedSize (m : Mem) (h : ℕ) : ℕ :=
  (if (m h).prevAllocated then 0 else 16 * (m (h - 8)).blockSize.toNat) +
    16 * (m h).blockSize.toNat +
    if (m (h + 16 * (m h).blockSize.toNat)).allocated then 0
    else 16 * (m (h + 16 * (m h).blockSize.toNat)).blockSize.toNat

/-! ### The block and its neighbours -/

theorem TagsOk.spot (tags : TagsOk L s blocks) (hb : ⟨x, n, some k⟩ ∈ blocks)
    (accepted : (k + 8) % 2 ^ 32 ≤ n) :
    ∃ pre post r, blocks = pre ++ ⟨x, n, some k⟩ :: post ∧ Spot L s pre r x n k post := by
  obtain ⟨pre, post, r, rfl, hpre, htag, hpost⟩ := tags.region.cut hb
  exact ⟨pre, post, r, rfl, tags, hpre, htag, hpost, accepted⟩

theorem Spot.bounds (t : Spot L s pre r x n k post) :
    SizeOk n ∧ L.start + 40 ≤ x ∧ x + n ≤ s.heapEnd - 8 ∧ L.start + pageSz ≤ s.heapEnd ∧
      s.heapEnd ≤ L.top ∧ L.top ≤ 2 ^ 64 :=
  ⟨t.tagged.sizeOk, t.before.le, t.after.le, t.tags.heapEnd_ge, t.tags.heapEnd_le, L.top_le⟩

/-- The header after the block. -/
theorem Spot.next_eq (t : Spot L s pre r x n k post) :
    add64 x (shl4 (s.mem x).blockSize) = x + n := by
  have hshift : shl4 (s.mem x).blockSize = n := t.tagged.shl4_header
  obtain ⟨hn, hx, hxn, hE, htop, hlt⟩ := t.bounds
  rw [hshift]
  exact add64_of_lt (by omega)

/-- The tag of the block, with the fields that the cases read. -/
theorem Spot.header (t : Spot L s pre r x n k post) :
    (s.mem x).blockSize = BitVec.ofNat 28 (n / 16) ∧ (s.mem x).prevAllocated = r :=
  ⟨t.tagged.blockSize_eq, t.tagged.header_prev⟩

/-- What the footer before the block says about a free block there. -/
theorem Spot.previous (t : Spot L s (front ++ [⟨y, i, none⟩]) r x n k post) :
    r = false ∧ y + i = x ∧ Tiled s.mem (L.start + 40) true front y true ∧
      Tagged s.mem true ⟨y, i, none⟩ ∧ shl4 (s.mem (x + 8 - 16)).blockSize = i ∧
      sub64 (x + 8 - 16 + 8) i = y := by
  obtain ⟨r₀, hfront, htag, hend⟩ := t.before.split
  obtain ⟨hfin, hr⟩ := tiled_nil.mp hend
  obtain rfl : r₀ = true := htag.no_adjacent rfl
  have hfin : y + i = x := hfin
  have hfront : Tiled s.mem (L.start + 40) true front y true := hfront
  have hy := hfront.le
  have hi : SizeOk i := htag.sizeOk
  obtain ⟨-, -, hxn, hE, htop, hlt⟩ := t.bounds
  have hpage := pageSz_eq
  unfold SizeOk at hi
  have hfoot : x + 8 - 16 = Block.footer ⟨y, i, none⟩ := by
    rw [Block.footer_eq]
    simp only
    omega
  refine ⟨hr.symm, hfin, hfront, htag, ?_, ?_⟩
  · rw [hfoot, htag.footer_size rfl]
    exact htag.shl4_header
  · unfold sub64
    omega

/-- The footer before the block has the size of a free block there. -/
private theorem Spot.previous_size (t : Spot L s (front ++ [⟨y, i, none⟩]) r x n k post) :
    16 * (s.mem (x - 8)).blockSize.toNat = i := by
  obtain ⟨-, rfl, -, htag, -⟩ := t.previous
  have hheader : 16 * (s.mem y).blockSize.toNat = i := htag.header_size
  have hfooter : (s.mem (Block.footer ⟨y, i, none⟩)).blockSize = (s.mem y).blockSize :=
    htag.footer_size rfl
  rw [Block.footer_eq] at hfooter
  rw [hfooter]
  exact hheader

/-- The word after a block is a header or the epilogue, and no soft word. -/
theorem Spot.next_not_soft (t : Spot L s pre r x n k post) :
    ¬ SoftWord L (pre ++ ⟨x, n, some k⟩ :: post) (x + n) := by
  intro soft
  obtain ⟨hsolid, hend⟩ := t.tags.soft_ne soft
  cases post with
  | nil => exact hend (region_nil.mp t.after).1
  | cons c post =>
    obtain ⟨haddr, -, -⟩ := region_cons.mp t.after
    exact hsolid ⟨c, by simp, Or.inl haddr.symm⟩

theorem Spot.header_not_soft (t : Spot L s pre r x n k post) :
    ¬ SoftWord L (pre ++ ⟨x, n, some k⟩ :: post) x := fun soft =>
  (t.tags.soft_ne soft).1 ⟨⟨x, n, some k⟩, by simp, Or.inl rfl⟩

/-- The block that is freed at `x`, with its free neighbours `left` and `right`. Together
they are the `bs` bytes at `h`, with `front` before and `back` after them. -/
structure Neighbours (L : Layout) (s : State) (front left : List Block) (x n k : ℕ)
    (right back : List Block) (h bs : ℕ) (q : Bool) : Prop where
  left_cases : left = [] ∧ h = x ∨ ∃ i, 32 ≤ i ∧ left = [⟨h, i, none⟩] ∧ h + i = x
  right_cases : right = [] ∧ h + bs = x + n ∨
    ∃ o, 32 ≤ o ∧ right = [⟨x + n, o, none⟩] ∧ h + bs = x + n + o
  size : SizeOk bs
  before : Tiled s.mem (L.start + 40) true front h true
  middle : Tiled s.mem h true (left ++ ⟨x, n, some k⟩ :: right) (h + bs) q
  after : Region s.mem (h + bs) q back (s.heapEnd - 8)
  allocated : (s.mem (h + bs)).allocated = true

/-- The tags after the block at `x` has become part of the free block of `bs` bytes at `h`. -/
structure Merged (m m' : Mem) (x h bs : ℕ) : Prop where
  header : FreeTag (m' h) bs
  footer : FreeTag (m' (h + bs - 8)) bs
  next : m' (h + bs) = { m (h + bs) with prevAllocated := false }
  freed : (m' x).allocated = false
  frame : ∀ w, w ≠ h → w ≠ x → w ≠ h + bs - 8 → w ≠ h + bs → m' w = m w

/-! ### The tags in the four cases -/

/-- Neither neighbour is free. -/
private theorem Spot.merge_alone (t : Spot L s pre true x n k post)
    (hnext : (s.mem (x + n)).allocated = true) :
    ∃ m', coalesce s.mem (x + 8) = (x, m') ∧ Merged s.mem m' x x n := by
  obtain ⟨hn, hx, hxn, hE, htop, hlt⟩ := t.bounds
  obtain ⟨hsize, hprev⟩ := t.header
  unfold SizeOk at hn
  refine ⟨copyTag ((s.mem.modify x fun w => { w with allocated := false, requestedSize := 0 }).modify
    (x + n) fun w => { w with prevAllocated := false }) x (x + n - 8), ?_, ?_⟩
  · simp only [coalesce, Nat.add_sub_cancel, t.next_eq, hnext, hprev, if_true]
  -- the header is written first, and the footer copied from it
  have hheader : FreeTag (((s.mem.modify x fun w =>
      { w with allocated := false, requestedSize := 0 }).modify (x + n)
        fun w => { w with prevAllocated := false }) x) n := by
    rw [Mem.modify_of_ne _ _ _ _ (by omega), Mem.modify_self]
    exact ⟨hsize, rfl, hprev⟩
  constructor
  · rw [copyTag, Mem.modify_of_ne _ _ _ _ (by omega)]
    exact hheader
  · rw [copyTag, Mem.modify_self]
    exact hheader
  · rw [copyTag, Mem.modify_of_ne _ _ _ _ (by omega), Mem.modify_self,
      Mem.modify_of_ne _ _ _ _ (by omega)]
  · rw [copyTag, Mem.modify_of_ne _ _ _ _ (by omega)]
    exact hheader.2.1
  · intro w _ hw hfoot hafter
    rw [copyTag, Mem.modify_of_ne _ _ _ _ hfoot, Mem.modify_of_ne _ _ _ _ hafter,
      Mem.modify_of_ne _ _ _ _ hw]

/-- The next block is free. -/
private theorem Spot.merge_next (t : Spot L s pre true x n k (⟨x + n, o, none⟩ :: back))
    (fits : n + o < 2 ^ 31) :
    ∃ m', coalesce s.mem (x + 8) = (x, m'.unlink (x + n)) ∧ Merged s.mem m' x x (n + o) := by
  obtain ⟨hn, hx, hxn, hE, htop, hlt⟩ := t.bounds
  obtain ⟨hsize, hprev⟩ := t.header
  obtain ⟨-, htagZ, hback⟩ := region_cons.mp t.after
  have hback : Region s.mem (x + n + o) false back (s.heapEnd - 8) := hback
  have hback_le := hback.le
  have ho : SizeOk o := htagZ.sizeOk
  obtain ⟨hZ, -⟩ := htagZ.freeTag rfl
  have hZ : FreeTag (s.mem (x + n)) o := hZ
  have hadd : (s.mem x).blockSize + (s.mem (x + n)).blockSize = BitVec.ofNat 28 ((n + o) / 16) := by
    rw [hsize, hZ.1, ofNat_div_add hn.2.1]
  unfold SizeOk at hn ho
  -- the word after the two blocks has been marked when the next one was freed
  have hafter : s.mem (x + (n + o)) = { s.mem (x + (n + o)) with prevAllocated := false } := by
    have hword := hback.prev
    rw [← Nat.add_assoc]
    rw [← hword]
  refine ⟨copyTag ((s.mem.modify x fun w => { w with allocated := false, requestedSize := 0 }).modify x
    fun w => { w with blockSize := w.blockSize + (s.mem (x + n)).blockSize }) x (x + (n + o) - 8),
    ?_, ?_⟩
  · have hread : ∀ f : Word → Word, (s.mem.modify x f) (x + n) = s.mem (x + n) := fun f =>
      Mem.modify_of_ne _ _ _ _ (by omega)
    have hread₂ : ∀ f g : Word → Word, ((s.mem.modify x f).modify x g) (x + n) = s.mem (x + n) :=
      fun f g => (Mem.modify_of_ne _ _ _ _ (by omega)).trans (hread f)
    have hfoot : sub64 (add64 (x + n) o) 8 = x + (n + o) - 8 := by
      unfold sub64 add64
      omega
    have hshiftZ : shl4 (s.mem (x + n)).blockSize = o := htagZ.shl4_header
    simp only [coalesce, Nat.add_sub_cancel, t.next_eq, hZ.2.1, hprev, if_true, hread, hread₂,
      hshiftZ, hfoot, Bool.false_eq_true, if_false]
  constructor
  · rw [copyTag, Mem.modify_of_ne _ _ _ _ (by omega), Mem.modify_self, Mem.modify_self]
    exact ⟨hadd, rfl, hprev⟩
  · rw [copyTag, Mem.modify_self, Mem.modify_self, Mem.modify_self]
    exact ⟨hadd, rfl, hprev⟩
  · rw [copyTag, Mem.modify_of_ne _ _ _ _ (by omega), Mem.modify_of_ne _ _ _ _ (by omega),
      Mem.modify_of_ne _ _ _ _ (by omega)]
    exact hafter
  · rw [copyTag, Mem.modify_of_ne _ _ _ _ (by omega), Mem.modify_self, Mem.modify_self]
  · intro w _ hw hfoot _
    rw [copyTag, Mem.modify_of_ne _ _ _ _ hfoot, Mem.modify_of_ne _ _ _ _ hw,
      Mem.modify_of_ne _ _ _ _ hw]

/-- The previous block is free. The source sets the bit after the block only after it has
unlinked the previous one. -/
private theorem Spot.merge_prev (t : Spot L s (front ++ [⟨y, i, none⟩]) r x n k post)
    (fits : i + n < 2 ^ 31) (hnext : (s.mem (x + n)).allocated = true)
    (targets : x + n ≠ s.mem.linksNext y + 16 ∧ x + n ≠ s.mem.linksPrev y + 8) :
    ∃ m', coalesce s.mem (x + 8) = (y, m'.unlink y) ∧ Merged s.mem m' x y (i + n) := by
  obtain ⟨rfl, rfl, hfront, htagY, hshiftY, hback⟩ := t.previous
  obtain ⟨hn, hx, hxn, hE, htop, hlt⟩ := t.bounds
  obtain ⟨hsize, hprev⟩ := t.header
  have hi : SizeOk i := htagY.sizeOk
  obtain ⟨hY, -⟩ := htagY.freeTag rfl
  have hY : FreeTag (s.mem y) i := hY
  have hadd : (s.mem y).blockSize + (s.mem (y + i)).blockSize = BitVec.ofNat 28 ((i + n) / 16) := by
    rw [hsize, hY.1, ofNat_div_add hi.2.1]
  unfold SizeOk at hn hi
  have hend : y + i + n = y + (i + n) := Nat.add_assoc y i n
  -- the memory that the branch writes, up to the link updates
  generalize hm₁ : (s.mem.modify (y + i) fun w => { w with allocated := false }).modify y
    (fun w => { w with blockSize := w.blockSize + (s.mem (y + i)).blockSize }) = m₁
  have hread₁ : m₁ y = { s.mem y with
      blockSize := (s.mem y).blockSize + (s.mem (y + i)).blockSize } := by
    rw [← hm₁, Mem.modify_self, Mem.modify_of_ne _ _ _ _ (by omega)]
  have hold₁ : ∀ w, w ≠ y → w ≠ y + i → m₁ w = s.mem w := fun w h1 h2 => by
    rw [← hm₁, Mem.modify_of_ne _ _ _ _ h1, Mem.modify_of_ne _ _ _ _ h2]
  have hrun : coalesce s.mem (y + i + 8) = (y, ((copyTag m₁ y (y + (i + n) - 8)).unlink y).modify
      (y + i + n) fun w => { w with prevAllocated := false }) := by
    have hreadF : ∀ f : Word → Word, (s.mem.modify (y + i) f) (y + i + 8 - 16) =
        s.mem (y + i + 8 - 16) := fun f => Mem.modify_of_ne _ _ _ _ (by omega)
    have hshift : shl4 (m₁ y).blockSize = i + n := by
      rw [hread₁]
      simp only
      rw [hadd]
      exact shl4_ofNat (by omega) (by omega)
    have hfoot : sub64 (add64 y (i + n)) 8 = y + (i + n) - 8 := by
      unfold sub64 add64
      omega
    simp only [coalesce, Nat.add_sub_cancel, t.next_eq, hnext, hprev, if_true, hreadF, hshiftY, hback,
      Mem.modify_self, hm₁, hshift, hfoot, Bool.false_eq_true, if_false]
  generalize hm₃ : copyTag m₁ y (y + (i + n) - 8) = m₃ at hrun
  have hold₃ : ∀ w, w ≠ y → w ≠ y + i → w ≠ y + (i + n) - 8 → m₃ w = s.mem w := fun w h1 h2 h3 => by
    rw [← hm₃, copyTag, Mem.modify_of_ne _ _ _ _ h3, hold₁ w h1 h2]
  have hswap : (m₃.unlink y).modify (y + i + n) (fun w => { w with prevAllocated := false }) =
      (m₃.modify (y + i + n) fun w => { w with prevAllocated := false }).unlink y := by
    have hnext₃ : m₃.linksNext y = s.mem.linksNext y :=
      Mem.ptr_congr (hold₃ _ (by omega) (by omega) (by omega))
    have hprev₃ : m₃.linksPrev y = s.mem.linksPrev y :=
      Mem.ptr_congr (hold₃ _ (by omega) (by omega) (by omega))
    exact Mem.modify_unlink (hnext₃ ▸ targets.1) (hprev₃ ▸ targets.2) (by omega) (by omega)
  have hheader : FreeTag (m₁ y) (i + n) := by
    rw [hread₁]
    exact ⟨hadd, hY.2.1, hY.2.2⟩
  have hheader₃ : m₃ y = m₁ y := by
    rw [← hm₃, copyTag, Mem.modify_of_ne _ _ _ _ (by omega)]
  refine ⟨m₃.modify (y + i + n) fun w => { w with prevAllocated := false }, by rw [hrun, hswap], ?_⟩
  constructor
  · rw [Mem.modify_of_ne _ _ _ _ (by omega), hheader₃]
    exact hheader
  · rw [Mem.modify_of_ne _ _ _ _ (by omega), ← hm₃, copyTag, Mem.modify_self]
    exact ⟨hheader.1, hheader.2.1, hheader.2.2⟩
  · rw [← hend, Mem.modify_self, hold₃ _ (by omega) (by omega) (by omega)]
  · rw [Mem.modify_of_ne _ _ _ _ (by omega), ← hm₃, copyTag, Mem.modify_of_ne _ _ _ _ (by omega),
      ← hm₁, Mem.modify_of_ne _ _ _ _ (by omega), Mem.modify_self]
  · intro w h1 h2 h3 h4
    rw [Mem.modify_of_ne _ _ _ _ (by omega), hold₃ w h1 h2 h3]

/-- Both neighbours are free. -/
private theorem Spot.merge_both
    (t : Spot L s (front ++ [⟨y, i, none⟩]) r x n k (⟨x + n, o, none⟩ :: back))
    (fits : i + n + o < 2 ^ 31) :
    ∃ m', coalesce s.mem (x + 8) = (y, (m'.unlink (x + n)).unlink y) ∧
      Merged s.mem m' x y (i + n + o) := by
  obtain ⟨rfl, rfl, hfront, htagY, hshiftY, hbackY⟩ := t.previous
  obtain ⟨hn, hx, hxn, hE, htop, hlt⟩ := t.bounds
  obtain ⟨hsize, hprev⟩ := t.header
  obtain ⟨-, htagZ, hback⟩ := region_cons.mp t.after
  have hback : Region s.mem (y + i + n + o) false back (s.heapEnd - 8) := hback
  have hi : SizeOk i := htagY.sizeOk
  have ho : SizeOk o := htagZ.sizeOk
  obtain ⟨hY, -⟩ := htagY.freeTag rfl
  have hY : FreeTag (s.mem y) i := hY
  obtain ⟨hZ, -⟩ := htagZ.freeTag rfl
  have hZ : FreeTag (s.mem (y + i + n)) o := hZ
  have hback_le := hback.le
  have hadd : (s.mem y).blockSize + (s.mem (y + i)).blockSize + (s.mem (y + i + n)).blockSize =
      BitVec.ofNat 28 ((i + n + o) / 16) := by
    rw [hsize, hY.1, hZ.1, ofNat_div_add hi.2.1, ofNat_div_add (by unfold SizeOk at *; omega)]
  unfold SizeOk at hn hi ho
  have hend : y + i + n + o = y + (i + n + o) := by omega
  have hafter : s.mem (y + (i + n + o)) = { s.mem (y + (i + n + o)) with prevAllocated := false } := by
    have hword := hback.prev
    rw [← hend]
    rw [← hword]
  -- the memory that the branch writes, up to the link updates
  generalize hm₁ : (s.mem.modify (y + i) fun w => { w with allocated := false }).modify y
    (fun w => { w with
      blockSize := w.blockSize + (s.mem (y + i)).blockSize + (s.mem (y + i + n)).blockSize }) = m₁
  have hread₁ : m₁ y = { s.mem y with blockSize :=
      (s.mem y).blockSize + (s.mem (y + i)).blockSize + (s.mem (y + i + n)).blockSize } := by
    rw [← hm₁, Mem.modify_self, Mem.modify_of_ne _ _ _ _ (by omega)]
  have hold₁ : ∀ w, w ≠ y → w ≠ y + i → m₁ w = s.mem w := fun w h1 h2 => by
    rw [← hm₁, Mem.modify_of_ne _ _ _ _ h1, Mem.modify_of_ne _ _ _ _ h2]
  have hheader : FreeTag (m₁ y) (i + n + o) := by
    rw [hread₁]
    exact ⟨hadd, hY.2.1, hY.2.2⟩
  refine ⟨copyTag m₁ y (y + (i + n + o) - 8), ?_, ?_⟩
  · have hreadF : ∀ f : Word → Word, (s.mem.modify (y + i) f) (y + i + 8 - 16) =
        s.mem (y + i + 8 - 16) := fun f => Mem.modify_of_ne _ _ _ _ (by omega)
    have hreadN : ∀ f : Word → Word, (s.mem.modify (y + i) f) (y + i + n) =
        s.mem (y + i + n) := fun f => Mem.modify_of_ne _ _ _ _ (by omega)
    have hreadZ : m₁ (y + i + n) = s.mem (y + i + n) := hold₁ _ (by omega) (by omega)
    have hshiftZ : shl4 (s.mem (y + i + n)).blockSize = o := htagZ.shl4_header
    have hfoot : sub64 (add64 (y + i + n) o) 8 = y + (i + n + o) - 8 := by
      unfold sub64 add64
      omega
    simp only [coalesce, Nat.add_sub_cancel, t.next_eq, hZ.2.1, hprev, hreadF, hreadN, hshiftY,
      hbackY, Mem.modify_self, hm₁, hreadZ, hshiftZ, hfoot, Bool.false_eq_true, if_false]
  constructor
  · rw [copyTag, Mem.modify_of_ne _ _ _ _ (by omega)]
    exact hheader
  · rw [copyTag, Mem.modify_self]
    exact ⟨hheader.1, hheader.2.1, hheader.2.2⟩
  · rw [copyTag, Mem.modify_of_ne _ _ _ _ (by omega), hold₁ _ (by omega) (by omega)]
    exact hafter
  · rw [copyTag, Mem.modify_of_ne _ _ _ _ (by omega), ← hm₁, Mem.modify_of_ne _ _ _ _ (by omega),
      Mem.modify_self]
  · intro w h1 h2 h3 _
    rw [copyTag, Mem.modify_of_ne _ _ _ _ h3, hold₁ w h1 h2]

/-- Unlink the blocks of a list in turn. -/
abbrev Mem.unlinkAll (m : Mem) (off : List Block) : Mem := off.foldl (fun m b => m.unlink b.addr) m

/-- What coalescing does to the tags, and the neighbours that it unlinks. -/
theorem Spot.coalesce_eq (t : Spot L s pre r x n k post) (fits : mergedSize s.mem x < 2 ^ 31)
    (targets : ∀ b ∈ pre, b.used = none →
      x + n ≠ s.mem.linksNext b.addr + 16 ∧ x + n ≠ s.mem.linksPrev b.addr + 8) :
    ∃ front left right back h q m', pre = front ++ left ∧ post = right ++ back ∧
      Neighbours L s front left x n k right back h (mergedSize s.mem x) q ∧
      coalesce s.mem (x + 8) = (h, m'.unlinkAll (right ++ left)) ∧
      Merged s.mem m' x h (mergedSize s.mem x) := by
  have hleft := t.before.last
  have hn : SizeOk n := t.tagged.sizeOk
  have hown : 16 * (s.mem x).blockSize.toNat = n := t.tagged.header_size
  have hprev : (s.mem x).prevAllocated = r := t.tagged.header_prev
  have hsum : mergedSize s.mem x =
      (if r then 0 else 16 * (s.mem (x - 8)).blockSize.toNat) + n +
        if (s.mem (x + n)).allocated then 0 else 16 * (s.mem (x + n)).blockSize.toNat := by
    rw [mergedSize, hown, hprev]
  -- the four branches of `coalesce`
  by_cases hnext : (s.mem (x + n)).allocated = true
  · rw [if_pos hnext, Nat.add_zero] at hsum
    rcases hleft with ⟨rfl, -⟩ | ⟨front, y, i, rfl, rfl, -, -⟩
    · rw [if_pos rfl, Nat.zero_add] at hsum
      rw [hsum] at fits ⊢
      obtain ⟨m', hrun, h⟩ := t.merge_alone hnext
      exact ⟨pre, [], [], post, x, true, m', by simp, rfl, ⟨Or.inl ⟨rfl, rfl⟩, Or.inl ⟨rfl, rfl⟩, hn,
        t.before, tiled_singleton t.tagged, t.after, hnext⟩, hrun, h⟩
    · rw [if_neg Bool.false_ne_true, t.previous_size] at hsum
      rw [hsum] at fits ⊢
      obtain ⟨-, hy, hfront, htagY, -, -⟩ := t.previous
      have hi : SizeOk i := htagY.sizeOk
      have hend : y + (i + n) = x + n := by omega
      obtain ⟨m', hrun, h⟩ := t.merge_prev fits hnext (targets ⟨y, i, none⟩ (by simp) rfl)
      refine ⟨front, [⟨y, i, none⟩], [], post, y, true, m', rfl, rfl, ?_, hrun, h⟩
      refine ⟨Or.inr ⟨i, hi.1, rfl, hy⟩, Or.inl ⟨rfl, hend⟩, ?_, hfront, ?_, ?_, ?_⟩
      · unfold SizeOk at *
        omega
      · exact ⟨rfl, htagY, hy.symm, t.tagged, hend.symm, rfl⟩
      · rw [hend]
        exact t.after
      · rwa [hend]
  · obtain ⟨⟨z, o, u⟩, back, rfl, hfree⟩ := t.after.allocated_eq_false.mp (by simpa using hnext)
    obtain rfl : u = none := hfree
    obtain ⟨rfl, htagZ, hback⟩ := region_cons.mp t.after
    have hback : Region s.mem (x + n + o) false back (s.heapEnd - 8) := hback
    have halloc : (s.mem (x + n + o)).allocated = true := hback.allocated_of_free
    have ho : SizeOk o := htagZ.sizeOk
    have hright : 16 * (s.mem (x + n)).blockSize.toNat = o := htagZ.header_size
    rw [if_neg hnext, hright] at hsum
    rcases hleft with ⟨rfl, -⟩ | ⟨front, y, i, rfl, rfl, -, -⟩
    · rw [if_pos rfl, Nat.zero_add] at hsum
      rw [hsum] at fits ⊢
      have hend : x + (n + o) = x + n + o := (Nat.add_assoc x n o).symm
      obtain ⟨m', hrun, h⟩ := t.merge_next fits
      refine ⟨pre, [], [⟨x + n, o, none⟩], back, x, false, m', by simp, rfl, ?_, hrun, h⟩
      refine ⟨Or.inl ⟨rfl, rfl⟩, Or.inr ⟨o, ho.1, rfl, hend⟩, ?_, t.before, ?_, ?_, ?_⟩
      · unfold SizeOk at *
        omega
      · exact ⟨rfl, t.tagged, rfl, htagZ, hend.symm, rfl⟩
      · rw [hend]
        exact hback
      · rwa [hend]
    · rw [if_neg Bool.false_ne_true, t.previous_size] at hsum
      rw [hsum] at fits ⊢
      obtain ⟨-, hy, hfront, htagY, -, -⟩ := t.previous
      have hi : SizeOk i := htagY.sizeOk
      have hend : y + (i + n + o) = x + n + o := by omega
      obtain ⟨m', hrun, h⟩ := t.merge_both fits
      refine ⟨front, [⟨y, i, none⟩], [⟨x + n, o, none⟩], back, y, false, m', rfl, rfl, ?_, hrun, h⟩
      refine ⟨Or.inr ⟨i, hi.1, rfl, hy⟩, Or.inr ⟨o, ho.1, rfl, hend⟩, ?_, hfront, ?_, ?_, ?_⟩
      · unfold SizeOk at *
        omega
      · exact ⟨rfl, htagY, hy.symm, t.tagged, rfl, htagZ, hend.symm, rfl⟩
      · rw [hend]
        exact hback
      · rwa [hend]

/-! ### The blocks and the lists -/

theorem frees_merged (perm : (listed lists).Perm (frees (front ++ back))) :
    (frees (front ++ ([⟨h, bs, none⟩] ++ back))).Perm (⟨h, bs, none⟩ :: listed lists) := by
  rw [List.singleton_append, frees_append, frees_cons_free rfl]
  rw [frees_append] at perm
  exact List.perm_middle.trans (perm.symm.cons _)

/-- Take merged neighbours off their lists. What is still listed then lies inside the merged
block or on either side of it. -/
theorem Shaped.unlist_all {off : List Block}
    (shape : Shaped L s (front ++ ([⟨h, bs, none⟩] ++ back)) lists)
    (perm : (listed lists).Perm (off ++ frees (front ++ back)))
    (inside : ∀ b ∈ off.tail, b.addr = h) :
    ∃ lists₀, Unlisted L { s with mem := s.mem.unlinkAll off }
        (front ++ ([⟨h, bs, none⟩] ++ back)) lists₀ h bs ∧
      lists₀.map FreeList.size = lists.map FreeList.size ∧
      ∀ w, ¬ SoftWord L (front ++ ([⟨h, bs, none⟩] ++ back)) w → s.mem.unlinkAll off w = s.mem w := by
  induction off generalizing s lists with
  | nil => exact ⟨lists, ⟨shape, frees_merged perm⟩, rfl, fun _ _ => rfl⟩
  | cons c off ih =>
    have hperm : ∀ lists₀, (listed lists).Perm (c :: listed lists₀) →
        (listed lists₀).Perm (off ++ frees (front ++ back)) := fun lists₀ hl =>
      (List.perm_cons c).mp (hl.symm.trans perm)
    -- the first block is unlinked, and the other ones from what it leaves
    obtain ⟨lists₁, hshape, hl, hsizes, hframe⟩ := shape.unlist
      (perm.symm.subset List.mem_cons_self) fun lists₀ hl z hz => by
        rw [members_eq_map_listed] at hz
        obtain ⟨b, hb, rfl⟩ := List.mem_map.mp hz
        rcases List.mem_append.mp ((hperm lists₀ hl).subset hb) with hb | hb
        · exact ⟨⟨h, bs, none⟩, by simp, (inside b hb).symm, rfl⟩
        · obtain ⟨hmem, hfree⟩ := mem_frees.mp hb
          refine ⟨b, ?_, rfl, hfree⟩
          simp only [List.mem_append] at hmem ⊢
          tauto
    obtain ⟨lists₀, hunlisted, hsizes₀, hframe₀⟩ := ih hshape (hperm lists₁ hl) fun b hb =>
      inside b (List.mem_of_mem_tail hb)
    exact ⟨lists₀, hunlisted, hsizes₀.trans hsizes, fun w hw => (hframe₀ w hw).trans (hframe w hw)⟩

theorem Neighbours.bounds (nb : Neighbours L s front left x n k right back h bs q) :
    h ≤ x ∧ 32 ≤ n ∧ x + n ≤ h + bs := by
  have hx : (⟨x, n, some k⟩ : Block) ∈ left ++ ⟨x, n, some k⟩ :: right := by simp
  have hrange := nb.middle.range hx
  exact ⟨hrange.1, nb.middle.size_ge hx, hrange.2⟩

/-- The merged block in place of the block and its neighbours. -/
theorem Neighbours.shaped (nb : Neighbours L s front left x n k right back h bs q)
    (merged : Merged s.mem m' x h bs)
    (shape : Shaped L s (front ++ ((left ++ ⟨x, n, some k⟩ :: right) ++ back)) lists)
    (covers : Covers (front ++ ((left ++ ⟨x, n, some k⟩ :: right) ++ back)) lists) :
    Shaped L { s with mem := m' } (front ++ ([⟨h, bs, none⟩] ++ back)) lists := by
  obtain ⟨hhx, hn, hxn⟩ := nb.bounds
  have hbs := nb.size
  have outside : ∀ w, w < h ∨ h + bs < w → m' w = s.mem w := fun w hw =>
    merged.frame w (by omega) (by omega) (by omega) (by omega)
  have hpost : Region m' (h + bs) false back (s.heapEnd - 8) := nb.after.setPrev merged.next
    (fun w hw _ => outside w (Or.inr hw)) fun _ => nb.allocated
  refine shape.retag covers nb.before nb.middle nb.after outside (fun c hc hfree => ?_)
    (tiled_singleton (tagged_free rfl hbs merged.header merged.footer)) hpost
  -- the links of the neighbours stay, since only headers and footers are written
  have hlinks : c.addr + 32 ≤ x ∨ c.addr = x + n ∧ x + n + 32 ≤ h + bs := by
    rcases List.mem_append.mp hc with hc | hc
    · rcases nb.left_cases with ⟨rfl, -⟩ | ⟨i, hi, rfl, hix⟩
      · exact absurd hc List.not_mem_nil
      · obtain rfl := List.mem_singleton.mp hc
        exact Or.inl (by simp only; omega)
    · rcases List.mem_cons.mp hc with rfl | hc
      · exact absurd hfree (by simp)
      · rcases nb.right_cases with ⟨rfl, -⟩ | ⟨o, ho, rfl, hend⟩
        · exact absurd hc List.not_mem_nil
        · obtain rfl := List.mem_singleton.mp hc
          exact Or.inr ⟨rfl, by omega⟩
  have hlo : h ≤ c.addr := (nb.middle.range hc).1
  exact ⟨merged.frame _ (by omega) (by omega) (by omega) (by omega),
    merged.frame _ (by omega) (by omega) (by omega) (by omega)⟩

/-- The free neighbours are the listed blocks that go. -/
theorem Neighbours.frees_perm (nb : Neighbours L s front left x n k right back h bs q) :
    (frees (front ++ ((left ++ ⟨x, n, some k⟩ :: right) ++ back))).Perm
      ((right ++ left) ++ frees (front ++ back)) := by
  have hleft : frees left = left := by
    rcases nb.left_cases with ⟨rfl, -⟩ | ⟨i, -, rfl, -⟩ <;> rfl
  have hright : frees right = right := by
    rcases nb.right_cases with ⟨rfl, -⟩ | ⟨o, -, rfl, -⟩ <;> rfl
  rw [frees_append, frees_append, frees_append, frees_cons_used (by simp), hleft, hright,
    frees_append]
  refine (List.perm_append_comm_assoc ..).trans ?_
  exact (List.perm_append_comm.append_right _)

/-- The blocks with exactly the free neighbours merged. -/
theorem Neighbours.join {a e : ℕ} {p₁ p₂ : Bool}
    (nb : Neighbours L s front left x n k right back h bs q)
    (tiled : Tiled m a p₁ (front ++ ([⟨h, bs, none⟩] ++ back)) e p₂) :
    joinFree (release [x + 8] (front ++ ((left ++ ⟨x, n, some k⟩ :: right) ++ back))) =
      front ++ ([⟨h, bs, none⟩] ++ back) := by
  obtain ⟨hhx, hn, hxn⟩ := nb.bounds
  have hne : ∀ b : Block, b.addr ≠ x → b.addr + 8 ∉ [x + 8] := fun b hb => by simpa using hb
  have hfront : release [x + 8] front = front := release_of_notMem fun b hb => hne b (by
    have hrange := nb.before.range hb
    have hsize := nb.before.size_ge hb
    have hfin := b.fin_eq
    omega)
  have hback : release [x + 8] back = back := release_of_notMem fun b hb => hne b (by
    have hrange := nb.after.1.range hb
    omega)
  have hleft : release [x + 8] left = left := release_of_notMem fun b hb => hne b (by
    rcases nb.left_cases with ⟨rfl, -⟩ | ⟨i, hi, rfl, hix⟩
    · exact absurd hb List.not_mem_nil
    · obtain rfl := List.mem_singleton.mp hb
      simp only
      omega)
  have hright : release [x + 8] right = right := release_of_notMem fun b hb => hne b (by
    rcases nb.right_cases with ⟨rfl, -⟩ | ⟨o, -, rfl, -⟩
    · exact absurd hb List.not_mem_nil
    · obtain rfl := List.mem_singleton.mp hb
      simp only
      omega)
  have hown : Block.release [x + 8] ⟨x, n, some k⟩ = ⟨x, n, none⟩ := if_pos (by simp)
  -- freeing changes the one block, and joining then glues what lies side by side
  have hrelease : release [x + 8] (front ++ ((left ++ ⟨x, n, some k⟩ :: right) ++ back)) =
      front ++ ((left ++ ⟨x, n, none⟩ :: right) ++ back) := by
    simp only [release, List.map_append, List.map_cons] at hfront hback hleft hright ⊢
    rw [hfront, hback, hleft, hright, hown]
  rw [hrelease, ← tiled.joinFree_eq]
  rcases nb.left_cases with ⟨rfl, rfl⟩ | ⟨i, -, rfl, rfl⟩ <;>
    rcases nb.right_cases with ⟨rfl, hend⟩ | ⟨o, -, rfl, hend⟩
  · obtain rfl : bs = n := by omega
    rfl
  · obtain rfl : bs = n + o := by omega
    exact joinFree_glue rfl rfl
  · obtain rfl : bs = i + n := by omega
    exact joinFree_glue rfl rfl
  · obtain rfl : bs = i + n + o := by omega
    exact (joinFree_glue rfl rfl).trans (joinFree_glue rfl rfl)

theorem Neighbours.payloads (nb : Neighbours L s front left x n k right back h bs q) :
    (payloads (front ++ ((left ++ ⟨x, n, some k⟩ :: right) ++ back))).Perm
      ((x + 8, k) :: payloads (front ++ ([⟨h, bs, none⟩] ++ back))) := by
  have hleft : CLanguage.Sfmm.payloads left = [] := by
    rcases nb.left_cases with ⟨rfl, -⟩ | ⟨i, -, rfl, -⟩ <;> rfl
  have hright : CLanguage.Sfmm.payloads right = [] := by
    rcases nb.right_cases with ⟨rfl, -⟩ | ⟨o, -, rfl, -⟩ <;> rfl
  rw [List.singleton_append, payloads_append, payloads_append, payloads_append, payloads_append,
    payloads_cons_used rfl, payloads_cons_free rfl, hleft, hright]
  exact List.perm_middle

/-- The other allocated blocks are on either side. -/
theorem Neighbours.side (nb : Neighbours L s front left x n k right back h bs q)
    (hb : b ∈ front ++ ((left ++ ⟨x, n, some k⟩ :: right) ++ back)) (used : b.used ≠ none)
    (other : b.addr ≠ x) : b ∈ front ++ back := by
  simp only [List.mem_append, List.mem_cons] at hb ⊢
  rcases hb with hb | ((hb | rfl | hb) | hb)
  · exact Or.inl hb
  · rcases nb.left_cases with ⟨rfl, -⟩ | ⟨i, -, rfl, -⟩
    · exact absurd hb List.not_mem_nil
    · exact absurd (List.mem_singleton.mp hb ▸ rfl) used
  · exact absurd rfl other
  · rcases nb.right_cases with ⟨rfl, -⟩ | ⟨o, -, rfl, -⟩
    · exact absurd hb List.not_mem_nil
    · exact absurd (List.mem_singleton.mp hb ▸ rfl) used
  · exact Or.inr hb

/-- Only tags between the merged block's ends and the one after it change. -/
theorem Neighbours.outside (nb : Neighbours L s front left x n k right back h bs q)
    (merged : Merged s.mem m' x h bs) {w : ℕ} (hw : w < h ∨ h + bs < w) : m' w = s.mem w := by
  obtain ⟨hhx, hn, hxn⟩ := nb.bounds
  exact merged.frame w (by omega) (by omega) (by omega) (by omega)

/-- The header of a block on either side, but for one `prev_allocated` bit. -/
theorem Neighbours.header (nb : Neighbours L s front left x n k right back h bs q)
    (merged : Merged s.mem m' x h bs) (hb : b ∈ front ++ back) :
    m' b.addr = if b.addr = h + bs then { s.mem b.addr with prevAllocated := false }
      else s.mem b.addr := by
  split_ifs with hend
  · rw [hend]
    exact merged.next
  · refine nb.outside merged ?_
    rcases List.mem_append.mp hb with hb | hb
    · have hrange := nb.before.range hb
      have hsize := nb.before.size_ge hb
      have hfin := b.fin_eq
      omega
    · have hrange := nb.after.1.range hb
      omega

/-- The outcome of coalescing: the tags are those of `m₁`, and the merged block is not listed. -/
structure Coalesced (L : Layout) (s : State) (lists : List FreeList) (x h bs : ℕ) (m₁ m' : Mem)
    (blocks' : List Block) (lists' : List FreeList) : Prop where
  merged : Merged s.mem m₁ x h bs
  unlisted : Unlisted L { s with mem := m' } blocks' lists' h bs
  sizes : lists'.map FreeList.size = lists.map FreeList.size
  frame : ∀ w, ¬ SoftWord L blocks' w → m' w = m₁ w

/-- The size that `sf_free` reads from the header of the merged block. -/
theorem Coalesced.size {blocks' : List Block} {lists' : List FreeList} {m₁ : Mem}
    (co : Coalesced L s lists x h bs m₁ m' blocks' lists') : shl4 (m' h).blockSize = bs := by
  have hmem : (⟨h, bs, none⟩ : Block) ∈ blocks' :=
    (mem_frees.mp (co.unlisted.perm.symm.subset List.mem_cons_self)).1
  obtain ⟨r, htag⟩ := co.unlisted.shape.region.1.tagged hmem
  exact htag.shl4_header

/-- Coalescing leaves one free block to be listed. -/
theorem Target.coalesce_ok (t : Target L s lists pre r x n k post)
    (fits : mergedSize s.mem x < 2 ^ 31) :
    ∃ front left right back h q m₁ m' lists', pre = front ++ left ∧ post = right ++ back ∧
      Neighbours L s front left x n k right back h (mergedSize s.mem x) q ∧
      coalesce s.mem (x + 8) = (h, m') ∧
      Coalesced L s lists x h (mergedSize s.mem x) m₁ m'
        (front ++ ([⟨h, mergedSize s.mem x, none⟩] ++ back)) lists' := by
  have htargets : ∀ b ∈ pre, b.used = none →
      x + n ≠ s.mem.linksNext b.addr + 16 ∧ x + n ≠ s.mem.linksPrev b.addr + 8 := by
    rintro ⟨y, i, u⟩ hb rfl
    obtain ⟨_, d, -⟩ := t.heap.detachable (List.mem_append_left _ hb)
    exact ⟨fun e => t.next_not_soft (e ▸ d.next_soft), fun e => t.next_not_soft (e ▸ d.prev_soft)⟩
  obtain ⟨front, left, right, back, h, q, m₁, rfl, rfl, nb, hrun, merged⟩ :=
    t.coalesce_eq fits htargets
  have hblocks : front ++ left ++ ⟨x, n, some k⟩ :: (right ++ back) =
      front ++ ((left ++ ⟨x, n, some k⟩ :: right) ++ back) := by simp
  have hheap := hblocks ▸ t.heap
  have hinside : ∀ b ∈ (right ++ left).tail, b.addr = h := by
    rcases nb.left_cases with ⟨rfl, -⟩ | ⟨i, -, rfl, -⟩ <;>
      rcases nb.right_cases with ⟨rfl, -⟩ | ⟨o, -, rfl, -⟩ <;> simp
  obtain ⟨lists', hunlisted, hsizes, hframe⟩ := Shaped.unlist_all
    (nb.shaped merged hheap.toShaped hheap.covers) (hheap.listed_frees.trans nb.frees_perm) hinside
  exact ⟨front, left, right, back, h, q, m₁, _, lists', rfl, rfl, nb, hrun,
    ⟨merged, hunlisted, hsizes, hframe⟩⟩

end CLanguage.Sfmm
