import CLanguage.Sfmm.Insert

/-!
# The invariant of the heap

`HeapOk` ties the two data structures together: the blocks tile the region up
to the epilogue, memory holds the free lists, and the listed blocks are exactly
the free ones.

Every operation works in two phases. It first rewrites the tags of a few
neighbouring blocks, which leaves the links alone (`Shaped.retag`), and then
edits the links, which leaves the tags and the payloads of allocated blocks
alone (`Shaped.relink`).
-/

namespace CLanguage.Sfmm

open Lib

variable {L : Layout} {m m' : Mem} {s s' : State} {n w a e x y : ℕ} {p q r : Bool}
  {b c : Block} {blocks pre mid mid' post : List Block} {lists lists' : List FreeList}

/-- A stretch of blocks that ends with the epilogue at `e`. -/
def Region (m : Mem) (a : ℕ) (p : Bool) (blocks : List Block) (e : ℕ) : Prop :=
  Tiled m a p blocks e (m e).prevAllocated ∧ (m e).allocated = true

/-- The free blocks. -/
def frees (blocks : List Block) : List Block := blocks.filter fun b => b.used.isNone

/-- The payloads of the allocated blocks, with their requested sizes. -/
def payloads (blocks : List Block) : List (ℕ × ℕ) :=
  blocks.filterMap fun b => b.used.map (b.addr + 8, ·)

/-- Every allocated block has room for its payload and its header. -/
def Fits (blocks : List Block) : Prop := ∀ b ∈ blocks, ∀ k, b.used = some k → k + 8 ≤ b.size

theorem Fits.of_origin {blocks' : List Block} {k : ℕ} (h : Fits blocks)
    (origin : ∀ b ∈ blocks', b.used ≠ none → b ∈ blocks ∨ b.used = some k ∧ k + 8 ≤ b.size) :
    Fits blocks' := by
  intro b hb j hused
  rcases origin b hb (by simp [hused]) with hold | ⟨hnew, hfit⟩
  · exact h b hold j hused
  · obtain rfl : k = j := by simpa [hused] using hnew.symm
    exact hfit

@[simp] theorem frees_append : frees (pre ++ post) = frees pre ++ frees post :=
  List.filter_append ..

theorem frees_cons_free (h : b.used = none) : frees (b :: post) = b :: frees post := by
  simp [frees, h]

theorem frees_cons_used (h : b.used ≠ none) : frees (b :: post) = frees post := by
  have hsome : b.used.isNone = false := Option.isNone_eq_false_iff.mpr (Option.isSome_iff_ne_none.mpr h)
  simp [frees, hsome]

@[simp] theorem frees_nil : frees [] = [] := rfl

@[simp] theorem payloads_append : payloads (pre ++ post) = payloads pre ++ payloads post :=
  List.filterMap_append ..

@[simp] theorem payloads_nil : payloads [] = [] := rfl

theorem payloads_cons_free (h : b.used = none) : payloads (b :: post) = payloads post := by
  simp [payloads, h]

theorem payloads_cons_used {k : ℕ} (h : b.used = some k) :
    payloads (b :: post) = (b.addr + 8, k) :: payloads post := by
  simp [payloads, h]

theorem mem_frees : b ∈ frees blocks ↔ b ∈ blocks ∧ b.used = none := by
  simp [frees]

theorem mem_payloads {i : ℕ × ℕ} :
    i ∈ payloads blocks ↔ ∃ b ∈ blocks, b.used = some i.2 ∧ b.addr + 8 = i.1 := by
  obtain ⟨k, j⟩ := i
  simp [payloads]

/-! ### Regions -/

theorem region_nil : Region m a p [] e ↔
    a = e ∧ p = (m e).prevAllocated ∧ (m e).allocated = true := by
  simp [Region, and_assoc]

theorem region_cons : Region m a p (b :: blocks) e ↔
    b.addr = a ∧ Tagged m p b ∧ Region m b.fin b.used.isSome blocks e := by
  simp [Region, and_assoc]

theorem region_append : Region m a p (pre ++ post) e ↔
    ∃ c r, Tiled m a p pre c r ∧ Region m c r post e := by
  rw [Region, tiled_append]
  constructor
  · rintro ⟨⟨c, r, hpre, hpost⟩, hend⟩
    exact ⟨c, r, hpre, hpost, hend⟩
  · rintro ⟨c, r, hpre, hpost, hend⟩
    exact ⟨⟨c, r, hpre, hpost⟩, hend⟩

/-- The word at the start of a region carries the `allocated` bit of the block before it. -/
theorem Region.prev (h : Region m a p blocks e) : (m a).prevAllocated = p := by
  cases blocks with
  | nil =>
    obtain ⟨rfl, rfl, -⟩ := region_nil.mp h
    rfl
  | cons b blocks =>
    obtain ⟨rfl, htag, -⟩ := region_cons.mp h
    exact htag.header_prev

/-- The word at the start of a region is free exactly if its first block is. -/
theorem Region.allocated_eq_false (h : Region m a p blocks e) :
    (m a).allocated = false ↔ ∃ b rest, blocks = b :: rest ∧ b.used = none := by
  cases blocks with
  | nil =>
    obtain ⟨rfl, -, halloc⟩ := region_nil.mp h
    simp [halloc]
  | cons b blocks =>
    obtain ⟨rfl, htag, -⟩ := region_cons.mp h
    simp [htag.header_allocated]

/-- No free block follows a free block. -/
theorem Region.allocated_of_free (h : Region m a false blocks e) : (m a).allocated = true := by
  by_contra hne
  obtain ⟨b, rest, rfl, hb⟩ := h.allocated_eq_false.mp (by simpa using hne)
  obtain ⟨-, htag, -⟩ := region_cons.mp h
  exact Bool.noConfusion (htag.no_adjacent hb)

theorem tiled_singleton {u : Option ℕ} (htag : Tagged m p ⟨x, n, u⟩) :
    Tiled m x p [⟨x, n, u⟩] (x + n) u.isSome :=
  ⟨rfl, htag, rfl, rfl⟩

/-- Cut a region at one of its blocks. -/
theorem Region.cut {u : Option ℕ} (h : Region m a p blocks e) (hc : ⟨x, n, u⟩ ∈ blocks) :
    ∃ pre post r, blocks = pre ++ ⟨x, n, u⟩ :: post ∧ Tiled m a p pre x r ∧
      Tagged m r ⟨x, n, u⟩ ∧ Region m (x + n) u.isSome post e := by
  obtain ⟨pre, post, rfl⟩ := List.append_of_mem hc
  obtain ⟨x', r, hpre, hrest⟩ := region_append.mp h
  obtain ⟨rfl, htag, hpost⟩ := region_cons.mp hrest
  exact ⟨pre, post, r, rfl, hpre, htag, hpost⟩

theorem Region.le (h : Region m a p blocks e) : a ≤ e := h.1.le

/-- A region is kept by any change of memory outside it. -/
theorem Region.congr (h : Region m a p blocks e)
    (agree : ∀ x, a ≤ x → x ≤ e → m' x = m x) : Region m' a p blocks e := by
  have hend := agree e h.le le_rfl
  refine ⟨?_, by rw [hend]; exact h.2⟩
  rw [hend]
  exact h.1.congr_range fun x hax hxe => agree x hax hxe.le

/-- Replace the `prev_allocated` bit at the start of a region. -/
theorem Region.setPrev (h : Region m a p blocks e)
    (word : m' a = { m a with prevAllocated := r })
    (agree : ∀ x, a < x → x ≤ e → m' x = m x) (used : r = false → (m a).allocated = true) :
    Region m' a r blocks e := by
  cases blocks with
  | nil =>
    obtain ⟨rfl, -, halloc⟩ := region_nil.mp h
    exact region_nil.mpr ⟨rfl, by rw [word], by rw [word]; exact halloc⟩
  | cons b blocks =>
    obtain ⟨rfl, htag, hrest⟩ := region_cons.mp h
    have hsize := htag.size_ge
    have hfin := b.fin_eq
    have hfoot := b.footer_eq
    have hle := hrest.le
    have hfooter : m' b.footer = m b.footer := agree _ (by omega) (by omega)
    refine region_cons.mpr ⟨rfl, ?_, hrest.congr fun x hx hxe => agree x (by omega) hxe⟩
    -- only the bit in the header changes, which the footer does not repeat
    exact {
      size_ge := htag.size_ge
      size_aligned := htag.size_aligned
      header := by rw [word]; exact htag.header
      header_allocated := by rw [word]; exact htag.header_allocated
      header_prev := by rw [word]
      requested := by rw [word]; exact htag.requested
      no_adjacent := fun hfree => by
        by_contra hr
        have halloc := used (by simpa using hr)
        rw [htag.header_allocated, hfree] at halloc
        exact Bool.noConfusion halloc
      footer_size := by rw [hfooter, word]; exact htag.footer_size
      footer_allocated := by rw [hfooter]; exact htag.footer_allocated
      footer_prev := by rw [hfooter]; exact htag.footer_prev }

/-! ### Words out of reach of the links -/

/-- A tag of a block, or a word of the payload of an allocated block. -/
def Solid (blocks : List Block) (w : ℕ) : Prop :=
  ∃ b ∈ blocks, w = b.addr ∨ b.used = none ∧ w = b.footer ∨
    b.used ≠ none ∧ b.addr ≤ w ∧ w < b.fin

theorem Tiled.solid_range (h : Tiled m a p blocks e q) (solid : Solid blocks w) :
    a ≤ w ∧ w < e := by
  obtain ⟨b, hb, hw⟩ := solid
  have hrange := h.range hb
  have hsize := h.size_ge hb
  have hfin := b.fin_eq
  have hfoot := b.footer_eq
  omega

/-- The links of a free block are no solid words. -/
theorem Tiled.solid_ne (h : Tiled m a p blocks e q) (solid : Solid blocks w) (hc : c ∈ blocks)
    (free : c.used = none) : w ≠ c.addr + 8 ∧ w ≠ c.addr + 16 := by
  obtain ⟨b, hb, hw⟩ := solid
  have hsize := h.size_ge hc
  have hfin := c.fin_eq
  have hfoot := c.footer_eq
  by_cases hbc : b = c
  · subst hbc
    have : w = b.addr ∨ w = b.footer := by tauto
    omega
  · have hapart := h.apart hb hc hbc
    have := h.size_ge hb
    have := b.fin_eq
    have := b.footer_eq
    omega

/-- Listed blocks are free blocks of the region. -/
def Covers (blocks : List Block) (lists : List FreeList) : Prop :=
  ∀ z ∈ members lists, ∃ c ∈ blocks, c.addr = z ∧ c.used = none

/-- The boundary tags of a heap that has a page. -/
structure TagsOk (L : Layout) (s : State) (blocks : List Block) : Prop where
  region : Region s.mem (L.start + 40) true blocks (s.heapEnd - 8)
  heapEnd_ge : L.start + pageSz ≤ s.heapEnd
  heapEnd_le : s.heapEnd ≤ L.top

/-- The memory has the blocks and the lists, which need not fit together. -/
structure Shaped (L : Layout) (s : State) (blocks : List Block) (lists : List FreeList) : Prop
    extends TagsOk L s blocks where
  lists_ok : ListsOk L s.mem s.nodes lists

/-- Each free block is on one list, that of its size, and no other block is listed. -/
structure Consistent (L : Layout) (s : State) (blocks : List Block) (lists : List FreeList) : Prop
    extends Shaped L s blocks lists where
  listed_frees : (listed lists).Perm (frees blocks)

/-- The invariant of a heap that has a page. The first page brings the first list. -/
structure HeapOk (L : Layout) (s : State) (blocks : List Block) (lists : List FreeList) : Prop
    extends Consistent L s blocks lists where
  nonempty : lists ≠ []

theorem covers_of_perm (perm : (listed lists).Perm (frees blocks)) : Covers blocks lists := by
  intro z hz
  rw [members_eq_map_listed] at hz
  obtain ⟨c, hc, rfl⟩ := List.mem_map.mp hz
  obtain ⟨hmem, hfree⟩ := mem_frees.mp (perm.subset hc)
  exact ⟨c, hmem, rfl, hfree⟩

theorem covers_of_cons_perm (perm : (frees blocks).Perm (b :: listed lists)) :
    Covers blocks lists := by
  intro z hz
  rw [members_eq_map_listed] at hz
  obtain ⟨c, hc, rfl⟩ := List.mem_map.mp hz
  obtain ⟨hmem, hfree⟩ := mem_frees.mp (perm.symm.subset (List.mem_cons_of_mem b hc))
  exact ⟨c, hmem, rfl, hfree⟩

theorem Consistent.covers (ok : Consistent L s blocks lists) : Covers blocks lists :=
  covers_of_perm ok.listed_frees

/-- A word inside the heap is no field of a list node. -/
theorem not_linkWord (hn : n ≤ L.maxNodes) (hlo : L.start ≤ w) (hhi : w < L.top) {ys : List ℕ}
    (hys : ∀ z ∈ ys, w ≠ z + 8 ∧ w ≠ z + 16) : ¬ LinkWord L n ys w := by
  rintro (⟨t, ht, hlo', hhi'⟩ | ⟨z, hz, hw⟩)
  · have := ht.outside hn
    omega
  · have := hys z hz
    omega

theorem LinkWord.mono {n' : ℕ} {ys zs : List ℕ} (h : LinkWord L n ys w) (hn : n ≤ n')
    (sub : ys ⊆ zs) : LinkWord L n' zs w := by
  rcases h with ⟨t, ⟨i, hi, rfl⟩, hw⟩ | ⟨z, hz, hw⟩
  · exact Or.inl ⟨_, ⟨i, hi.trans_le hn, rfl⟩, hw⟩
  · exact Or.inr ⟨z, sub hz, hw⟩

/-- A word off the blocks, or a link of a free block. -/
def SoftWord (L : Layout) (blocks : List Block) (w : ℕ) : Prop :=
  w < L.start + 40 ∨ L.top ≤ w ∨ ∃ c ∈ blocks, c.used = none ∧ (w = c.addr + 8 ∨ w = c.addr + 16)

/-- Soft words hold no tags and no data. -/
theorem TagsOk.soft_ne (h : TagsOk L s blocks) (soft : SoftWord L blocks w) :
    ¬ Solid blocks w ∧ w ≠ s.heapEnd - 8 := by
  have hpage := pageSz_eq
  have hge := h.heapEnd_ge
  have hle := h.heapEnd_le
  constructor
  · intro hsolid
    have hrange := h.region.1.solid_range hsolid
    rcases soft with hw | hw | ⟨c, hc, hfree, hw⟩
    · omega
    · omega
    · have := h.region.1.solid_ne hsolid hc hfree
      omega
  · rcases soft with hw | hw | ⟨c, hc, -, hw⟩
    · omega
    · omega
    · have hrange := h.region.1.range hc
      have hsize := h.region.1.size_ge hc
      have hfin := c.fin_eq
      omega

/-- Node fields and the links of listed blocks are soft. -/
theorem LinkWord.soft (h : LinkWord L n (members lists) w) (hn : n ≤ L.maxNodes)
    (covers : Covers blocks lists) : SoftWord L blocks w := by
  rcases h with ⟨t, ht, hlo, hhi⟩ | ⟨z, hz, hw⟩
  · have := ht.outside hn
    unfold SoftWord
    omega
  · obtain ⟨c, hc, rfl, hfree⟩ := covers z hz
    exact Or.inr (Or.inr ⟨c, hc, hfree, hw⟩)

/-- The payload of `b` is the same in both memories. -/
def Kept (m m' : Mem) (b : Block) : Prop := ∀ w, b.addr + 8 ≤ w → w < b.fin → m' w = m w

/-- The blocks of `blocks` that satisfy `sel` stay, with their payloads. -/
def Keeps (sel : Block → Prop) (m : Mem) (blocks : List Block) (m' : Mem)
    (blocks' : List Block) : Prop :=
  ∀ b ∈ blocks, sel b → b ∈ blocks' ∧ Kept m m' b

theorem Kept.trans {m'' : Mem} (h : Kept m m' b) (h' : Kept m' m'' b) : Kept m m'' b :=
  fun w hlo hhi => (h' w hlo hhi).trans (h w hlo hhi)

/-! ### Rewriting tags -/

/-- Rewrite the tags between `x` and `y`, and the `prev_allocated` bit at `y`. -/
theorem Shaped.retag (h : Shaped L s (pre ++ (mid ++ post)) lists)
    (covers : Covers (pre ++ (mid ++ post)) lists)
    (hpre : Tiled s.mem (L.start + 40) true pre x r) (hmid : Tiled s.mem x r mid y q)
    (hback : Region s.mem y q post (s.heapEnd - 8))
    (outside : ∀ w, w < x ∨ y < w → m' w = s.mem w)
    (links : ∀ c ∈ mid, c.used = none →
      m' (c.addr + 8) = s.mem (c.addr + 8) ∧ m' (c.addr + 16) = s.mem (c.addr + 16))
    (hmid' : Tiled m' x r mid' y p) (hpost : Region m' y p post (s.heapEnd - 8)) :
    Shaped L { s with mem := m' } (pre ++ (mid' ++ post)) lists := by
  have hheap := h.heapEnd_ge
  have hxle := hpre.le
  have hyle := hpost.le
  have htop := h.heapEnd_le
  have hxy := hmid.le
  refine ⟨⟨?_, h.heapEnd_ge, h.heapEnd_le⟩, h.lists_ok.congr fun w hw => ?_⟩
  · refine region_append.mpr ⟨x, r, ?_, region_append.mpr ⟨y, p, hmid', hpost⟩⟩
    exact hpre.congr_range fun w _ hw => outside w (Or.inl hw)
  · rcases hw with ⟨t, ht, hlo, hhi⟩ | ⟨z, hz, hw⟩
    · have := ht.outside h.lists_ok.nodes_le
      exact outside w (by omega)
    · -- a listed block lies before, between or behind the two places
      obtain ⟨c, hc, rfl, hfree⟩ := covers z hz
      have hsize := h.region.1.size_ge hc
      have hfin := c.fin_eq
      rcases List.mem_append.mp hc with hc | hc
      · have := hpre.range hc
        exact outside w (by omega)
      · rcases List.mem_append.mp hc with hc | hc
        · obtain ⟨h8, h16⟩ := links c hc hfree
          rcases hw with rfl | rfl
          · exact h8
          · exact h16
        · have := hback.1.range hc
          exact outside w (by omega)

/-- Blocks on either side of a rewritten stretch keep their payloads. -/
theorem kept_of_outside (hpre : Tiled m a true pre x r) (hback : Region m y q post e)
    (outside : ∀ w, w < x ∨ y < w → m' w = m w) (hb : b ∈ pre ++ post) : Kept m m' b := by
  intro w hlo hhi
  rcases List.mem_append.mp hb with hb | hb
  · have := hpre.range hb
    exact outside w (by omega)
  · have := hback.1.range hb
    exact outside w (by omega)

/-- The heap with one free block of `n` bytes at `x` that is not listed. -/
structure Unlisted (L : Layout) (s : State) (blocks : List Block) (lists : List FreeList)
    (x n : ℕ) : Prop where
  shape : Shaped L s blocks lists
  perm : (frees blocks).Perm (⟨x, n, none⟩ :: listed lists)

/-! ### Editing links -/

theorem kept_of_solid (solid : ∀ w, Solid blocks w → m' w = m w) (hb : b ∈ blocks)
    (used : b.used ≠ none) : Kept m m' b := fun w hlo hhi =>
  solid w ⟨b, hb, Or.inr (Or.inr ⟨used, by omega, hhi⟩)⟩

/-- Both phases keep the allocated blocks on either side. -/
theorem keeps_sides {m'' : Mem} (hpre : Tiled m a true pre x r) (hback : Region m y q post e)
    (outside : ∀ w, w < x ∨ y < w → m' w = m w)
    (solid : ∀ w, Solid (pre ++ (mid' ++ post)) w → m'' w = m' w) (hb : b ∈ pre ++ post)
    (used : b.used ≠ none) : b ∈ pre ++ (mid' ++ post) ∧ Kept m m'' b := by
  have hmem : b ∈ pre ++ (mid' ++ post) := by
    simp only [List.mem_append] at hb ⊢
    tauto
  exact ⟨hmem, (kept_of_outside hpre hback outside hb).trans (kept_of_solid solid hmem used)⟩

/-- The boundary tags are kept by any change that spares the tags and the epilogue. -/
theorem TagsOk.edit (h : TagsOk L s blocks) (s' : State) (heapEnd : s'.heapEnd = s.heapEnd)
    (solid : ∀ w, Solid blocks w → s'.mem w = s.mem w)
    (epilogue : s'.mem (s.heapEnd - 8) = s.mem (s.heapEnd - 8)) : TagsOk L s' blocks := by
  refine ⟨⟨?_, ?_⟩, heapEnd ▸ h.heapEnd_ge, heapEnd ▸ h.heapEnd_le⟩
  · rw [heapEnd, epilogue]
    exact h.region.1.congr (fun b hb => solid _ ⟨b, hb, Or.inl rfl⟩) fun b hb hfree =>
      solid _ ⟨b, hb, Or.inr (Or.inl ⟨hfree, rfl⟩)⟩
  · rw [heapEnd, epilogue]
    exact h.region.2

/-- Solid words are kept by any change of soft words. -/
theorem TagsOk.solid_frame (h : TagsOk L s blocks)
    (frame : ∀ w, ¬ SoftWord L blocks w → m' w = m w) : ∀ w, Solid blocks w → m' w = m w :=
  fun w hw => frame w fun soft => (h.soft_ne soft).1 hw

/-- The boundary tags are kept by any change of soft words. -/
theorem TagsOk.relink (h : TagsOk L s blocks) (s' : State) (heapEnd : s'.heapEnd = s.heapEnd)
    (frame : ∀ w, ¬ SoftWord L blocks w → s'.mem w = s.mem w) : TagsOk L s' blocks :=
  h.edit s' heapEnd (h.solid_frame frame) (frame _ fun soft => (h.soft_ne soft).2 rfl)

/-- Edit the links, with only free blocks listed afterwards. -/
theorem Shaped.relink (h : Shaped L s blocks lists) (s' : State) (heapEnd : s'.heapEnd = s.heapEnd)
    (ok : ListsOk L s'.mem s'.nodes lists') (covers : Covers blocks lists')
    (frame : ∀ w, ¬ LinkWord L s'.nodes (members lists') w → s'.mem w = s.mem w) :
    Shaped L s' blocks lists' ∧ ∀ w, ¬ SoftWord L blocks w → s'.mem w = s.mem w := by
  have hframe : ∀ w, ¬ SoftWord L blocks w → s'.mem w = s.mem w := fun w hw =>
    frame w fun hlink => hw (hlink.soft ok.nodes_le covers)
  exact ⟨⟨h.toTagsOk.relink s' heapEnd hframe, ok⟩, hframe⟩

/-- Unlinking the block of `n` bytes at `x` leaves it as the only one that is not listed. -/
structure Detachable (L : Layout) (s : State) (blocks : List Block) (lists : List FreeList)
    (x n : ℕ) : Prop where
  tags : TagsOk L s blocks
  unlisted : Unlisted L { s with mem := s.mem.unlink x } blocks lists x n
  next_soft : SoftWord L blocks (s.mem.linksNext x + 16)
  prev_soft : SoftWord L blocks (s.mem.linksPrev x + 8)

theorem Detachable.unlink_of_not_soft (d : Detachable L s blocks lists x n)
    (hw : ¬ SoftWord L blocks w) : s.mem.unlink x w = s.mem w :=
  Mem.unlink_of_ne (fun e => hw (e ▸ d.next_soft)) fun e => hw (e ▸ d.prev_soft)

theorem Detachable.unlink_of_solid (d : Detachable L s blocks lists x n) (hw : Solid blocks w) :
    s.mem.unlink x w = s.mem w :=
  d.unlink_of_not_soft fun soft => (d.tags.soft_ne soft).1 hw

/-- Take a block off its list. -/
theorem Shaped.unlist (h : Shaped L s blocks lists) (hc : c ∈ listed lists)
    (covers : ∀ lists₀, (listed lists).Perm (c :: listed lists₀) → Covers blocks lists₀) :
    ∃ lists₀, Shaped L { s with mem := s.mem.unlink c.addr } blocks lists₀ ∧
      (listed lists).Perm (c :: listed lists₀) ∧
      lists₀.map FreeList.size = lists.map FreeList.size ∧
      ∀ w, ¬ SoftWord L blocks w → s.mem.unlink c.addr w = s.mem w := by
  obtain ⟨lists₀, ok, perm, sizes, frame⟩ := h.lists_ok.unlist hc
  obtain ⟨hshape, hframe⟩ := h.relink { s with mem := s.mem.unlink c.addr } rfl ok
    (covers lists₀ perm) frame
  exact ⟨lists₀, hshape, perm, sizes, hframe⟩

/-- A free block can be unlinked. -/
theorem Consistent.detachable (ok : Consistent L s blocks lists) (hx : ⟨x, n, none⟩ ∈ blocks) :
    ∃ lists₀, Detachable L s blocks lists₀ x n ∧
      lists₀.map FreeList.size = lists.map FreeList.size := by
  have hlisted : ⟨x, n, none⟩ ∈ listed lists :=
    ok.listed_frees.symm.subset (mem_frees.mpr ⟨hx, rfl⟩)
  have hperm : ∀ lists₀, (listed lists).Perm (⟨x, n, none⟩ :: listed lists₀) →
      (frees blocks).Perm (⟨x, n, none⟩ :: listed lists₀) := fun _ h => ok.listed_frees.symm.trans h
  obtain ⟨lists₀, hshape, perm, sizes, -⟩ := ok.toShaped.unlist hlisted
    fun lists₀ h => covers_of_cons_perm (hperm lists₀ h)
  obtain ⟨hnext, hprev⟩ := ok.lists_ok.unlink_targets hlisted
  exact ⟨lists₀, ⟨ok.toTagsOk, ⟨hshape, hperm lists₀ perm⟩, hnext.soft ok.lists_ok.nodes_le ok.covers,
    hprev.soft ok.lists_ok.nodes_le ok.covers⟩, sizes⟩

theorem Tiled.nodup (h : Tiled m a p blocks e q) : blocks.Nodup := by
  induction blocks generalizing a p with
  | nil => exact List.nodup_nil
  | cons b blocks ih =>
    obtain ⟨rfl, htag, hrest⟩ := h
    refine List.nodup_cons.mpr ⟨fun hmem => ?_, ih hrest⟩
    have hrange := hrest.range hmem
    have hsize := htag.size_ge
    have hfin := b.fin_eq
    omega

/-- The one block that is not listed can be put on a list. -/
theorem Unlisted.insertable (u : Unlisted L s blocks lists x n) :
    InHeap L x ∧ ∀ z ∈ members lists, Apart x z := by
  obtain ⟨h, perm⟩ := u
  have hpage := pageSz_eq
  have hheap := h.heapEnd_ge
  have htop := h.heapEnd_le
  have hx : (⟨x, n, none⟩ : Block) ∈ blocks :=
    (mem_frees.mp (perm.symm.subset List.mem_cons_self)).1
  have hrange := h.region.1.range hx
  have hsize : 32 ≤ n := h.region.1.size_ge hx
  have hfin : Block.fin ⟨x, n, none⟩ = x + n := rfl
  refine ⟨?_, fun z hz => ?_⟩
  · unfold InHeap
    simp only at hrange
    omega
  · rw [members_eq_map_listed] at hz
    obtain ⟨c, hc, rfl⟩ := List.mem_map.mp hz
    have hcb := (mem_frees.mp (perm.symm.subset (List.mem_cons_of_mem _ hc))).1
    -- no block is both listed and unlisted
    have hnodup : (⟨x, n, none⟩ :: listed lists : List Block).Nodup :=
      perm.nodup_iff.mp (h.region.1.nodup.filter _)
    have hne : (⟨x, n, none⟩ : Block) ≠ c := fun e => (List.nodup_cons.mp hnodup).1 (e ▸ hc)
    have hapart := h.region.1.apart hx hcb hne
    have := h.region.1.size_ge hcb
    have := c.fin_eq
    unfold Apart
    simp only at hapart
    omega

/-- Listing the one block that is not listed yet. -/
theorem Unlisted.linked (u : Unlisted L s blocks lists x n)
    (linked : Linked L n x lists lists' s s') :
    HeapOk L s' blocks lists' ∧ ∀ w, ¬ SoftWord L blocks w → s'.mem w = s.mem w := by
  obtain ⟨h, perm⟩ := u
  have hperm : (listed lists').Perm (frees blocks) := linked.inserted.listed_perm.trans perm.symm
  obtain ⟨hshape, hframe⟩ := h.relink s' linked.heapEnd linked.ok (covers_of_perm hperm)
    linked.frame
  exact ⟨⟨⟨hshape, hperm⟩, linked.inserted.ne_nil⟩, hframe⟩

end CLanguage.Sfmm
