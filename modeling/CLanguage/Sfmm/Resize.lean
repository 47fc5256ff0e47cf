import CLanguage.Sfmm.Allocate
import CLanguage.Sfmm.Release

/-!
# What `sf_realloc` does in place

Shrinking a block cuts off its tail if that leaves room for a block. The tail,
merged with a free block after it, is listed as `sf_free` would list it.
-/

namespace CLanguage.Sfmm

open Lib

variable {L : Layout} {s s' : State} {m m' : Mem} {x n k o c size : ℕ} {q r : Bool}
  {pre post right back : List Block} {lists lists' : List FreeList}

/-- The blocks once the block of `n` bytes at `x` holds `size` bytes only: what is left over
becomes free if it can be a block. -/
def shrunkBlocks (pre : List Block) (x n size : ℕ) (post : List Block) : List Block :=
  if n - blockSizeFor size < 32 then
    pre ++ ⟨x, n, some size⟩ :: post
  else
    joinFree (pre ++ ⟨x, blockSizeFor size, some size⟩ ::
      ⟨x + blockSizeFor size, n - blockSizeFor size, none⟩ :: post)

/-- The outcome of shrinking the payload of the block at `x` from `k` to `size` bytes. -/
structure Shrunk (L : Layout) (pre : List Block) (x n k size : ℕ) (post : List Block) (s : State)
    (lists : List FreeList) (s' : State) (lists' : List FreeList) : Prop where
  heap : HeapOk L s' (shrunkBlocks pre x n size post) lists'
  payloads : ((x + 8, size) :: payloads (pre ++ ⟨x, n, some k⟩ :: post)).Perm
    ((x + 8, k) :: payloads (shrunkBlocks pre x n size post))
  keeps : Keeps (fun b => b.used ≠ none ∧ b.addr ≠ x) s.mem (pre ++ ⟨x, n, some k⟩ :: post)
    s'.mem (shrunkBlocks pre x n size post)
  origin : ∀ b ∈ shrunkBlocks pre x n size post, b.used ≠ none →
    b ∈ pre ++ ⟨x, n, some k⟩ :: post ∨ b.used = some size ∧ size + 8 ≤ b.size
  own : ∃ n', size + 8 ≤ n' ∧ ∀ w, x + 8 ≤ w → w < x + n' → s'.mem w = s.mem w
  distinct : Increasing lists → (lists'.map FreeList.size).Nodup
  order : shrinkOrdered L (x + 8) size s = true → Increasing lists → Increasing lists'

/-! ### `int` arithmetic -/

theorem splitFor_eq (h : size + 8 < 2 ^ 31) : splitFor size = blockSizeFor size := by
  have hint : intOf ((size : ℤ) + 8) = size + 8 := by
    have := intOf_natCast h
    push_cast at this
    exact this
  rw [blockSizeFor_eq (by omega), splitFor, hint]
  split_ifs <;> omega

theorem intOf_sub {a b : ℕ} (hle : b ≤ a) (hlt : a < 2 ^ 31) : intOf ((a : ℤ) - b) = (a - b : ℕ) := by
  rw [← Int.ofNat_sub hle]
  exact intOf_natCast (by omega)

theorem ofInt_div (a : ℕ) : BitVec.ofInt 28 ((a : ℤ) / 16) = BitVec.ofNat 28 (a / 16) := by
  have hdiv : (a : ℤ) / 16 = ((a / 16 : ℕ) : ℤ) := by omega
  rw [hdiv, BitVec.ofInt_natCast]

/-! ### Cutting off the tail -/

/-- The tags of a block that has been cut at `c`, with a tail of `o` bytes. -/
structure CutTags (m m' : Mem) (x c o size : ℕ) : Prop where
  header : m' x = { m x with
    blockSize := BitVec.ofNat 28 (c / 16)
    requestedSize := BitVec.ofNat 32 size }
  tail : FreeTag (m' (x + c)) o
  footer : FreeTag (m' (x + c + o - 8)) o
  next : m' (x + c + o) = { m (x + c + o) with prevAllocated := false }
  frame : ∀ w, w ≠ x → w ≠ x + c → w ≠ x + c + o - 8 → w ≠ x + c + o → m' w = m w

/-- The size in the header, which the source sets after everything else. -/
abbrev setCut (m : Mem) (x c : ℕ) : Mem :=
  m.modify x fun w => { w with blockSize := BitVec.ofInt 28 ((c : ℤ) / 16) }

/-- The `o` bytes from the cut on, with a free block after them if there is one. -/
structure Tail (L : Layout) (s : State) (x n k c : ℕ) (r : Bool) (right back : List Block)
    (o : ℕ) (q : Bool) : Prop where
  right_cases : right = [] ∧ o = n - c ∨
    ∃ o', 32 ≤ o' ∧ right = [⟨x + n, o', none⟩] ∧ o = n - c + o'
  room : c + 32 ≤ n
  size : SizeOk o
  middle : Tiled s.mem x r (⟨x, n, some k⟩ :: right) (x + c + o) q
  after : Region s.mem (x + c + o) q back (s.heapEnd - 8)
  allocated : (s.mem (x + c + o)).allocated = true

/-- The block after the tail is allocated. -/
private theorem Spot.cut_alone (t : Spot L s pre r x n k post) (hc : SizeOk c) (room : c + 32 ≤ n)
    (hnext : (s.mem (x + n)).allocated = true) :
    ∃ m₀, cutTail (s.mem.modify x fun w => { w with requestedSize := BitVec.ofNat 32 size }) (x + 8)
        c = (x + c, m₀) ∧ CutTags s.mem (setCut m₀ x c) x c (n - c) size := by
  obtain ⟨hn, hx, hxn, hE, htop, hlt⟩ := t.bounds
  unfold SizeOk at hn hc
  have hint : intShl4 (s.mem x).blockSize = n := t.tagged.header
  -- the memory that the branch writes
  generalize hm₁ : s.mem.modify x (fun w => { w with requestedSize := BitVec.ofNat 32 size }) = m₁
  have hread₁ : m₁ x = { s.mem x with requestedSize := BitVec.ofNat 32 size } := by
    rw [← hm₁, Mem.modify_self]
  have hold₁ : ∀ w, w ≠ x → m₁ w = s.mem w := fun w hw => by rw [← hm₁, Mem.modify_of_ne _ _ _ _ hw]
  generalize hm₂ : m₁.modify (x + n) (fun w => { w with prevAllocated := false }) = m₂
  have hread₂ : m₂ x = { s.mem x with requestedSize := BitVec.ofNat 32 size } := by
    rw [← hm₂, Mem.modify_of_ne _ _ _ _ (by omega), hread₁]
  generalize hm₃ : m₂.modify (x + c) (fun w => { w with
    blockSize := BitVec.ofNat 28 ((n - c) / 16), requestedSize := 0, allocated := false,
    prevAllocated := true }) = m₃
  have hread₃ : m₃ x = { s.mem x with requestedSize := BitVec.ofNat 32 size } := by
    rw [← hm₃, Mem.modify_of_ne _ _ _ _ (by omega), hread₂]
  have htail₃ : FreeTag (m₃ (x + c)) (n - c) := by
    rw [← hm₃, Mem.modify_self]
    exact ⟨rfl, rfl, rfl⟩
  have hrun : cutTail m₁ (x + 8) c = (x + c, m₃.modify (x + n - 8) fun w => { w with
      blockSize := (m₃ (x + c)).blockSize, requestedSize := 0, allocated := false,
      prevAllocated := true }) := by
    have hnew : add64 x (sizeOfInt c) = x + c := by
      rw [sizeOfInt_natCast (by omega)]
      exact add64_of_lt (by omega)
    have hlen : BitVec.ofInt 28 (intOf ((n : ℤ) - c) / 16) = BitVec.ofNat 28 ((n - c) / 16) := by
      rw [intOf_sub (by omega) (by omega), ofInt_div]
    have hshift : shl4 (s.mem x).blockSize = n := t.tagged.shl4_header
    have haddn : add64 x n = x + n := add64_of_lt (by omega)
    have hfoot : sub64 (x + n) 8 = x + n - 8 := sub64_of_le (by omega) (by omega)
    simp only [cutTail, Nat.add_sub_cancel, hread₁, hshift, haddn, hold₁ (x + n) (by omega), hnext,
      if_true, hm₂, hread₂, hint, hlen, hnew, hm₃, hread₃, hfoot]
  refine ⟨_, hrun, ?_⟩
  have hend : x + c + (n - c) = x + n := by omega
  constructor
  · rw [Mem.modify_self, Mem.modify_of_ne _ _ _ _ (by omega), hread₃, ofInt_div]
  · rw [Mem.modify_of_ne _ _ _ _ (by omega), Mem.modify_of_ne _ _ _ _ (by omega)]
    exact htail₃
  · rw [hend, Mem.modify_of_ne _ _ _ _ (by omega), Mem.modify_self]
    exact ⟨htail₃.1, rfl, rfl⟩
  · rw [hend, Mem.modify_of_ne _ _ _ _ (by omega), Mem.modify_of_ne _ _ _ _ (by omega), ← hm₃,
      Mem.modify_of_ne _ _ _ _ (by omega), ← hm₂, Mem.modify_self, hold₁ _ (by omega)]
  · intro w h1 h2 h3 h4
    rw [hend] at h3 h4
    rw [Mem.modify_of_ne _ _ _ _ h1, Mem.modify_of_ne _ _ _ _ h3, ← hm₃,
      Mem.modify_of_ne _ _ _ _ h2, ← hm₂, Mem.modify_of_ne _ _ _ _ h4, hold₁ w h1]

/-- The block after the tail is free and joins it. -/
private theorem Spot.cut_next (t : Spot L s pre r x n k (⟨x + n, o, none⟩ :: back))
    (size : ℕ) (fits : n - c + o < 2 ^ 31) (hc : SizeOk c) (room : c + 32 ≤ n) :
    ∃ m₀, cutTail (s.mem.modify x fun w => { w with requestedSize := BitVec.ofNat 32 size })
        (x + 8) c = (x + c, m₀.unlink (x + n)) ∧
      CutTags s.mem (setCut m₀ x c) x c (n - c + o) size := by
  obtain ⟨hn, hx, hxn, hE, htop, hlt⟩ := t.bounds
  obtain ⟨-, htagZ, hback⟩ := region_cons.mp t.after
  have hback : Region s.mem (x + n + o) false back (s.heapEnd - 8) := hback
  have hback_le := hback.le
  have ho : SizeOk o := htagZ.sizeOk
  obtain ⟨hZ, -⟩ := htagZ.freeTag rfl
  have hZ : FreeTag (s.mem (x + n)) o := hZ
  unfold SizeOk at hn hc ho
  have hend : x + c + (n - c + o) = x + n + o := by omega
  -- the memory that the branch writes, up to the link updates
  generalize hm₁ : s.mem.modify x (fun w => { w with requestedSize := BitVec.ofNat 32 size }) = m₁
  have hread₁ : m₁ x = { s.mem x with requestedSize := BitVec.ofNat 32 size } := by
    rw [← hm₁, Mem.modify_self]
  have hold₁ : ∀ w, w ≠ x → m₁ w = s.mem w := fun w hw => by rw [← hm₁, Mem.modify_of_ne _ _ _ _ hw]
  generalize hm₂ : m₁.modify (x + c) (fun w => { w with
    requestedSize := 0, allocated := false, prevAllocated := true }) = m₂
  generalize hm₃ : m₂.modify (x + c) (fun w => { w with
    blockSize := BitVec.ofNat 28 ((n - c + o) / 16) }) = m₃
  have htail₃ : FreeTag (m₃ (x + c)) (n - c + o) := by
    rw [← hm₃, Mem.modify_self, ← hm₂, Mem.modify_self]
    exact ⟨rfl, rfl, rfl⟩
  have hrun : cutTail m₁ (x + 8) c = (x + c, (m₃.modify (x + n + o - 8) fun w => { w with
      blockSize := (m₃ (x + c)).blockSize, requestedSize := 0, prevAllocated := true,
      allocated := false }).unlink (x + n)) := by
    have hint : intShl4 (s.mem x).blockSize = n := t.tagged.header
    have hintZ : intShl4 (s.mem (x + n)).blockSize = o := htagZ.header
    have hnew : add64 x (sizeOfInt c) = x + c := by
      rw [sizeOfInt_natCast (by omega)]
      exact add64_of_lt (by omega)
    have hlen : BitVec.ofInt 28 (intOf (intOf ((n : ℤ) - c) + o) / 16) =
        BitVec.ofNat 28 ((n - c + o) / 16) := by
      rw [intOf_sub (by omega) (by omega), ← Int.natCast_add, intOf_natCast (by omega), ofInt_div]
    have hshift : shl4 (s.mem x).blockSize = n := t.tagged.shl4_header
    have hshift₃ : shl4 (m₃ (x + c)).blockSize = n - c + o := by
      rw [htail₃.1]
      exact shl4_ofNat fits (by omega)
    have hread₂ : m₂ x = { s.mem x with requestedSize := BitVec.ofNat 32 size } := by
      rw [← hm₂, Mem.modify_of_ne _ _ _ _ (by omega), hread₁]
    have hnext₂ : m₂ (x + n) = s.mem (x + n) := by
      rw [← hm₂, Mem.modify_of_ne _ _ _ _ (by omega), hold₁ _ (by omega)]
    have haddn : add64 x n = x + n := add64_of_lt (by omega)
    have hfoot : sub64 (add64 (x + c) (n - c + o)) 8 = x + n + o - 8 := by
      rw [add64_of_lt (by omega), sub64_of_le (by omega) (by omega), hend]
    simp only [cutTail, Nat.add_sub_cancel, hread₁, hshift, haddn, hold₁ (x + n) (by omega), hZ.2.1,
      hnew, hm₂, hread₂, hint, hnext₂, hintZ, hlen, hm₃, hshift₃, hfoot, Bool.false_eq_true, if_false]
  refine ⟨_, hrun, ?_⟩
  have hold : ∀ w, w ≠ x → w ≠ x + c → w ≠ x + n + o - 8 → setCut (m₃.modify (x + n + o - 8) fun w =>
      { w with blockSize := (m₃ (x + c)).blockSize, requestedSize := 0, prevAllocated := true,
               allocated := false }) x c w = s.mem w := by
    intro w h1 h2 h3
    rw [Mem.modify_of_ne _ _ _ _ h1, Mem.modify_of_ne _ _ _ _ h3, ← hm₃,
      Mem.modify_of_ne _ _ _ _ h2, ← hm₂, Mem.modify_of_ne _ _ _ _ h2, hold₁ w h1]
  constructor
  · rw [Mem.modify_self, Mem.modify_of_ne _ _ _ _ (by omega), ← hm₃,
      Mem.modify_of_ne _ _ _ _ (by omega), ← hm₂, Mem.modify_of_ne _ _ _ _ (by omega), hread₁,
      ofInt_div]
  · rw [Mem.modify_of_ne _ _ _ _ (by omega), Mem.modify_of_ne _ _ _ _ (by omega)]
    exact htail₃
  · rw [hend, Mem.modify_of_ne _ _ _ _ (by omega), Mem.modify_self]
    exact ⟨htail₃.1, rfl, rfl⟩
  · rw [hend, hold _ (by omega) (by omega) (by omega)]
    have hword := hback.prev
    rw [← hword]
  · intro w h1 h2 h3 _
    exact hold w h1 h2 (hend ▸ h3)

/-- What cutting off the tail does to the tags, and the block that it unlinks. -/
private theorem Spot.cut_eq (t : Spot L s pre r x n k post) (size : ℕ) (hc : SizeOk c)
    (room : c + 32 ≤ n)
    (fits : (s.mem (x + n)).allocated = false →
      n - c + 16 * (s.mem (x + n)).blockSize.toNat < 2 ^ 31)
    (targets : ∀ b ∈ post, b.used = none →
      x ≠ s.mem.linksNext b.addr + 16 ∧ x ≠ s.mem.linksPrev b.addr + 8) :
    ∃ right back o q m₀ m', post = right ++ back ∧ Tail L s x n k c r right back o q ∧
      cutTail (s.mem.modify x fun w => { w with requestedSize := BitVec.ofNat 32 size }) (x + 8) c =
        (x + c, m₀) ∧ setCut m₀ x c = m'.unlinkAll right ∧ CutTags s.mem m' x c o size := by
  obtain ⟨hn, hx, hxn, hE, htop, hlt⟩ := t.bounds
  -- the tail is a block of its own, or it joins the free block behind
  by_cases hnext : (s.mem (x + n)).allocated = true
  · have hend : x + c + (n - c) = x + n := by omega
    obtain ⟨m₀, hrun, htags⟩ := t.cut_alone hc room hnext
    refine ⟨[], post, n - c, true, m₀, _, rfl, ?_, hrun, rfl, htags⟩
    refine ⟨Or.inl ⟨rfl, rfl⟩, room, ?_, ?_, ?_, ?_⟩
    · unfold SizeOk at *
      omega
    · rw [hend]
      exact tiled_singleton t.tagged
    · rw [hend]
      exact t.after
    · rw [hend]
      exact hnext
  · have hclear : (s.mem (x + n)).allocated = false := Bool.eq_false_iff.mpr hnext
    obtain ⟨⟨z, o, u⟩, back, rfl, hfree⟩ := t.after.allocated_eq_false.mp hclear
    obtain rfl : u = none := hfree
    obtain ⟨rfl, htagZ, hback⟩ := region_cons.mp t.after
    have hback : Region s.mem (x + n + o) false back (s.heapEnd - 8) := hback
    have ho : SizeOk o := htagZ.sizeOk
    have hright : 16 * (s.mem (x + n)).blockSize.toNat = o := htagZ.header_size
    have hsum : n - c + o < 2 ^ 31 := hright ▸ fits hclear
    have hend : x + c + (n - c + o) = x + n + o := by omega
    obtain ⟨m₀, hrun, htags⟩ := t.cut_next size hsum hc room
    unfold SizeOk at hn hc ho
    -- the links of that block are still those of before
    have hlinks : ∀ i, i = 8 ∨ i = 16 → m₀ (x + n + i) = s.mem (x + n + i) := fun i hi => by
      rw [← Mem.modify_of_ne m₀ x _ _ (show x + n + i ≠ x by omega)]
      exact htags.frame _ (by omega) (by omega) (by omega) (by omega)
    obtain ⟨hnextNe, hprevNe⟩ := targets _ List.mem_cons_self rfl
    refine ⟨[⟨x + n, o, none⟩], back, n - c + o, false, _, setCut m₀ x c, rfl, ?_, hrun, ?_, htags⟩
    · refine ⟨Or.inr ⟨o, ho.1, rfl, rfl⟩, room, ?_, ?_, ?_, ?_⟩
      · unfold SizeOk
        omega
      · exact ⟨rfl, t.tagged, rfl, htagZ, hend.symm, rfl⟩
      · rw [hend]
        exact hback
      · rw [hend]
        exact hback.allocated_of_free
    · refine Mem.modify_unlink ?_ ?_ (by omega) (by omega)
      · rw [Mem.linksNext, Mem.ptr_congr (hlinks 8 (Or.inl rfl))]
        exact hnextNe
      · rw [Mem.linksPrev, Mem.ptr_congr (hlinks 16 (Or.inr rfl))]
        exact hprevNe

/-- The blocks after the cut, with the tail merged with a free block after it. -/
theorem Tail.join {a e : ℕ} {p₁ p₂ : Bool} (tail : Tail L s x n k c r right back o q)
    (tiled : Tiled m a p₁ (pre ++ ([⟨x, c, some size⟩, ⟨x + c, o, none⟩] ++ back)) e p₂) :
    joinFree (pre ++ ⟨x, c, some size⟩ :: ⟨x + c, n - c, none⟩ :: (right ++ back)) =
      pre ++ ([⟨x, c, some size⟩, ⟨x + c, o, none⟩] ++ back) := by
  have hassoc : ∀ rest, pre ++ ⟨x, c, some size⟩ :: rest = (pre ++ [⟨x, c, some size⟩]) ++ rest := by
    simp
  rw [← tiled.joinFree_eq, List.cons_append, hassoc (_ :: (right ++ back)), hassoc ([_] ++ back)]
  rcases tail.right_cases with ⟨rfl, rfl⟩ | ⟨o', -, rfl, rfl⟩
  · rfl
  · exact joinFree_glue rfl rfl

/-- The outcome of cutting the block at `x` at `c`: the tags are those of `m`, and the tail of
`o` bytes is not listed. -/
structure Cut (L : Layout) (s : State) (lists : List FreeList) (pre : List Block) (x c o size : ℕ)
    (back : List Block) (m m' : Mem) (lists' : List FreeList) : Prop where
  tags : CutTags s.mem m x c o size
  unlisted : Unlisted L { s with mem := m' }
    (pre ++ ([⟨x, c, some size⟩, ⟨x + c, o, none⟩] ++ back)) lists' (x + c) o
  sizes : lists'.map FreeList.size = lists.map FreeList.size
  frame : ∀ w, ¬ SoftWord L (pre ++ ([⟨x, c, some size⟩, ⟨x + c, o, none⟩] ++ back)) w → m' w = m w

/-- The tags after the cut describe the two blocks. -/
private theorem Target.cut_shaped (t : Target L s lists pre r x n k (right ++ back))
    (tail : Tail L s x n k c r right back o q) (tags : CutTags s.mem m x c o size) (hc : SizeOk c)
    (hsize : size < 2 ^ 32) :
    Shaped L { s with mem := m } (pre ++ ([⟨x, c, some size⟩, ⟨x + c, o, none⟩] ++ back)) lists := by
  obtain ⟨hn, hx, hxn, hE, htop, hlt⟩ := t.bounds
  have halloc : (s.mem x).allocated = true := t.tagged.header_allocated
  have hprev : (s.mem x).prevAllocated = r := t.tagged.header_prev
  have hroom := tail.room
  have ho := tail.size
  have hc32 := hc.1
  have ho32 := ho.1
  have outside : ∀ w, w < x ∨ x + c + o < w → m w = s.mem w := fun w hw =>
    tags.frame w (by omega) (by omega) (by omega) (by omega)
  have hused : Tagged m r ⟨x, c, some size⟩ :=
    tagged_used rfl hc hsize (by rw [tags.header]) (by rw [tags.header])
      (by rw [tags.header]; exact halloc) (by rw [tags.header]; exact hprev)
  -- the two blocks fill the place of the old one
  have hmid : Tiled m x r [⟨x, c, some size⟩, ⟨x + c, o, none⟩] (x + c + o) false :=
    ⟨rfl, hused, rfl, tagged_free rfl ho tags.tail tags.footer, rfl, rfl⟩
  have hpost : Region m (x + c + o) false back (s.heapEnd - 8) := tail.after.setPrev tags.next
    (fun w hw _ => outside w (Or.inr hw)) fun _ => tail.allocated
  have hshape : Shaped L s (pre ++ ((⟨x, n, some k⟩ :: right) ++ back)) lists := t.heap.toShaped
  refine hshape.retag t.heap.covers t.before tail.middle tail.after outside (fun d hd hfree => ?_)
    hmid hpost
  rcases List.mem_cons.mp hd with rfl | hd
  · exact absurd hfree (by simp)
  · rcases tail.right_cases with ⟨rfl, -⟩ | ⟨o', ho', rfl, rfl⟩
    · exact absurd hd List.not_mem_nil
    · obtain rfl := List.mem_singleton.mp hd
      exact ⟨tags.frame _ (by simp only; omega) (by simp only; omega) (by simp only; omega)
          (by simp only; omega),
        tags.frame _ (by simp only; omega) (by simp only; omega) (by simp only; omega)
          (by simp only; omega)⟩

private theorem Target.cut_ok (t : Target L s lists pre r x n k post) (hc : SizeOk c)
    (room : c + 32 ≤ n) (hsize : size < 2 ^ 32)
    (fits : (s.mem (x + n)).allocated = false →
      n - c + 16 * (s.mem (x + n)).blockSize.toNat < 2 ^ 31) :
    ∃ right back o q m₀ m lists', post = right ++ back ∧ Tail L s x n k c r right back o q ∧
      cutTail (s.mem.modify x fun w => { w with requestedSize := BitVec.ofNat 32 size }) (x + 8) c =
        (x + c, m₀) ∧ Cut L s lists pre x c o size back m (setCut m₀ x c) lists' := by
  have htargets : ∀ b ∈ post, b.used = none →
      x ≠ s.mem.linksNext b.addr + 16 ∧ x ≠ s.mem.linksPrev b.addr + 8 := by
    rintro ⟨y, i, u⟩ hb rfl
    obtain ⟨_, d, -⟩ := t.heap.detachable (List.mem_append_right _ (List.mem_cons_of_mem _ hb))
    exact ⟨fun e => t.header_not_soft (e ▸ d.next_soft),
      fun e => t.header_not_soft (e ▸ d.prev_soft)⟩
  obtain ⟨right, back, o, q, m₀, m, rfl, tail, hrun, hswap, tags⟩ :=
    t.cut_eq size hc room fits htargets
  have hblocks : pre ++ ([⟨x, c, some size⟩, ⟨x + c, o, none⟩] ++ back) =
      (pre ++ [⟨x, c, some size⟩]) ++ ([⟨x + c, o, none⟩] ++ back) := by simp
  -- the lists still hold the block that has been joined
  have hfrees : (listed lists).Perm (right ++ frees ((pre ++ [⟨x, c, some size⟩]) ++ back)) := by
    have hright : frees right = right := by
      rcases tail.right_cases with ⟨rfl, -⟩ | ⟨o', -, rfl, -⟩ <;> rfl
    refine t.heap.listed_frees.trans ?_
    rw [frees_append, frees_cons_used (by simp), frees_append, hright, frees_append, frees_append,
      frees_cons_used (by simp), frees_nil, List.append_nil]
    exact List.perm_append_comm_assoc ..
  have hinside : ∀ b ∈ right.tail, b.addr = x + c := by
    rcases tail.right_cases with ⟨rfl, -⟩ | ⟨o', -, rfl, -⟩ <;> simp
  obtain ⟨lists', hunlisted, hsizes, hframe⟩ := Shaped.unlist_all
    (hblocks ▸ t.cut_shaped tail tags hc hsize) hfrees hinside
  rw [← hblocks] at hunlisted hframe
  refine ⟨right, back, o, q, m₀, m, lists', rfl, tail, hrun, tags, ?_, hsizes, fun w hw => ?_⟩
  · rw [hswap]
    exact hunlisted
  · rw [hswap]
    exact hframe w hw

private theorem Target.shrink_fits (t : Target L s lists pre r x n k post)
    (fits : shrinkFits (x + 8) size s = true) (room : ¬ n - blockSizeFor size < 32) :
    (s.mem (x + n)).allocated = false →
      n - blockSizeFor size + 16 * (s.mem (x + n)).blockSize.toNat < 2 ^ 31 := by
  intro hnext
  have hown : 16 * (s.mem x).blockSize.toNat = n := t.tagged.header_size
  rw [shrinkFits, Nat.add_sub_cancel, hown] at fits
  simpa [room, hnext] using fits

/-! ### The outcome -/

theorem payloads_shrunk (hmid : payloads right = []) :
    ((x + 8, size) :: payloads (pre ++ ⟨x, n, some k⟩ :: (right ++ back))).Perm
      ((x + 8, k) :: payloads (pre ++ ⟨x, c, some size⟩ :: back)) := by
  rw [payloads_append, payloads_append, payloads_cons_used rfl, payloads_cons_used rfl,
    payloads_append, hmid, List.nil_append]
  exact (List.perm_middle.cons _).trans ((List.Perm.swap _ _ _).trans (List.perm_middle.symm.cons _))

/-- Too little is left over for a block of its own. -/
private theorem Target.shrink_whole (t : Target L s lists pre r x n k post) (fit : size + 8 ≤ n)
    (small : n - blockSizeFor size < 32) :
    Shrunk L pre x n k size post s lists
      { s with mem := s.mem.modify x fun w => { w with requestedSize := BitVec.ofNat 32 size } }
      lists := by
  obtain ⟨hn, hx, hxn, hE, htop, hlt'⟩ := t.bounds
  obtain ⟨hsize, hprev⟩ := t.header
  have halloc : (s.mem x).allocated = true := t.tagged.header_allocated
  have hn31 := hn.2.2
  have hblocks : shrunkBlocks pre x n size post = pre ++ ([⟨x, n, some size⟩] ++ post) := if_pos small
  generalize hm : s.mem.modify x (fun w => { w with requestedSize := BitVec.ofNat 32 size }) = m'
  have hread : m' x = { s.mem x with requestedSize := BitVec.ofNat 32 size } := by
    rw [← hm, Mem.modify_self]
  -- nothing but the requested size is written
  have hold : ∀ w, w ≠ x → m' w = s.mem w := fun w hw => by rw [← hm, Mem.modify_of_ne _ _ _ _ hw]
  have hused : Tagged m' r ⟨x, n, some size⟩ :=
    tagged_used rfl hn (by omega) (by rw [hread]; exact hsize) (by rw [hread])
      (by rw [hread]; exact halloc) (by rw [hread]; exact hprev)
  have hn32 : 32 ≤ n := hn.1
  have hpost : Region m' (x + n) true post (s.heapEnd - 8) :=
    t.after.congr fun w hw _ => hold w (by omega)
  have houtside : ∀ w, w < x ∨ x + n < w → m' w = s.mem w := fun w hw => hold w (by omega)
  have hshape : Shaped L s (pre ++ ([⟨x, n, some k⟩] ++ post)) lists := t.heap.toShaped
  have hshape' := hshape.retag t.heap.covers t.before (tiled_singleton t.tagged) t.after houtside
    (fun d hd hfree => by
      obtain rfl := List.mem_singleton.mp hd
      exact absurd hfree (by simp)) (tiled_singleton hused) hpost
  rw [← hblocks] at hshape'
  refine ⟨⟨⟨hshape', ?_⟩, t.heap.nonempty⟩, ?_, ?_, ?_, ⟨n, fit, fun w h1 _ => hold w (by omega)⟩,
    fun inc => inc.nodup_sizes, fun _ inc => inc⟩
  · have hlisted := t.heap.listed_frees
    rw [frees_append, frees_cons_used (by simp)] at hlisted
    rw [hblocks, List.singleton_append, frees_append, frees_cons_used (by simp)]
    exact hlisted
  · rw [hblocks]
    exact payloads_shrunk payloads_nil
  · rw [hblocks]
    rintro b hb ⟨hused, haddr⟩
    refine keeps_sides t.before t.after houtside (fun _ _ => rfl) ?_ hused
    simp only [List.mem_append, List.mem_cons] at hb ⊢
    rcases hb with hb | rfl | hb
    · exact Or.inl hb
    · exact absurd rfl haddr
    · exact Or.inr hb
  · rw [hblocks]
    intro b hb _
    simp only [List.mem_append, List.mem_cons, List.not_mem_nil, or_false] at hb ⊢
    rcases hb with hb | rfl | hb
    · exact Or.inl (Or.inl hb)
    · exact Or.inr ⟨rfl, fit⟩
    · exact Or.inl (Or.inr (Or.inr hb))

/-- The test on the size of the tail, as the source computes it. -/
private theorem Target.split_cond (t : Target L s lists pre r x n k post) (fit : size + 8 ≤ n) :
    splitFor size = blockSizeFor size ∧
      (intOf (intShl4 (s.mem x).blockSize - splitFor size) < 32 ↔ n - blockSizeFor size < 32) := by
  obtain ⟨hn, -⟩ := t.bounds
  have hn31 := hn.2.2
  have hint : intShl4 (s.mem x).blockSize = n := t.tagged.header
  have hcn : blockSizeFor size ≤ n := (blockSizeFor_le (by omega) hn).mpr fit
  have hsplit : splitFor size = blockSizeFor size := splitFor_eq (by omega)
  refine ⟨hsplit, ?_⟩
  rw [hint, hsplit, intOf_sub hcn (by omega)]
  exact_mod_cast Iff.rfl

/-- A tail that is cut off goes to `insertFreed`, on the memory that `shrinkOrdered` looks at. -/
private theorem Target.shrink_cut (t : Target L s lists pre r x n k post) (fit : size + 8 ≤ n)
    (room : ¬ n - blockSizeFor size < 32) {m₀ : Mem}
    (hcut : cutTail (s.mem.modify x fun w => { w with requestedSize := BitVec.ofNat 32 size }) (x + 8)
      (blockSizeFor size) = (x + blockSizeFor size, m₀))
    (hsize : shl4 (setCut m₀ x (blockSizeFor size) (x + blockSizeFor size)).blockSize = o) :
    shrink L (x + 8) size s = insertFreed L o (x + blockSizeFor size)
        { s with mem := setCut m₀ x (blockSizeFor size) } ∧
      (shrinkOrdered L (x + 8) size s = true →
        insertOrdered L (setCut m₀ x (blockSizeFor size)) o = true) := by
  obtain ⟨hsplit, hcond⟩ := t.split_cond fit
  have hpos : 0 < blockSizeFor size := by
    have hn31 : n < 2 ^ 31 := t.tagged.sizeOk.2.2
    rw [blockSizeFor_eq (by omega)]
    omega
  have hnot : ¬ intOf (intShl4 (s.mem x).blockSize - splitFor size) < 32 := fun h =>
    room (hcond.mp h)
  -- the flag that is set last is in another word
  have hsame : setCut m₀ x (blockSizeFor size) (x + blockSizeFor size) =
      m₀ (x + blockSizeFor size) := Mem.modify_of_ne _ _ _ _ (by omega)
  constructor
  · unfold shrink
    rw [Nat.add_sub_cancel]
    refine (if_neg hnot).trans ?_
    rw [hsplit, hcut]
    simp only [hsize]
  · intro h
    unfold shrinkOrdered at h
    rw [Nat.add_sub_cancel, decide_eq_false hnot, Bool.false_or, hsplit, hcut] at h
    simpa only [hsize] using h

/-- The tail has been cut off and listed. -/
private theorem Cut.shrunk {m m' : Mem} {lists₀ : List FreeList}
    (t : Target L s lists pre r x n k (right ++ back))
    (tail : Tail L s x n k (blockSizeFor size) r right back o q) (fit : size + 8 ≤ blockSizeFor size)
    (cut : Cut L s lists pre x (blockSizeFor size) o size back m m' lists₀)
    (heap : HeapOk L s' (pre ++ ([⟨x, blockSizeFor size, some size⟩,
      ⟨x + blockSizeFor size, o, none⟩] ++ back)) lists')
    (frame : ∀ w, ¬ SoftWord L (pre ++ ([⟨x, blockSizeFor size, some size⟩,
      ⟨x + blockSizeFor size, o, none⟩] ++ back)) w → s'.mem w = m' w)
    (distinct : Increasing lists → (lists'.map FreeList.size).Nodup)
    (order : shrinkOrdered L (x + 8) size s = true → Increasing lists → Increasing lists') :
    Shrunk L pre x n k size (right ++ back) s lists s' lists' := by
  have hroom := tail.room
  generalize hc : blockSizeFor size = c at *
  have hblocks : shrunkBlocks pre x n size (right ++ back) =
      pre ++ ([⟨x, c, some size⟩, ⟨x + c, o, none⟩] ++ back) := by
    rw [shrunkBlocks, hc, if_neg (by omega)]
    exact tail.join heap.region.1
  have hsolid := cut.unlisted.shape.toTagsOk.solid_frame fun w hw => (frame w hw).trans (cut.frame w hw)
  have ho := tail.size.1
  have houtside : ∀ w, w < x ∨ x + c + o < w → m w = s.mem w := fun w hw =>
    cut.tags.frame w (by omega) (by omega) (by omega) (by omega)
  have hright : payloads right = [] := by
    -- the block that has been joined was free, so that it had no payload
    rcases tail.right_cases with ⟨rfl, -⟩ | ⟨o', -, rfl, -⟩ <;> rfl
  refine ⟨hblocks ▸ heap, ?_, ?_, ?_, ⟨c, fit, fun w h1 h2 => ?_⟩, distinct, order⟩
  · rw [hblocks]
    have hperm : ((x + 8, size) :: Sfmm.payloads (pre ++ ⟨x, n, some k⟩ :: (right ++ back))).Perm
        ((x + 8, k) :: Sfmm.payloads (pre ++ ⟨x, c, some size⟩ :: back)) := payloads_shrunk hright
    refine hperm.trans (List.Perm.of_eq ?_)
    rw [List.cons_append, List.singleton_append, payloads_append, payloads_append,
      payloads_cons_used rfl, payloads_cons_used rfl, payloads_cons_free rfl]
  · rw [hblocks]
    rintro b hb ⟨hused, haddr⟩
    refine keeps_sides t.before tail.after houtside hsolid ?_ hused
    simp only [List.mem_append, List.mem_cons] at hb ⊢
    rcases hb with hb | rfl | hb | hb
    · exact Or.inl hb
    · exact absurd rfl haddr
    · rcases tail.right_cases with ⟨rfl, -⟩ | ⟨o', -, rfl, -⟩
      · exact absurd hb List.not_mem_nil
      · exact absurd (by rw [List.mem_singleton.mp hb]) hused
    · exact Or.inr hb
  · rw [hblocks]
    intro b hb hused
    simp only [List.mem_append, List.mem_cons, List.not_mem_nil, or_false] at hb ⊢
    rcases hb with hb | (rfl | rfl) | hb
    · exact Or.inl (Or.inl hb)
    · exact Or.inr ⟨rfl, fit⟩
    · exact absurd rfl hused
    · exact Or.inl (Or.inr (Or.inr (Or.inr hb)))
  · rw [hsolid w ⟨⟨x, c, some size⟩, by simp, Or.inr (Or.inr ⟨by simp, by simp only; omega, h2⟩)⟩]
    exact cut.tags.frame w (by omega) (by omega) (by omega) (by omega)

theorem Target.shrink_ensures (t : Target L s lists pre r x n k post)
    (fits : shrinkFits (x + 8) size s = true) (fit : size + 8 ≤ n) :
    Ensures (· = Fault.noNode)
        (fun s' => ∃ lists', Shrunk L pre x n k size post s lists s' lists')
        (shrink L (x + 8) size s) ∧
      (s.nodes < L.maxNodes → shrink L (x + 8) size s ≠ .error .noNode) := by
  obtain ⟨hn, -⟩ := t.bounds
  have hn31 := hn.2.2
  obtain ⟨hc, hcfit⟩ := blockSizeFor_sizeOk (show size < 2 ^ 31 by omega) hn fit
  -- nothing is cut off unless there is room for a block
  by_cases hsmall : n - blockSizeFor size < 32
  · obtain ⟨-, hcond⟩ := t.split_cond fit
    have hrun : shrink L (x + 8) size s = .ok { s with
        mem := s.mem.modify x fun w => { w with requestedSize := BitVec.ofNat 32 size } } := by
      unfold shrink
      rw [Nat.add_sub_cancel]
      exact if_pos (hcond.mpr hsmall)
    rw [hrun]
    exact ⟨.ok ⟨lists, t.shrink_whole fit hsmall⟩, fun _ => nofun⟩
  · obtain ⟨right, back, o, q, m₀, m, lists₀, rfl, tail, hrun, cut⟩ :=
      t.cut_ok hc (by omega) (show size < 2 ^ 32 by omega) (t.shrink_fits fits hsmall)
    have htail : ∃ p, Tagged (setCut m₀ x (blockSizeFor size)) p ⟨x + blockSizeFor size, o, none⟩ :=
      cut.unlisted.shape.region.1.tagged (by simp)
    obtain ⟨hinsert, horder⟩ := t.shrink_cut fit hsmall hrun (htail.elim fun _ h => h.shl4_header)
    have hnonempty : lists₀ ≠ [] := fun e => t.heap.nonempty (by simpa [e] using cut.sizes.symm)
    rw [hinsert]
    refine ⟨(cut.unlisted.insertFreed_ensures hnonempty).mono fun s' hs' => ?_,
      fun room => insertFreed_ne_noNode room⟩
    obtain ⟨-, lists', hheap, hframe, sorted⟩ := hs'
    exact ⟨lists', cut.shrunk t tail hcfit hheap hframe
      (fun inc => (sorted (inc.congr cut.sizes)).1)
      fun h inc => (sorted (inc.congr cut.sizes)).2 (horder h)⟩

end CLanguage.Sfmm
