import CLanguage.Sfmm.State

/-!
# Blocks and boundary tags

The region between prologue and epilogue is a sequence of blocks. `Tiled`
states that the boundary tags in memory describe a given sequence: headers,
the footers of free blocks, the `prev_allocated` bits, and no two free blocks
side by side. Both ends of a stretch carry the `allocated` bit of the block
before them, so stretches compose.
-/

namespace CLanguage.Sfmm

/-- A block of the heap; `used` is the requested size of an allocated one. -/
structure Block where
  addr : ℕ
  size : ℕ
  used : Option ℕ
  deriving DecidableEq

namespace Block

/-- The address just after the block. -/
def fin (b : Block) : ℕ := b.addr + b.size

/-- The address of the footer of a free block. -/
def footer (b : Block) : ℕ := b.addr + b.size - 8

theorem fin_eq (b : Block) : b.fin = b.addr + b.size := rfl

theorem footer_eq (b : Block) : b.footer = b.addr + b.size - 8 := rfl

end Block

/-- The tags of block `b`, with `p` the `allocated` bit of the block before it. The
size of a block is what the program computes, the `int` `block_size << 4`. -/
structure Tagged (m : Mem) (p : Bool) (b : Block) : Prop where
  size_ge : 32 ≤ b.size
  size_aligned : b.size % 16 = 0
  header : intShl4 (m b.addr).blockSize = b.size
  header_allocated : (m b.addr).allocated = b.used.isSome
  header_prev : (m b.addr).prevAllocated = p
  requested : ∀ n, b.used = some n → (m b.addr).requestedSize.toNat = n
  no_adjacent : b.used = none → p = true
  footer_size : b.used = none → (m b.footer).blockSize = (m b.addr).blockSize
  footer_allocated : b.used = none → (m b.footer).allocated = false
  footer_prev : b.used = none → (m b.footer).prevAllocated = true

/-- The blocks tile the addresses from `a` to `e`. The block before `a` has
`allocated` bit `p`, and the last block before `e` has `q`. -/
def Tiled (m : Mem) : ℕ → Bool → List Block → ℕ → Bool → Prop
  | a, p, [], e, q => a = e ∧ p = q
  | a, p, b :: bs, e, q => b.addr = a ∧ Tagged m p b ∧ Tiled m b.fin b.used.isSome bs e q

variable {m m' : Mem} {a e : ℕ} {p q : Bool} {b c : Block} {bs pre post : List Block}

theorem Tagged.size_lt (h : Tagged m p b) : b.size < 2 ^ 31 := (intShl4_eq_iff.mp h.header).1

theorem Tagged.header_size (h : Tagged m p b) : 16 * (m b.addr).blockSize.toNat = b.size :=
  (intShl4_eq_iff.mp h.header).2

theorem Tagged.size_shift (h : Tagged m p b) : (m b.addr).blockSize.toNat < 2 ^ 27 := by
  have := h.size_lt
  have := h.header_size
  omega

/-- The header's `block_size << 4` is the size of the block. -/
theorem Tagged.shl4_header (h : Tagged m p b) : shl4 (m b.addr).blockSize = b.size := by
  rw [shl4_of_lt h.size_shift, h.header_size]

theorem Tagged.blockSize_eq (h : Tagged m p b) :
    (m b.addr).blockSize = BitVec.ofNat 28 (b.size / 16) := by
  have hsize := h.header_size
  refine BitVec.eq_of_toNat_eq ?_
  rw [BitVec.toNat_ofNat, Nat.mod_eq_of_lt (by have := h.size_lt; omega)]
  omega

/-- The sizes that a block can have. -/
def SizeOk (n : ℕ) : Prop := 32 ≤ n ∧ n % 16 = 0 ∧ n < 2 ^ 31

theorem Tagged.sizeOk (h : Tagged m p b) : SizeOk b.size :=
  ⟨h.size_ge, h.size_aligned, h.size_lt⟩

theorem SizeOk.intShl4_ofNat {n : ℕ} (h : SizeOk n) : intShl4 (BitVec.ofNat 28 (n / 16)) = n := by
  unfold SizeOk at h
  refine intShl4_eq_iff.mpr ⟨h.2.2, ?_⟩
  rw [BitVec.toNat_ofNat, Nat.mod_eq_of_lt (by omega)]
  omega

/-- An allocated block has a header only. -/
theorem tagged_used {n : ℕ} (used : b.used = some n) (size : SizeOk b.size) (hn : n < 2 ^ 32)
    (blockSize : (m b.addr).blockSize = BitVec.ofNat 28 (b.size / 16))
    (requested : (m b.addr).requestedSize = BitVec.ofNat 32 n)
    (allocated : (m b.addr).allocated = true) (prev : (m b.addr).prevAllocated = p) :
    Tagged m p b where
  size_ge := size.1
  size_aligned := size.2.1
  header := by rw [blockSize, size.intShl4_ofNat]
  header_allocated := by rw [allocated, used]; rfl
  header_prev := prev
  requested k hk := by
    obtain rfl : n = k := by simpa [used] using hk
    rw [requested, BitVec.toNat_ofNat, Nat.mod_eq_of_lt hn]
  no_adjacent hfree := by simp [used] at hfree
  footer_size hfree := by simp [used] at hfree
  footer_allocated hfree := by simp [used] at hfree
  footer_prev hfree := by simp [used] at hfree

/-- The fields of a tag that the header and the footer of a free block share. -/
def FreeTag (w : Word) (n : ℕ) : Prop :=
  w.blockSize = BitVec.ofNat 28 (n / 16) ∧ w.allocated = false ∧ w.prevAllocated = true

theorem tagged_free (free : b.used = none) (size : SizeOk b.size)
    (header : FreeTag (m b.addr) b.size) (footer : FreeTag (m b.footer) b.size) :
    Tagged m true b where
  size_ge := size.1
  size_aligned := size.2.1
  header := by rw [header.1, size.intShl4_ofNat]
  header_allocated := by rw [header.2.1, free]; rfl
  header_prev := header.2.2
  requested k hk := by simp [free] at hk
  no_adjacent _ := rfl
  footer_size _ := by rw [footer.1, header.1]
  footer_allocated _ := footer.2.1
  footer_prev _ := footer.2.2

theorem Tagged.freeTag (h : Tagged m p b) (free : b.used = none) :
    FreeTag (m b.addr) b.size ∧ FreeTag (m b.footer) b.size := by
  have hp := h.no_adjacent free
  subst hp
  have halloc := h.header_allocated
  rw [free] at halloc
  exact ⟨⟨h.blockSize_eq, halloc, h.header_prev⟩,
    ⟨(h.footer_size free).trans h.blockSize_eq, h.footer_allocated free, h.footer_prev free⟩⟩

theorem Tagged.congr (h : Tagged m p b) (header : m' b.addr = m b.addr)
    (footer : b.used = none → m' b.footer = m b.footer) : Tagged m' p b where
  size_ge := h.size_ge
  size_aligned := h.size_aligned
  header := header ▸ h.header
  header_allocated := header ▸ h.header_allocated
  header_prev := header ▸ h.header_prev
  requested := header ▸ h.requested
  no_adjacent := h.no_adjacent
  footer_size hu := by rw [footer hu, header, h.footer_size hu]
  footer_allocated hu := by rw [footer hu, h.footer_allocated hu]
  footer_prev hu := by rw [footer hu, h.footer_prev hu]

/-! ### Stretches of blocks -/

@[simp] theorem tiled_nil : Tiled m a p [] e q ↔ a = e ∧ p = q := Iff.rfl

@[simp] theorem tiled_cons : Tiled m a p (b :: bs) e q ↔
    b.addr = a ∧ Tagged m p b ∧ Tiled m b.fin b.used.isSome bs e q := Iff.rfl

/-- Two stretches compose at the boundary between them. -/
theorem tiled_append : Tiled m a p (pre ++ post) e q ↔
    ∃ c r, Tiled m a p pre c r ∧ Tiled m c r post e q := by
  induction pre generalizing a p with
  | nil =>
    refine ⟨fun h => ⟨a, p, ⟨rfl, rfl⟩, h⟩, ?_⟩
    rintro ⟨_, _, ⟨rfl, rfl⟩, h⟩
    exact h
  | cons b pre ih => simp [ih, and_assoc]

theorem Tiled.le (h : Tiled m a p bs e q) : a ≤ e := by
  induction bs generalizing a p with
  | nil => exact h.1.le
  | cons b bs ih =>
    obtain ⟨rfl, -, hrest⟩ := h
    exact (Nat.le_add_right _ _).trans (ih hrest)

/-- Cut a stretch at one of its blocks. -/
theorem Tiled.split (h : Tiled m a p (pre ++ b :: post) e q) :
    ∃ r, Tiled m a p pre b.addr r ∧ Tagged m r b ∧
      Tiled m b.fin b.used.isSome post e q := by
  obtain ⟨c, r, hpre, rfl, hb, hpost⟩ := tiled_append.mp h
  exact ⟨r, hpre, hb, hpost⟩

theorem Tiled.tagged (h : Tiled m a p bs e q) (hb : b ∈ bs) : ∃ r, Tagged m r b := by
  obtain ⟨pre, post, rfl⟩ := List.append_of_mem hb
  obtain ⟨r, -, htag, -⟩ := h.split
  exact ⟨r, htag⟩

theorem Tiled.size_ge (h : Tiled m a p bs e q) (hb : b ∈ bs) : 32 ≤ b.size :=
  (h.tagged hb).elim fun _ htag => htag.size_ge

theorem Tiled.range (h : Tiled m a p bs e q) (hb : b ∈ bs) : a ≤ b.addr ∧ b.fin ≤ e := by
  obtain ⟨pre, post, rfl⟩ := List.append_of_mem hb
  obtain ⟨r, hpre, -, hpost⟩ := h.split
  exact ⟨hpre.le, hpost.le⟩

theorem Tiled.aligned (h : Tiled m a p bs e q) (hb : b ∈ bs) : b.addr % 16 = a % 16 := by
  induction bs generalizing a p with
  | nil => exact absurd hb List.not_mem_nil
  | cons c bs ih =>
    obtain ⟨rfl, htag, hrest⟩ := h
    rcases List.mem_cons.mp hb with rfl | hb
    · rfl
    · have hsize := htag.size_aligned
      rw [ih hrest hb, Block.fin_eq]
      omega

theorem Tiled.end_aligned (h : Tiled m a p bs e q) : e % 16 = a % 16 := by
  induction bs generalizing a p with
  | nil => rw [h.1]
  | cons c bs ih =>
    obtain ⟨rfl, htag, hrest⟩ := h
    have hsize := htag.size_aligned
    rw [ih hrest, Block.fin_eq]
    omega

/-- Different blocks of a stretch do not overlap. -/
theorem Tiled.apart (h : Tiled m a p bs e q) (hb : b ∈ bs) (hc : c ∈ bs) (hne : b ≠ c) :
    b.fin ≤ c.addr ∨ c.fin ≤ b.addr := by
  induction bs generalizing a p with
  | nil => exact absurd hb List.not_mem_nil
  | cons d bs ih =>
    obtain ⟨-, -, hrest⟩ := h
    rcases List.mem_cons.mp hb with rfl | hb'
    · rcases List.mem_cons.mp hc with rfl | hc'
      · exact absurd rfl hne
      · exact Or.inl (hrest.range hc').1
    · rcases List.mem_cons.mp hc with rfl | hc'
      · exact Or.inr (hrest.range hb').1
      · exact ih hrest hb' hc'

theorem Tiled.eq_of_addr (h : Tiled m a p bs e q) (hb : b ∈ bs) (hc : c ∈ bs)
    (haddr : b.addr = c.addr) : b = c := by
  by_contra hne
  have := h.size_ge hb
  have := h.size_ge hc
  have := h.apart hb hc hne
  simp only [Block.fin_eq] at this
  omega

/-- A stretch depends on its headers and the footers of its free blocks only. -/
theorem Tiled.congr (h : Tiled m a p bs e q) (header : ∀ b ∈ bs, m' b.addr = m b.addr)
    (footer : ∀ b ∈ bs, b.used = none → m' b.footer = m b.footer) : Tiled m' a p bs e q := by
  induction bs generalizing a p with
  | nil => exact h
  | cons b bs ih =>
    obtain ⟨haddr, htag, hrest⟩ := h
    exact ⟨haddr, htag.congr (header b List.mem_cons_self) (footer b List.mem_cons_self),
      ih hrest (fun c hc => header c (List.mem_cons_of_mem b hc))
        fun c hc => footer c (List.mem_cons_of_mem b hc)⟩

/-- A stretch is kept by any change of memory outside it. -/
theorem Tiled.congr_range (h : Tiled m a p bs e q)
    (agree : ∀ x, a ≤ x → x < e → m' x = m x) : Tiled m' a p bs e q := by
  refine h.congr (fun b hb => ?_) fun b hb _ => ?_ <;>
    (obtain ⟨hlo, hhi⟩ := h.range hb
     have := h.size_ge hb
     simp only [Block.fin_eq, Block.footer_eq] at *
     exact agree _ (by omega) (by omega))

/-- The block after a free block is allocated, and so is the block before it. -/
theorem Tiled.used_of_free (h : Tiled m a p (b :: c :: bs) e q) (hfree : b.used = none) :
    c.used ≠ none := by
  obtain ⟨-, -, -, hc, -⟩ := h
  intro hused
  have := hc.no_adjacent hused
  simp [hfree] at this

end CLanguage.Sfmm
