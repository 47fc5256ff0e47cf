import Mathlib.Data.Nat.Bitwise
import Mathlib.Logic.Function.Basic

/-!
# Words, memory and integer conversions

The allocator reads and writes memory one aligned 64-bit word at a time: as an
`sf_block_info` (bit-fields), as a pointer or `size_t`, or, for the client's
data and `memcpy`, one byte at a time. A word is stored as the record of its
bit-fields, and `Word.toNat` and `Word.ofNat` give the other views.

Pointers and `size_t` values are naturals below `2 ^ 64`. The expression
`block_size << 4` has type `int` in the source, so it is negative from
`2 ^ 27` on; `intShl4` and `shl4` keep that.
-/

namespace CLanguage.Sfmm

/-- A 64-bit word read through `sf_block_info`, least significant field first. -/
@[ext] structure Word where
  allocated : Bool
  prevAllocated : Bool
  twoZeroes : BitVec 2
  blockSize : BitVec 28
  requestedSize : BitVec 32
  deriving DecidableEq

namespace Word

/-- The word as an unsigned 64-bit number. -/
def toNat (w : Word) : ℕ :=
  w.allocated.toNat + 2 * w.prevAllocated.toNat + 4 * w.twoZeroes.toNat +
    16 * w.blockSize.toNat + 2 ^ 32 * w.requestedSize.toNat

/-- The word holding a 64-bit number. -/
def ofNat (n : ℕ) : Word where
  allocated := n % 2 == 1
  prevAllocated := n / 2 % 2 == 1
  twoZeroes := BitVec.ofNat 2 (n / 4)
  blockSize := BitVec.ofNat 28 (n / 16)
  requestedSize := BitVec.ofNat 32 (n / 2 ^ 32)

theorem toNat_lt (w : Word) : w.toNat < 2 ^ 64 := by
  have htwo := w.twoZeroes.isLt
  have hblock := w.blockSize.isLt
  have hrequested := w.requestedSize.isLt
  have halloc := Bool.toNat_lt w.allocated
  have hprev := Bool.toNat_lt w.prevAllocated
  unfold toNat
  omega

private theorem toNat_beq_one (n : ℕ) : (n % 2 == 1).toNat = n % 2 := by
  rcases Nat.mod_two_eq_zero_or_one n with h | h <;> simp [h]

/-- Storing a number and reading it back truncates it to 64 bits. -/
theorem toNat_ofNat (n : ℕ) : (ofNat n).toNat = n % 2 ^ 64 := by
  simp only [toNat, ofNat, toNat_beq_one, BitVec.toNat_ofNat]
  omega

theorem toNat_ofNat_of_lt {n : ℕ} (h : n < 2 ^ 64) : (ofNat n).toNat = n := by
  rw [toNat_ofNat, Nat.mod_eq_of_lt h]

/-- Byte `k` of the word, little-endian. -/
def byte (w : Word) (k : ℕ) : ℕ := w.toNat / 256 ^ k % 256

/-- The word with byte `k` replaced. -/
def setByte (w : Word) (k v : ℕ) : Word :=
  ofNat (w.toNat - w.byte k * 256 ^ k + v * 256 ^ k)

end Word

/-- Memory, by the address of the word. -/
@[ext] structure Mem where
  word : ℕ → Word

instance : CoeFun Mem fun _ => ℕ → Word := ⟨Mem.word⟩

namespace Mem

/-- Replace the word at `a`. -/
def write (m : Mem) (a : ℕ) (w : Word) : Mem := ⟨fun x => if x = a then w else m x⟩

/-- The pointer or `size_t` stored at `a`. -/
def ptr (m : Mem) (a : ℕ) : ℕ := (m a).toNat

/-- Store a pointer or `size_t` at `a`. -/
def setPtr (m : Mem) (a p : ℕ) : Mem := m.write a (Word.ofNat p)

/-- The byte at address `a`. -/
def byteAt (m : Mem) (a : ℕ) : ℕ := (m (a - a % 8)).byte (a % 8)

/-- Store a byte at address `a`. -/
def setByte (m : Mem) (a v : ℕ) : Mem :=
  m.write (a - a % 8) ((m (a - a % 8)).setByte (a % 8) v)

/-- `memcpy(dst, src, n)` on ranges that do not overlap. -/
def memcpy (m : Mem) (dst src : ℕ) : ℕ → Mem
  | 0 => m
  | n + 1 => (memcpy m dst src n).setByte (dst + n) (m.byteAt (src + n))

variable (m : Mem) (a b : ℕ) (w : Word)

@[simp] theorem write_self : m.write a w a = w := if_pos rfl

theorem write_of_ne (h : b ≠ a) : m.write a w b = m b := if_neg h

@[simp] theorem ptr_write_self : (m.write a w).ptr a = w.toNat := by simp [ptr]

theorem ptr_write_of_ne (h : b ≠ a) : (m.write a w).ptr b = m.ptr b := by
  simp [ptr, write_of_ne m a b w h]

theorem ptr_congr {m m' : Mem} {a : ℕ} (h : m' a = m a) : m'.ptr a = m.ptr a := by
  simp [ptr, h]

theorem ptr_lt : m.ptr a < 2 ^ 64 := (m a).toNat_lt

theorem ptr_setPtr_self {p : ℕ} (h : p < 2 ^ 64) : (m.setPtr a p).ptr a = p := by
  simp [setPtr, Word.toNat_ofNat_of_lt h]

@[simp] theorem setPtr_self (p : ℕ) : m.setPtr a p a = Word.ofNat p := write_self m a _

theorem setPtr_of_ne (p : ℕ) (h : b ≠ a) : m.setPtr a p b = m b := write_of_ne m a b _ h

/-- Storing a pointer where it already stands changes nothing. -/
theorem setPtr_eq_self {p : ℕ} (h : m a = Word.ofNat p) : m.setPtr a p = m := by
  ext1
  funext x
  by_cases hx : x = a
  · rw [hx, setPtr, write_self, h]
  · exact setPtr_of_ne m a x p hx

theorem ptr_setPtr_of_ne (p : ℕ) (h : b ≠ a) : (m.setPtr a p).ptr b = m.ptr b :=
  ptr_write_of_ne m a b _ h

end Mem

/-! ## `size_t` and `int` arithmetic -/

/-- Addition of `size_t` values or of an offset to a pointer. -/
def add64 (a b : ℕ) : ℕ := (a + b) % 2 ^ 64

/-- Subtraction of `size_t` values or of an offset from a pointer. -/
def sub64 (a b : ℕ) : ℕ := (a + (2 ^ 64 - b % 2 ^ 64)) % 2 ^ 64

/-- Conversion of an `int` to `size_t`. -/
def sizeOfInt (i : ℤ) : ℕ := (i % 2 ^ 64).toNat

/-- Conversion of an integer to `int`. -/
def intOf (i : ℤ) : ℤ := Int.bmod i (2 ^ 32)

/-- `block_size << 4`, an `int`: the bit-field is promoted to `int` first. -/
def intShl4 (b : BitVec 28) : ℤ := intOf (16 * (b.toNat : ℤ))

/-- `block_size << 4` where a `size_t` or a pointer offset is expected. -/
def shl4 (b : BitVec 28) : ℕ := sizeOfInt (intShl4 b)

theorem add64_of_lt {a b : ℕ} (h : a + b < 2 ^ 64) : add64 a b = a + b := Nat.mod_eq_of_lt h

theorem sub64_of_le {a b : ℕ} (h : b ≤ a) (ha : a < 2 ^ 64) : sub64 a b = a - b := by
  unfold sub64
  omega

theorem sizeOfInt_natCast {n : ℕ} (h : n < 2 ^ 64) : sizeOfInt n = n := by
  unfold sizeOfInt
  omega

theorem intOf_natCast {n : ℕ} (h : n < 2 ^ 31) : intOf n = n := by
  unfold intOf
  rw [Int.bmod_def]
  omega

theorem intShl4_of_lt {b : BitVec 28} (h : b.toNat < 2 ^ 27) : intShl4 b = 16 * b.toNat := by
  unfold intShl4
  have := intOf_natCast (n := 16 * b.toNat) (by omega)
  push_cast at this
  exact this

/-- The `int` is the number of bytes exactly if that is below `2 ^ 31`. -/
theorem intShl4_eq_iff {b : BitVec 28} {n : ℕ} :
    intShl4 b = n ↔ n < 2 ^ 31 ∧ 16 * b.toNat = n := by
  have hb := b.isLt
  rw [intShl4, intOf, Int.bmod_def]
  omega

/-- Below `2 ^ 31` bytes the shift means what it says. -/
theorem shl4_of_lt {b : BitVec 28} (h : b.toNat < 2 ^ 27) : shl4 b = 16 * b.toNat := by
  unfold shl4
  rw [intShl4_of_lt h]
  have := sizeOfInt_natCast (n := 16 * b.toNat) (by omega)
  push_cast at this
  exact this

theorem shl4_ofNat {n : ℕ} (h : n < 2 ^ 31) (aligned : n % 16 = 0) :
    shl4 (BitVec.ofNat 28 (n / 16)) = n := by
  have htoNat : (BitVec.ofNat 28 (n / 16)).toNat = n / 16 := by
    rw [BitVec.toNat_ofNat]
    exact Nat.mod_eq_of_lt (by omega)
  rw [shl4_of_lt (by omega), htoNat]
  omega

/-- Block sizes add up in the bit-field. -/
theorem ofNat_div_add {n o : ℕ} (aligned : n % 16 = 0) :
    BitVec.ofNat 28 (n / 16) + BitVec.ofNat 28 (o / 16) = BitVec.ofNat 28 ((n + o) / 16) := by
  rw [← BitVec.ofNat_add]
  congr 1
  omega

end CLanguage.Sfmm
