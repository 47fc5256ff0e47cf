import CLanguage.Lib.Bytes
import Mathlib.Tactic.Positivity

/-!
# Two's-complement byte strings

`signed` reads a big-endian byte string as a number that is negative where the first bit is
set, and `encoded w v` are the `w` bytes of the number `v`. A number is found again in its
bytes if they can hold it (`signed_encoded`).
-/

namespace CLanguage.Lib

/-- The two's-complement value of the bytes, most significant first. -/
def signed (l : List UInt8) : ℤ := (ofBytes l : ℤ).bmod (256 ^ l.length)

/-- The low `w` bytes of `v` in two's complement, most significant first. -/
def encoded (w : ℕ) (v : ℤ) : List UInt8 := toBytes w (v % 256 ^ w).toNat

variable {w n m : ℕ} {v : ℤ} {l : List UInt8}

@[simp] theorem length_encoded (w : ℕ) (v : ℤ) : (encoded w v).length = w := length_toBytes w _

theorem natCast_pow_bytes (w : ℕ) : ((256 ^ w : ℕ) : ℤ) = 256 ^ w := Nat.cast_pow 256 w

theorem natCast_toNat_emod (w : ℕ) (v : ℤ) : ((v % 256 ^ w).toNat : ℤ) = v % 256 ^ w :=
  Int.toNat_of_nonneg (Int.emod_nonneg v (by positivity))

theorem toBytes_eq_iff : toBytes w n = toBytes w m ↔ n % 256 ^ w = m % 256 ^ w := by
  constructor
  · intro h
    rw [← ofBytes_toBytes, h, ofBytes_toBytes]
  · intro h
    rw [← toBytes_mod w n, h, toBytes_mod]

/-- Bytes encode the numbers that they agree with modulo `256 ^ w`. -/
theorem toBytes_eq_encoded_iff : toBytes w n = encoded w v ↔ (256 : ℤ) ^ w ∣ n - v := by
  rw [encoded, toBytes_eq_iff, ← Int.natCast_inj, Int.natCast_mod, Int.natCast_mod,
    natCast_pow_bytes, natCast_toNat_emod, Int.emod_emod_of_dvd v (Int.dvd_refl _),
    Int.emod_eq_emod_iff_emod_sub_eq_zero, Int.dvd_iff_emod_eq_zero]

/-- A byte string is its value modulo `256 ^ l.length`. -/
theorem dvd_ofBytes_sub_signed (l : List UInt8) :
    (256 : ℤ) ^ l.length ∣ ofBytes l - signed l := by
  rw [← natCast_pow_bytes]
  exact Int.dvd_self_sub_bmod

theorem signed_encoded (h : -256 ^ w ≤ 2 * v) (h' : 2 * v < 256 ^ w) :
    signed (encoded w v) = v := by
  have hpos : 0 < 256 ^ w := Nat.pow_pos (by decide)
  have hbytes : (ofBytes (encoded w v) : ℤ) = v % 256 ^ w := by
    rw [encoded, ofBytes_toBytes, Int.natCast_mod, natCast_pow_bytes, natCast_toNat_emod,
      Int.emod_emod_of_dvd v (Int.dvd_refl _)]
  rw [← natCast_pow_bytes] at h h' hbytes
  rw [signed, length_encoded, hbytes, Int.emod_bmod, Int.bmod_eq_iff hpos]
  refine ⟨?_, ?_, ?_⟩
  · omega
  · omega
  · rw [Int.sub_self]
    exact Int.dvd_zero _

/-- The range of `w` bytes. -/
theorem signed_bounds (l : List UInt8) :
    -256 ^ l.length ≤ 2 * signed l ∧ 2 * signed l < 256 ^ l.length := by
  have hpos : 0 < 256 ^ l.length := Nat.pow_pos (by decide)
  have hlow : -((256 ^ l.length : ℕ) / 2 : ℤ) ≤ signed l := Int.le_bmod hpos
  have hhigh : signed l ≤ ((256 ^ l.length : ℕ) - 1 : ℤ) / 2 := Int.bmod_le hpos
  rw [← natCast_pow_bytes]
  omega

end CLanguage.Lib
