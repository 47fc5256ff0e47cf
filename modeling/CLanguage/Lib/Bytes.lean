import Mathlib.Algebra.Order.Ring.Nat
import Mathlib.Algebra.Order.Group.Nat
import Mathlib.Data.Nat.Bitwise
import Mathlib.Tactic.Ring

/-!
# Big-endian byte strings

`toBytes w n` are the low `w` bytes of `n`, the most significant one first, and
`ofBytes` reads a byte string back as a number. The two are inverse up to
reduction modulo `256 ^ w`, and the exclusive or of two numbers is computed byte
by byte.
-/

namespace CLanguage.Lib

/-- The low `w` bytes of `n`, most significant first. -/
def toBytes : ℕ → ℕ → List UInt8
  | 0, _ => []
  | w + 1, n => UInt8.ofNat (n / 256 ^ w) :: toBytes w n

/-- Append the bytes of `l` to the number `n`, most significant first. -/
def ofBytesFrom (n : ℕ) (l : List UInt8) : ℕ := l.foldl (fun n b => n * 256 + b.toNat) n

/-- The number with the given bytes, most significant first. -/
def ofBytes (l : List UInt8) : ℕ := ofBytesFrom 0 l

@[simp] theorem toBytes_zero (n : ℕ) : toBytes 0 n = [] := rfl

theorem toBytes_succ (w n : ℕ) : toBytes (w + 1) n = UInt8.ofNat (n / 256 ^ w) :: toBytes w n :=
  rfl

@[simp] theorem length_toBytes (w n : ℕ) : (toBytes w n).length = w := by
  induction w with
  | zero => rfl
  | succ w ih => rw [toBytes_succ, List.length_cons, ih]

@[simp] theorem ofBytesFrom_nil (n : ℕ) : ofBytesFrom n [] = n := rfl

@[simp] theorem ofBytesFrom_cons (n : ℕ) (b : UInt8) (l : List UInt8) :
    ofBytesFrom n (b :: l) = ofBytesFrom (n * 256 + b.toNat) l := rfl

/-- What is read first carries the weight of all bytes after it. -/
theorem ofBytesFrom_eq (n : ℕ) (l : List UInt8) :
    ofBytesFrom n l = n * 256 ^ l.length + ofBytes l := by
  induction l generalizing n with
  | nil => simp [ofBytes]
  | cons b l ih =>
    have htail := ih b.toNat
    rw [ofBytes, ofBytesFrom_cons, ofBytesFrom_cons, Nat.zero_mul, Nat.zero_add, ih, htail,
      List.length_cons, pow_succ]
    ring

theorem ofBytes_cons (b : UInt8) (l : List UInt8) :
    ofBytes (b :: l) = b.toNat * 256 ^ l.length + ofBytes l := by
  rw [ofBytes, ofBytesFrom_cons, Nat.zero_mul, Nat.zero_add, ofBytesFrom_eq]

theorem ofBytes_lt (l : List UInt8) : ofBytes l < 256 ^ l.length := by
  induction l with
  | nil => simp [ofBytes]
  | cons b l ih =>
    have hb : b.toNat + 1 ≤ 256 := b.toNat_lt
    rw [ofBytes_cons, List.length_cons, pow_succ]
    calc b.toNat * 256 ^ l.length + ofBytes l
        < b.toNat * 256 ^ l.length + 256 ^ l.length := Nat.add_lt_add_left ih _
      _ = (b.toNat + 1) * 256 ^ l.length := by ring
      _ ≤ 256 * 256 ^ l.length := Nat.mul_le_mul_right _ hb
      _ = 256 ^ l.length * 256 := Nat.mul_comm _ _

theorem ofBytes_toBytes (w n : ℕ) : ofBytes (toBytes w n) = n % 256 ^ w := by
  induction w with
  | zero => simp [ofBytes, Nat.mod_one]
  | succ w ih =>
    have hbyte : (UInt8.ofNat (n / 256 ^ w)).toNat = n / 256 ^ w % 256 := by simp
    rw [toBytes_succ, ofBytes_cons, length_toBytes, ih, hbyte, Nat.mod_pow_succ]
    ring

/-- Only the low `w` bytes count. -/
theorem toBytes_add_mul (w n m : ℕ) : toBytes w (n + m * 256 ^ w) = toBytes w n := by
  induction w generalizing m with
  | zero => rfl
  | succ w ih =>
    have hsplit : n + m * 256 ^ (w + 1) = n + m * 256 * 256 ^ w := by ring
    have hbyte : UInt8.ofNat (n / 256 ^ w + m * 256) = UInt8.ofNat (n / 256 ^ w) := by
      apply UInt8.toNat_inj.mp
      simp
    rw [toBytes_succ, toBytes_succ, hsplit, ih (m * 256),
      Nat.add_mul_div_right _ _ (Nat.pow_pos (by decide)), hbyte]

theorem toBytes_mod (w n : ℕ) : toBytes w (n % 256 ^ w) = toBytes w n := by
  have h := toBytes_add_mul w (n % 256 ^ w) (n / 256 ^ w)
  rw [Nat.mod_add_div' n (256 ^ w)] at h
  exact h.symm

theorem toBytes_ofBytes (l : List UInt8) : toBytes l.length (ofBytes l) = l := by
  induction l with
  | nil => rfl
  | cons b l ih =>
    have hhead : (b.toNat * 256 ^ l.length + ofBytes l) / 256 ^ l.length = b.toNat := by
      rw [Nat.add_comm, Nat.add_mul_div_right _ _ (Nat.pow_pos (by decide)),
        Nat.div_eq_of_lt (ofBytes_lt l), Nat.zero_add]
    have htail : toBytes l.length (b.toNat * 256 ^ l.length + ofBytes l) = l := by
      rw [Nat.add_comm, toBytes_add_mul, ih]
    rw [List.length_cons, ofBytes_cons, toBytes_succ, hhead, htail, UInt8.ofNat_toNat]

/-- The bytes, counted from the left. -/
theorem toBytes_eq_map (w n : ℕ) :
    toBytes w n = (List.range w).map fun j => UInt8.ofNat (n / 256 ^ (w - 1 - j)) := by
  induction w with
  | zero => rfl
  | succ w ih =>
    have htail : ∀ j, w + 1 - 1 - (j + 1) = w - 1 - j := fun j => by omega
    rw [toBytes_succ, ih, List.range_succ_eq_map, List.map_cons, List.map_map]
    simp only [Function.comp_def, Nat.succ_eq_add_one, htail]
    rfl

theorem toBytes_xor (w n m : ℕ) :
    toBytes w (n ^^^ m) = List.zipWith (· ^^^ ·) (toBytes w n) (toBytes w m) := by
  induction w with
  | zero => rfl
  | succ w ih =>
    have hpow : 256 ^ w = 2 ^ (8 * w) := by rw [show 256 = 2 ^ 8 from rfl, ← pow_mul]
    have hbyte : UInt8.ofNat ((n ^^^ m) / 256 ^ w) =
        UInt8.ofNat (n / 256 ^ w) ^^^ UInt8.ofNat (m / 256 ^ w) := by
      apply UInt8.toNat_inj.mp
      rw [hpow, ← Nat.shiftRight_eq_div_pow, ← Nat.shiftRight_eq_div_pow,
        ← Nat.shiftRight_eq_div_pow, Nat.shiftRight_xor_distrib]
      simp only [UInt8.toNat_xor, UInt8.toNat_ofNat']
      exact Nat.xor_mod_two_pow
    rw [toBytes_succ, toBytes_succ, toBytes_succ, List.zipWith_cons_cons, ih, hbyte]

/-- Masking twice with the same bytes changes nothing. -/
theorem zipWith_xor_cancel {l m : List UInt8} (h : l.length = m.length) :
    List.zipWith (· ^^^ ·) (List.zipWith (· ^^^ ·) l m) m = l := by
  induction l generalizing m with
  | nil => rfl
  | cons b l ih =>
    cases m with
    | nil => simp at h
    | cons c m =>
      have hlength : l.length = m.length := Nat.succ.inj h
      rw [List.zipWith_cons_cons, List.zipWith_cons_cons, ih hlength, UInt8.xor_assoc,
        UInt8.xor_self, UInt8.xor_zero]

/-- Masks can be laid on in any order. -/
theorem zipWith_xor_right_comm (l m k : List UInt8) :
    List.zipWith (· ^^^ ·) (List.zipWith (· ^^^ ·) l m) k =
      List.zipWith (· ^^^ ·) (List.zipWith (· ^^^ ·) l k) m := by
  induction l generalizing m k with
  | nil => rfl
  | cons b l ih =>
    cases m with
    | nil => simp
    | cons c m =>
      cases k with
      | nil => rfl
      | cons d k =>
        simp only [List.zipWith_cons_cons, ih]
        rw [UInt8.xor_assoc, UInt8.xor_comm c, ← UInt8.xor_assoc]

end CLanguage.Lib
