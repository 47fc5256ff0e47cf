import CLanguage.Lib.Bytes
import Mathlib

/-!
# The header of a Sun audio stream

Standard input and output are byte strings: `getchar` takes a byte off the input
and yields -1 at its end, `putchar` yields the byte it appends to the output.
`readHeader` and `writeHeader` are mutually inverse on the headers that are
accepted (`readHeader_eq_some`). Signed arithmetic wraps at 32 bits.
-/

namespace CLanguage.Audio

open Lib

/-- The next character of the input, -1 at its end. -/
def getchar : List UInt8 → Int32 × List UInt8
  | [] => (-1, [])
  | b :: input => (b.toUInt32.toInt32, input)

/-- Conversion to `char`; characters are given by their bits. -/
def toChar (c : Int32) : UInt8 := c.toUInt32.toUInt8

/-- The byte that `putchar` writes. -/
def putchar (c : Int32) : UInt8 := toChar c

structure AudioHeader where
  magicNumber : UInt32
  dataOffset : UInt32
  dataSize : UInt32
  encoding : UInt32
  sampleRate : UInt32
  channels : UInt32
  deriving DecidableEq, Repr

/-- The global header before it is read. -/
def AudioHeader.zero : AudioHeader := ⟨0, 0, 0, 0, 0, 0⟩

/-- `AUDIO_MAGIC`, the characters ".snd". -/
def audioMagic : UInt32 := 779316836

/-- `ANNOTATION_MAX` -/
def annotationMax : ℕ := 1024

/-- The loop over the characters of the magic number; `expected` are those still to come. -/
def readMagic : UInt32 → List UInt8 → List UInt8 → Option (UInt32 × List UInt8)
  | magicNumber, [], input => some (magicNumber, input)
  | magicNumber, e :: expected, input =>
    let (b, input) := getchar input
    let c := toChar b
    if c ≠ e then none
    else
      let magicNumber := magicNumber + c.toUInt32
      readMagic (if expected ≠ [] then magicNumber * 256 else magicNumber) expected input

/-- `n` rounds of the loop that collects a big-endian word in `temp`. -/
def readWordFrom : ℕ → Int32 → List UInt8 → Int32 × List UInt8
  | 0, temp, input => (temp, input)
  | n + 1, temp, input =>
    let (b, input) := getchar input
    readWordFrom n (temp * 256 + b) input

/-- A word of the header. -/
def readWord (input : List UInt8) : Int32 × List UInt8 := readWordFrom 4 0 input

/-- `read_header`: the header and the rest of the input, `none` for the return value 0. -/
def readHeader (hp : AudioHeader) (input : List UInt8) : Option (AudioHeader × List UInt8) :=
  match readMagic hp.magicNumber [46, 115, 110, 100] input with
  | none => none
  | some (magicNumber, input) =>
    if magicNumber ≠ audioMagic then none
    else
      let (dataOffset, input) := readWord input
      if dataOffset % 8 ≠ 0 ∨ dataOffset > Int32.ofNat annotationMax then none
      else
        let (dataSize, input) := readWord input
        let (encoding, input) := readWord input
        if encoding = 2 ∨ encoding = 3 ∨ encoding = 4 ∨ encoding = 5 then
          let (sampleRate, input) := readWord input
          let (channels, input) := readWord input
          if channels = 1 ∨ channels = 2 then
            some (⟨magicNumber, dataOffset.toUInt32, dataSize.toUInt32, encoding.toUInt32,
              sampleRate.toUInt32, channels.toUInt32⟩, input)
          else none
        else none

/-- The loop that writes a word of the header; the second shift is of a signed number. -/
def writeWord (w : UInt32) : List UInt8 :=
  (List.range 4).map fun j => putchar ((w <<< UInt32.ofNat (j * 8)).toInt32 >>> 24)

/-- `write_header` -/
def writeHeader (hp : AudioHeader) : List UInt8 :=
  writeWord hp.magicNumber ++ writeWord hp.dataOffset ++ writeWord hp.dataSize ++
    writeWord hp.encoding ++ writeWord hp.sampleRate ++ writeWord hp.channels

/-! ## Characters and words -/

@[simp] theorem toChar_getchar (b : UInt8) : toChar b.toUInt32.toInt32 = b := by
  apply UInt8.toNat_inj.mp
  simp [toChar]

@[simp] theorem putchar_getchar (b : UInt8) : putchar b.toUInt32.toInt32 = b := toChar_getchar b

/-- The byte written after a right shift by 24 is the high byte, whatever the sign. -/
theorem putchar_shiftRight (w : UInt32) :
    putchar (w.toInt32 >>> 24) = UInt8.ofNat (w.toNat / 2 ^ 24) := by
  apply UInt8.toBitVec_inj.mp
  apply BitVec.eq_of_getLsbD_eq
  intro i hi
  have hshift : (putchar (w.toInt32 >>> 24)).toBitVec =
      (w.toBitVec.sshiftRight 24).setWidth 8 := rfl
  have hbyte : (UInt8.ofNat (w.toNat / 2 ^ 24)).toBitVec = BitVec.ofNat 8 (w.toNat / 2 ^ 24) := rfl
  -- the bits kept are below the sign bit's copies
  have hlow : 24 + i < 32 := by omega
  have hin : ¬ 32 ≤ i := by omega
  have hbit : (w.toNat / 2 ^ 24).testBit i = w.toBitVec.getLsbD (24 + i) := by
    rw [Nat.testBit_div_two_pow, Nat.add_comm]
    rfl
  rw [hshift, hbyte, BitVec.getLsbD_setWidth, BitVec.getLsbD_sshiftRight, BitVec.getLsbD_ofNat,
    hbit]
  simp [hi, hlow, hin]

/-- A left shift selects the byte that comes `i` places before the last one. -/
theorem toUInt8_shift {w s : UInt32} {i : ℕ} (hi : i < 4) (hs : s.toNat = 8 * (3 - i)) :
    UInt8.ofNat ((w <<< s).toNat / 2 ^ 24) = UInt8.ofNat (w.toNat / 256 ^ i) := by
  have hsmall : s.toNat % 32 = 8 * (3 - i) := by omega
  apply UInt8.toNat_inj.mp
  rw [UInt32.toNat_shiftLeft, hsmall, Nat.shiftLeft_eq, UInt8.toNat_ofNat', UInt8.toNat_ofNat']
  have hcases : i = 0 ∨ i = 1 ∨ i = 2 ∨ i = 3 := by omega
  rcases hcases with rfl | rfl | rfl | rfl <;> norm_num <;> omega

theorem writeWord_eq (w : UInt32) : writeWord w = toBytes 4 w.toNat := by
  rw [writeWord, toBytes_eq_map]
  apply List.map_congr_left
  intro j hj
  have hj : j < 4 := List.mem_range.mp hj
  have hs : (UInt32.ofNat (j * 8)).toNat = 8 * (3 - (4 - 1 - j)) := by
    rw [UInt32.toNat_ofNat']
    omega
  rw [putchar_shiftRight, toUInt8_shift (by omega) hs]

@[simp] theorem length_writeWord (w : UInt32) : (writeWord w).length = 4 := by
  rw [writeWord_eq, length_toBytes]

theorem readWordFrom_cons (n : ℕ) (temp : Int32) (b : UInt8) (input : List UInt8) :
    readWordFrom (n + 1) temp (b :: input) =
      readWordFrom n (temp * 256 + b.toUInt32.toInt32) input := by
  rw [readWordFrom, getchar]

theorem readWordFrom_end (n : ℕ) (temp : Int32) :
    readWordFrom (n + 1) temp [] = readWordFrom n (temp * 256 + -1) [] := by
  rw [readWordFrom, getchar]

/-- The loop computes the big-endian value of the bytes it reads, modulo 2 ^ 32. -/
theorem readWordFrom_eq (temp : Int32) (l input : List UInt8) :
    readWordFrom l.length temp (l ++ input) =
      ((UInt32.ofNat (ofBytesFrom temp.toUInt32.toNat l)).toInt32, input) := by
  induction l generalizing temp with
  | nil => simp [readWordFrom]
  | cons b l ih =>
    have hword : (temp * 256 + b.toUInt32.toInt32).toUInt32 =
        temp.toUInt32 * 256 + b.toUInt32 := rfl
    rw [List.length_cons, List.cons_append, readWordFrom_cons, ih, hword, ofBytesFrom_cons,
      ofBytesFrom_eq, ofBytesFrom_eq (_ + _)]
    congr 2
    apply UInt32.toNat_inj.mp
    simp [Nat.add_mod, Nat.mul_mod]

theorem readWord_append {l : List UInt8} (hlength : l.length = 4) (input : List UInt8) :
    readWord (l ++ input) = ((UInt32.ofNat (ofBytes l)).toInt32, input) := by
  have h := readWordFrom_eq 0 l input
  rw [hlength] at h
  exact h

theorem readWord_writeWord (w : UInt32) (input : List UInt8) :
    readWord (writeWord w ++ input) = (w.toInt32, input) := by
  have hword : w.toNat % 256 ^ 4 = w.toNat := Nat.mod_eq_of_lt w.toNat_lt
  rw [readWord_append (length_writeWord w), writeWord_eq, ofBytes_toBytes, hword,
    UInt32.ofNat_toNat]

/-- A word that is complete is written as it was read. -/
theorem writeWord_readWord {input : List UInt8} (hlength : 4 ≤ input.length) :
    writeWord (readWord input).1.toUInt32 ++ (readWord input).2 = input := by
  have htake : (input.take 4).length = 4 := by
    rw [List.length_take]
    omega
  have hlt : ofBytes (input.take 4) < 2 ^ 32 := by
    have h := ofBytes_lt (input.take 4)
    rwa [htake] at h
  have hword : writeWord (UInt32.ofNat (ofBytes (input.take 4))) = input.take 4 := by
    have h := toBytes_ofBytes (input.take 4)
    rw [htake] at h
    rw [writeWord_eq, UInt32.toNat_ofNat_of_lt' hlt, h]
  have hread := readWord_append htake (input.drop 4)
  rw [List.take_append_drop] at hread
  rw [hread, UInt32.toUInt32_toInt32, hword, List.take_append_drop]

theorem readWordFrom_rest (n : ℕ) (temp : Int32) (input : List UInt8) :
    (readWordFrom n temp input).2 = input.drop n := by
  induction n generalizing temp input with
  | zero => rfl
  | succ n ih =>
    cases input with
    | nil => rw [readWordFrom_end, ih, List.drop_nil, List.drop_nil]
    | cons b input => rw [readWordFrom_cons, ih, List.drop_succ_cons]

/-- A word that the end of the input cuts has -1 added last. -/
theorem readWordFrom_cut {n : ℕ} (temp : Int32) {input : List UInt8} (h : input.length ≤ n) :
    ∃ x, (readWordFrom (n + 1) temp input).1 = x * 256 + -1 := by
  induction n generalizing temp input with
  | zero =>
    obtain rfl := List.length_eq_zero_iff.mp (Nat.le_zero.mp h)
    rw [readWordFrom_end]
    exact ⟨temp, by rw [readWordFrom]⟩
  | succ n ih =>
    cases input with
    | nil =>
      rw [readWordFrom_end]
      exact ih _ (Nat.zero_le n)
    | cons b input =>
      rw [readWordFrom_cons]
      exact ih _ (Nat.le_of_succ_le_succ h)

/-! ## The accepted headers -/

/-- The conditions that `readHeader` checks. -/
structure AudioHeader.Accepted (hp : AudioHeader) : Prop where
  magicNumber : hp.magicNumber = audioMagic
  dataOffset : ¬ (hp.dataOffset.toInt32 % 8 ≠ 0 ∨
    hp.dataOffset.toInt32 > Int32.ofNat annotationMax)
  encoding : hp.encoding.toInt32 = 2 ∨ hp.encoding.toInt32 = 3 ∨ hp.encoding.toInt32 = 4 ∨
    hp.encoding.toInt32 = 5
  channels : hp.channels.toInt32 = 1 ∨ hp.channels.toInt32 = 2

/-- The magic number: the accepted input starts with the characters expected. -/
theorem readMagic_eq_some {magicNumber m : UInt32} {expected input rest : List UInt8}
    (hchars : 255 ∉ expected) (h : readMagic magicNumber expected input = some (m, rest)) :
    input = expected ++ rest := by
  induction expected generalizing magicNumber input with
  | nil =>
    rw [readMagic, Option.some.injEq, Prod.mk.injEq] at h
    exact h.2
  | cons e expected ih =>
    have hne : 255 ≠ e := fun he => hchars (he ▸ List.mem_cons_self)
    have htail : 255 ∉ expected := fun he => hchars (List.mem_cons_of_mem e he)
    cases input with
    | nil =>
      -- at the end of the input the character is -1, converted to 255
      have hend : toChar (getchar []).1 = 255 := by decide_cbv
      rw [readMagic] at h
      simp only [hend, ne_eq, hne, not_false_eq_true, if_true, reduceCtorEq] at h
    | cons b input =>
      rw [readMagic] at h
      simp only [getchar, toChar_getchar] at h
      split at h
      case isTrue => exact absurd h nofun
      case isFalse heq =>
        obtain rfl := not_not.mp heq
        rw [ih htail h, List.cons_append]

theorem readMagic_append (rest : List UInt8) :
    readMagic 0 [46, 115, 110, 100] ([46, 115, 110, 100] ++ rest) = some (audioMagic, rest) := by
  simp only [List.cons_append, List.nil_append, readMagic, getchar, toChar_getchar]
  rfl

theorem writeWord_audioMagic : writeWord audioMagic = [46, 115, 110, 100] := by
  decide_cbv

/-- The words behind the magic number, up to the last one: what is read before is dropped. -/
theorem readWord_rest (input : List UInt8) : (readWord input).2 = input.drop 4 :=
  readWordFrom_rest 4 0 input

theorem readWord_channels {input : List UInt8}
    (h : (readWord input).1 = 1 ∨ (readWord input).1 = 2) : 4 ≤ input.length := by
  by_contra hshort
  obtain ⟨x, hx⟩ := readWordFrom_cut (n := 3) 0 (show input.length ≤ 3 by omega)
  have hlow : (x * 256 + -1).toUInt32.toNat % 256 = 255 := by
    have hword : (x * 256 + -1).toUInt32 = x.toUInt32 * 256 + 4294967295 := by
      rfl
    rw [hword]
    simp
  rw [readWord, hx] at h
  rcases h with h | h <;> rw [h] at hlow <;> exact absurd hlow (by decide)

/-- A word that is complete, with the lengths before and after it. -/
theorem readWord_complete {input rest : List UInt8} {w : Int32} (h : readWord input = (w, rest))
    (hlength : 4 ≤ input.length) : input = writeWord w.toUInt32 ++ rest := by
  have hread := writeWord_readWord hlength
  rw [h] at hread
  exact hread.symm

/-- What is complete after a word was complete with it. -/
theorem readWord_length {input rest : List UInt8} {w : Int32} (h : readWord input = (w, rest))
    (hlength : 4 ≤ rest.length) : 4 ≤ input.length := by
  have hrest := readWord_rest input
  rw [h] at hrest
  simp only at hrest
  rw [hrest, List.length_drop] at hlength
  omega

/-- Behind the magic number, the fields that `writeHeader` writes are read and checked. -/
theorem readHeader_magic {hp : AudioHeader} (hmagic : hp.magicNumber = audioMagic)
    (input : List UInt8) : readHeader .zero (writeHeader hp ++ input) =
      if hp.dataOffset.toInt32 % 8 ≠ 0 ∨ hp.dataOffset.toInt32 > Int32.ofNat annotationMax then none
      else if hp.encoding.toInt32 = 2 ∨ hp.encoding.toInt32 = 3 ∨ hp.encoding.toInt32 = 4 ∨
          hp.encoding.toInt32 = 5 then
        if hp.channels.toInt32 = 1 ∨ hp.channels.toInt32 = 2 then some (hp, input) else none
      else none := by
  obtain ⟨m, o, d, e, r, c⟩ := hp
  simp only at hmagic
  subst hmagic
  have hstart := readMagic_append
    (writeWord o ++ (writeWord d ++ (writeWord e ++ (writeWord r ++ (writeWord c ++ input)))))
  rw [← writeWord_audioMagic] at hstart
  have hzero : AudioHeader.zero.magicNumber = 0 := rfl
  simp only [readHeader, writeHeader, List.append_assoc, hzero]
  rw [← writeWord_audioMagic, hstart]
  simp only [readWord_writeWord, ne_eq, not_true_eq_false, if_false, UInt32.toUInt32_toInt32]

theorem readHeader_writeHeader {hp : AudioHeader} (h : hp.Accepted) (input : List UInt8) :
    readHeader .zero (writeHeader hp ++ input) = some (hp, input) := by
  obtain ⟨hmagic, hoffset, hencoding, hchannels⟩ := h
  rw [readHeader_magic hmagic, if_neg hoffset, if_pos hencoding, if_pos hchannels]

/-- A data offset that is refused ends the reading. -/
theorem readHeader_offset {hp : AudioHeader} (hmagic : hp.magicNumber = audioMagic)
    (h : hp.dataOffset.toInt32 % 8 ≠ 0 ∨ hp.dataOffset.toInt32 > Int32.ofNat annotationMax)
    (input : List UInt8) : readHeader .zero (writeHeader hp ++ input) = none := by
  rw [readHeader_magic hmagic, if_pos h]

/-- `readHeader` accepts exactly what `writeHeader` writes of an accepted header. -/
theorem readHeader_eq_some {hp : AudioHeader} {input rest : List UInt8} :
    readHeader .zero input = some (hp, rest) ↔ hp.Accepted ∧ input = writeHeader hp ++ rest := by
  constructor
  · intro h
    rw [readHeader] at h
    rcases hmagic : readMagic 0 [46, 115, 110, 100] input with _ | ⟨m, input₀⟩
    · have hzero : AudioHeader.zero.magicNumber = 0 := rfl
      rw [hzero, hmagic] at h
      exact absurd h nofun
    have hinput : input = [46, 115, 110, 100] ++ input₀ := readMagic_eq_some (by decide) hmagic
    have hm : m = audioMagic := by
      rw [hinput, readMagic_append, Option.some.injEq, Prod.mk.injEq] at hmagic
      exact hmagic.1.symm
    subst hm
    have hzero : AudioHeader.zero.magicNumber = 0 := rfl
    rw [hzero, hmagic] at h
    simp only [ne_eq, not_true_eq_false, if_false] at h
    rcases ho : readWord input₀ with ⟨o, input₁⟩
    rcases hd : readWord input₁ with ⟨d, input₂⟩
    rcases he : readWord input₂ with ⟨e, input₃⟩
    rcases hr : readWord input₃ with ⟨r, input₄⟩
    rcases hc : readWord input₄ with ⟨c, input₅⟩
    simp only [ho, hd, he, hr, hc] at h
    split_ifs at h with hoffset hencoding hchannels
    rw [Option.some.injEq, Prod.mk.injEq] at h
    obtain ⟨rfl, rfl⟩ := h
    -- the channels were complete, hence every word before them
    have hc4 : 4 ≤ input₄.length := by
      apply readWord_channels
      rw [hc]
      exact hchannels
    have hr4 := readWord_length hr hc4
    have he4 := readWord_length he hr4
    have hd4 := readWord_length hd he4
    have ho4 := readWord_length ho hd4
    refine ⟨⟨rfl, hoffset, hencoding, hchannels⟩, ?_⟩
    rw [hinput, readWord_complete ho ho4, readWord_complete hd hd4, readWord_complete he he4,
      readWord_complete hr hr4, readWord_complete hc hc4, writeHeader, writeWord_audioMagic]
    simp only [List.append_assoc]
  · rintro ⟨haccepted, rfl⟩
    exact readHeader_writeHeader haccepted rest

/-! ## What the header says -/

/-- The magic number that is left in the structure does not matter for what is read behind it. -/
theorem readMagic_start (magicNumber magicNumber' : UInt32) (expected input : List UInt8) :
    (readMagic magicNumber expected input).map Prod.snd =
      (readMagic magicNumber' expected input).map Prod.snd := by
  induction expected generalizing magicNumber magicNumber' input with
  | nil => rfl
  | cons e expected ih =>
    simp only [readMagic]
    split
    · rfl
    · exact ih _ _ _

/-- A header that is accepted is accepted by a zeroed structure as well. -/
theorem readHeader_zero {hp₀ hp : AudioHeader} {input rest : List UInt8}
    (h : readHeader hp₀ input = some (hp, rest)) : readHeader .zero input = some (hp, rest) := by
  rw [readHeader] at h ⊢
  have hstart := readMagic_start hp₀.magicNumber AudioHeader.zero.magicNumber [46, 115, 110, 100]
    input
  rcases hmagic : readMagic hp₀.magicNumber [46, 115, 110, 100] input with _ | ⟨m, input₀⟩
  · rw [hmagic] at h
    exact absurd h nofun
  rw [hmagic] at h hstart
  obtain ⟨⟨m', input₀'⟩, hmagic', rfl⟩ := Option.map_eq_some_iff.mp hstart.symm
  have hinput : input = [46, 115, 110, 100] ++ input₀' := readMagic_eq_some (by decide) hmagic'
  have hm' : audioMagic = m' := by
    have hzero : AudioHeader.zero.magicNumber = 0 := rfl
    rw [hinput, hzero, readMagic_append, Option.some.injEq, Prod.mk.injEq] at hmagic'
    exact hmagic'.1
  rw [hmagic', ← hm']
  by_cases hm : m = audioMagic
  · rw [hm] at h
    exact h
  · simp only [ne_eq, hm, not_false_eq_true, if_true, reduceCtorEq] at h

/-- The big-endian value of the word at place `i`. -/
def wordAt (input : List UInt8) (i : ℕ) : ℕ := ofBytes ((input.drop (4 * i)).take 4)

theorem ofBytes_writeWord (w : UInt32) : ofBytes (writeWord w) = w.toNat := by
  rw [writeWord_eq, ofBytes_toBytes]
  exact Nat.mod_eq_of_lt w.toNat_lt

theorem wordAt_zero (w : UInt32) (input : List UInt8) :
    wordAt (writeWord w ++ input) 0 = w.toNat := by
  rw [wordAt, Nat.mul_zero, List.drop_zero, List.take_left' (length_writeWord w),
    ofBytes_writeWord]

theorem wordAt_succ (w : UInt32) (input : List UInt8) (i : ℕ) :
    wordAt (writeWord w ++ input) (i + 1) = wordAt input i := by
  have hplace : 4 * (i + 1) = (writeWord w).length + 4 * i := by
    rw [length_writeWord]
    omega
  rw [wordAt, hplace, List.drop_length_add_append, wordAt]

/-- The fields of the header are the six words of the input. -/
def AudioHeader.FieldsOf (hp : AudioHeader) (input : List UInt8) : Prop :=
  hp.magicNumber.toNat = wordAt input 0 ∧ hp.dataOffset.toNat = wordAt input 1 ∧
    hp.dataSize.toNat = wordAt input 2 ∧ hp.encoding.toNat = wordAt input 3 ∧
    hp.sampleRate.toNat = wordAt input 4 ∧ hp.channels.toNat = wordAt input 5

theorem length_writeHeader (hp : AudioHeader) : (writeHeader hp).length = 24 := by
  simp only [writeHeader, List.length_append, length_writeWord]

theorem fieldsOf_writeHeader (hp : AudioHeader) (input : List UInt8) :
    hp.FieldsOf (writeHeader hp ++ input) := by
  simp only [AudioHeader.FieldsOf, writeHeader, List.append_assoc, wordAt_zero, wordAt_succ,
    and_self]

/-- A header that was read, into whatever structure, is read again from what `writeHeader` writes
of it; and only complete headers are read, with the big-endian values of their words. -/
theorem header_round_trip :
    (∀ hp₀ hp input rest, readHeader hp₀ input = some (hp, rest) →
      ∀ input', readHeader .zero (writeHeader hp ++ input') = some (hp, input')) ∧
    ∀ hp input rest, readHeader .zero input = some (hp, rest) →
      24 ≤ input.length ∧ hp.FieldsOf input := by
  constructor
  · intro hp₀ hp input rest h input'
    exact readHeader_writeHeader (readHeader_eq_some.mp (readHeader_zero h)).1 input'
  · intro hp input rest h
    obtain ⟨-, rfl⟩ := readHeader_eq_some.mp h
    refine ⟨?_, fieldsOf_writeHeader hp rest⟩
    rw [List.length_append, length_writeHeader]
    exact Nat.le_add_right 24 _

/-- A header without an annotation, for 8-bit mono frames. -/
def monoHeader : AudioHeader := ⟨audioMagic, 24, 4294967295, 2, 8000, 1⟩

theorem header_round_trip_example :
    readHeader .zero (writeHeader monoHeader ++ [7]) = some (monoHeader, [7]) ∧
      24 ≤ (writeHeader monoHeader ++ [7]).length := by
  have hread : readHeader .zero (writeHeader monoHeader ++ []) = some (monoHeader, []) := by
    decide_cbv
  have hagain := header_round_trip.1 _ _ _ _ hread [7]
  exact ⟨hagain, (header_round_trip.2 _ _ _ hagain).1⟩

end CLanguage.Audio
