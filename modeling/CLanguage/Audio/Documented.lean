import CLanguage.Audio.CommandLine

/-!
# The documented command lines

`Documented` are the command lines of the usage text, each with its options word. `validargs`
reads of a flag its second character only, and a number or a key through the loops that
convert them: `LooseForm` are the command lines that it accepts. `validargs_documented_iff`
says for which command lines that makes no difference.
-/

namespace CLanguage.Audio

open Lib

/-! ### The usage text -/

/-- A flag, `-x` for the letter x. -/
def flagWord (letter : UInt8) : List UInt8 := [45, letter]

/-- The value of decimal digits. -/
def decimalValue (s : List UInt8) : ℕ := s.foldl (fun n c => n * 10 + (c.toNat - 48)) 0

/-- FACTOR, a decimal number from 1 to 1024. -/
structure IsFactor (s : List UInt8) : Prop where
  digits : ∀ c ∈ s, 48 ≤ c ∧ c ≤ 57
  bounds : 1 ≤ decimalValue s ∧ decimalValue s ≤ 1024

/-- The hexadecimal digits. -/
def IsHexDigit (c : UInt8) : Prop :=
  (48 ≤ c ∧ c ≤ 57) ∨ (65 ≤ c ∧ c ≤ 70) ∨ (97 ≤ c ∧ c ≤ 102)

/-- The value of a hexadecimal digit. -/
def hexDigitValue (c : UInt8) : ℕ :=
  if c ≤ 57 then c.toNat - 48 else if c ≤ 70 then c.toNat - 55 else c.toNat - 87

/-- The value of hexadecimal digits. -/
def hexValue (s : List UInt8) : ℕ := s.foldl (fun n c => n * 16 + hexDigitValue c) 0

/-- KEY, one to eight hexadecimal digits. -/
structure IsKey (s : List UInt8) : Prop where
  digits : ∀ c ∈ s, IsHexDigit c
  length : 1 ≤ s.length ∧ s.length ≤ 8

/-- The bit of `-p`. -/
def preserveBit : UInt64 := (1 : UInt64) <<< 59

/-- FACTOR - 1 in bits 48 to 57. -/
def factorBits (s : List UInt8) : UInt64 := UInt64.ofNat (decimalValue s - 1) <<< 48

/-- KEY in the low 32 bits. -/
def keyBits (s : List UInt8) : UInt64 := UInt64.ofNat (hexValue s)

/-- What may follow `-u` and `-d`, with its bits. -/
def FactorForm : List (List UInt8) → UInt64 → Prop
  | [], bits => bits = 0
  | [p], bits => p = flagWord 112 ∧ bits = preserveBit
  | [f, factor], bits => f = flagWord 102 ∧ IsFactor factor ∧ bits = factorBits factor
  | [x, y, z], bits =>
    (x = flagWord 102 ∧ IsFactor y ∧ z = flagWord 112 ∧ bits = factorBits y ||| preserveBit) ∨
      (x = flagWord 112 ∧ y = flagWord 102 ∧ IsFactor z ∧ bits = factorBits z ||| preserveBit)
  | _, _ => False

/-- What may follow `-c`, with its bits. -/
def KeyForm : List (List UInt8) → UInt64 → Prop
  | [k, key], bits => k = flagWord 107 ∧ IsKey key ∧ bits = keyBits key
  | [x, y, z], bits =>
    (x = flagWord 107 ∧ IsKey y ∧ z = flagWord 112 ∧ bits = keyBits y ||| preserveBit) ∨
      (x = flagWord 112 ∧ y = flagWord 107 ∧ IsKey z ∧ bits = keyBits z ||| preserveBit)
  | _, _ => False

/-- The words behind the program name are a documented command line with the given options. -/
def Documented : List (List UInt8) → UInt64 → Prop
  | [], _ => False
  | mode :: rest, options =>
    (mode = flagWord 104 ∧ options = (1 : UInt64) <<< 63) ∨
      ∃ bits, (mode = flagWord 117 ∧ FactorForm rest bits ∧ options = (1 : UInt64) <<< 62 ||| bits) ∨
        (mode = flagWord 100 ∧ FactorForm rest bits ∧ options = (1 : UInt64) <<< 61 ||| bits) ∨
        (mode = flagWord 99 ∧ KeyForm rest bits ∧ options = (1 : UInt64) <<< 60 ||| bits)

/-- What `validargs` is to do with a command line: it returns 1 for the documented ones only, and
then the options word, if it was 0, is the documented one. -/
def ValidatesAs (argv : List (List UInt8)) : Prop :=
  ∀ globalOptions, ∃ r options, validargs globalOptions argv = .ok (r, options) ∧
    (r = 1 ↔ ∃ options, Documented (words argv).tail options) ∧
    (r = 1 → globalOptions = 0 → Documented (words argv).tail options)

/-! ### What `validargs` reads -/

/-- A flag is read by its second character. -/
def Letter (letter : UInt8) (s : List UInt8) : Prop := s[1]? = some letter

/-- A word that passes for a factor. -/
def FactorRead (s : List UInt8) : Prop := 1 ≤ strToInt s ∧ strToInt s ≤ 1024

/-- A word that passes for a key. -/
def KeyRead (s : List UInt8) : Prop := ∃ counter ∈ keyCounter 0 s, counter ≤ 8

/-- What may follow `-u` and `-d`, up to the spelling of the words. -/
def LooseFactor : List (List UInt8) → Prop
  | [] => True
  | [p] => Letter 112 p
  | [f, factor] => Letter 102 f ∧ factor.head? ≠ some 45 ∧ FactorRead factor
  | [x, y, z] => (Letter 102 x ∧ y.head? ≠ some 45 ∧ FactorRead y ∧ Letter 112 z) ∨
      (Letter 112 x ∧ Letter 102 y ∧ FactorRead z)
  | _ => False

/-- What may follow `-c`, up to the spelling of the words: also nothing. -/
def LooseKey : List (List UInt8) → Prop
  | [] => True
  | [k, key] => Letter 107 k ∧ KeyRead key
  | [x, y, z] => Letter 107 x ∧ KeyRead y ∧ Letter 112 z
  | _ => False

/-- The words are a command line up to their spelling. -/
def LooseForm : List (List UInt8) → Prop
  | [] => False
  | mode :: rest => Letter 104 mode ∨ (Letter 117 mode ∨ Letter 100 mode) ∧ LooseFactor rest ∨
      Letter 99 mode ∧ LooseKey rest

/-- Behind `-u` or `-d` an empty word is read as a flag. -/
def BlankFactor : List (List UInt8) → Prop
  | [] => False
  | [x, y, z] => x = [] ∨ (Letter 102 x ∧ y.head? ≠ some 45 ∧ FactorRead y ∧ z = []) ∨
      (Letter 112 x ∧ y = [])
  | x :: _ => x = []

/-- Behind `-c` an empty word is read as a flag. -/
def BlankKey : List (List UInt8) → Prop
  | [] => False
  | [x, y, z] => x = [] ∨ (Letter 107 x ∧ KeyRead y ∧ z = []) ∨ (Letter 112 x ∧ y = [])
  | x :: _ => x = []

/-- An empty word is read as a flag. -/
def BlankFlag : List (List UInt8) → Prop
  | [] => False
  | mode :: rest => mode = [] ∨ (Letter 117 mode ∨ Letter 100 mode) ∧ BlankFactor rest ∨
      Letter 99 mode ∧ BlankKey rest

/-- The condition for `ValidatesAs`, on the words behind the program name: no empty word is read as
a flag, words that pass for a command line are one, and they are not `-c -p -k KEY`. -/
def WellSpelled (ws : List (List UInt8)) : Prop :=
  ¬ BlankFlag ws ∧ (LooseForm ws → ∃ options, Documented ws options) ∧
    ∀ key, IsKey key → ws ≠ [flagWord 99, flagWord 112, flagWord 107, key]

/-! ### Numbers and keys -/

private theorem toInt32_digit : ∀ m < 10,
    (UInt8.ofNat (48 + m)).toInt8.toInt32 = Int32.ofNat m + 48 := by
  decide

theorem digit_eq {c : UInt8} (h : 48 ≤ c ∧ c ≤ 57) :
    ∃ m < 10, c = UInt8.ofNat (48 + m) ∧ c.toNat = 48 + m := by
  have hlow := UInt8.le_iff_toNat_le.mp h.1
  have hhigh := UInt8.le_iff_toNat_le.mp h.2
  change 48 ≤ c.toNat at hlow
  change c.toNat ≤ 57 at hhigh
  refine ⟨c.toNat - 48, by omega, ?_, by omega⟩
  rw [Nat.add_sub_cancel' hlow, UInt8.ofNat_toNat]

theorem strToInt_eq {s : List UInt8} (h : ∀ c ∈ s, 48 ≤ c ∧ c ≤ 57) :
    strToInt s = Int32.ofNat (decimalValue s) := by
  have hfrom : ∀ n : ℕ, s.foldl (fun res c => res * 10 + c.toInt8.toInt32 - 48) (Int32.ofNat n) =
      Int32.ofNat (s.foldl (fun n c => n * 10 + (c.toNat - 48)) n) := by
    induction s with
    | nil => exact fun n => rfl
    | cons c s ih =>
      intro n
      obtain ⟨m, hm, hc, hvalue⟩ := digit_eq (h c List.mem_cons_self)
      have hstep : Int32.ofNat n * 10 + c.toInt8.toInt32 - 48 =
          Int32.ofNat (n * 10 + (c.toNat - 48)) := by
        rw [hvalue, hc, toInt32_digit m hm, Nat.add_sub_cancel_left, Int32.ofNat_add,
          Int32.ofNat_mul, ← Int32.add_assoc, Int32.add_sub_cancel]
        rfl
      rw [List.foldl_cons, List.foldl_cons, hstep]
      exact ih (fun c hc => h c (List.mem_cons_of_mem _ hc)) _
  exact hfrom 0

theorem factorRead_of_isFactor {s : List UInt8} (h : IsFactor s) : FactorRead s := by
  obtain ⟨hlow, hhigh⟩ := h.bounds
  rw [FactorRead, strToInt_eq h.digits, Int32.le_iff_toInt_le, Int32.le_iff_toInt_le,
    Int32.toInt_ofNat_of_lt (by omega)]
  constructor
  · exact Int.ofNat_le.mpr hlow
  · exact Int.ofNat_le.mpr hhigh

theorem setFactor_eq (g : UInt64) {s : List UInt8} (h : IsFactor s) :
    setFactor g (strToInt s) = g ||| factorBits s := by
  obtain ⟨hlow, hhigh⟩ := h.bounds
  have hret : (Int32.ofNat (decimalValue s) - 1).toInt64.toUInt64 =
      UInt64.ofNat (decimalValue s - 1) := by
    obtain ⟨n, hn⟩ : ∃ n, decimalValue s = n + 1 := ⟨decimalValue s - 1, by omega⟩
    have hsub : Int32.ofNat (n + 1) - 1 = Int32.ofNat n := by
      rw [Int32.ofNat_add]
      exact Int32.add_sub_cancel _ _
    rw [hn, hsub, Nat.add_sub_cancel]
    have hword : (Int32.ofNat n).toInt64 = Int64.ofNat n := by
      apply Int64.toInt_inj.mp
      rw [Int32.toInt_toInt64, Int32.toInt_ofNat_of_lt (by omega), Int64.toInt_ofNat_of_lt (by omega)]
    rw [hword]
    rfl
  rw [setFactor, strToInt_eq h.digits, hret, factorBits]

theorem keyCounter_of_isKey {s : List UInt8} (h : IsKey s) : KeyRead s := by
  have hsmall : ∀ n ≤ 8, ¬ Int32.ofNat n < 0 ∧ Int32.ofNat n ≤ 8 := by decide
  have hfrom : ∀ n, n + s.length ≤ 8 → (∀ c ∈ s, IsHexDigit c) →
      keyCounter (Int32.ofNat n) s = some (Int32.ofNat (n + s.length)) := by
    clear h
    induction s with
    | nil => exact fun n _ _ => rfl
    | cons c s ih =>
      intro n hn hdigits
      rw [List.length_cons] at hn ⊢
      have hdigit : (48 ≤ c ∧ c ≤ 57) ∨ (65 ≤ c ∧ c ≤ 70) ∨ (97 ≤ c ∧ c ≤ 102) :=
        hdigits c List.mem_cons_self
      have hnext : Int32.ofNat n + 1 = Int32.ofNat (n + 1) := (Int32.ofNat_add n 1).symm
      rw [keyCounter, if_neg (hsmall n (by omega)).1, if_pos hdigit, hnext,
        ih (n + 1) (by omega) fun c hc => hdigits c (List.mem_cons_of_mem _ hc)]
      congr 2
      omega
  have hlength := h.length.2
  have hrun := hfrom 0 (by omega) h.digits
  exact ⟨_, hrun, (hsmall _ (by omega)).2⟩

/-- A digit fills the four bits that are shifted in. -/
theorem shift_or_digit (n : ℕ) {v : ℕ} (hv : v < 16) :
    UInt32.ofNat n <<< 4 ||| UInt32.ofNat v = UInt32.ofNat (n * 16 + v) := by
  apply UInt32.toNat_inj.mp
  have hshift : (UInt32.ofNat n <<< 4).toNat = (n % 2 ^ 28) <<< 4 := by
    rw [UInt32.toNat_shiftLeft, UInt32.toNat_ofNat', Nat.shiftLeft_eq, Nat.shiftLeft_eq]
    change n % 2 ^ 32 * 2 ^ 4 % 2 ^ 32 = _
    omega
  rw [UInt32.toNat_or, hshift, UInt32.toNat_ofNat_of_lt' (show v < 2 ^ 32 by omega),
    ← Nat.shiftLeft_add_eq_or_of_lt (show v < 2 ^ 4 by omega), Nat.shiftLeft_eq, UInt32.toNat_ofNat']
  omega

theorem toUInt32_sub {c d : UInt8} (h : d ≤ c) :
    (c - d).toUInt32 = UInt32.ofNat (c.toNat - d.toNat) := by
  rw [← UInt8.toNat_sub_of_le c d h]
  apply UInt32.toNat_inj.mp
  simp

/-- A round of the loop of `strToHex`. -/
theorem strToHexFrom_cons (n : ℕ) {c : UInt8} (hc : IsHexDigit c) (s : List UInt8) :
    strToHexFrom (UInt32.ofNat n) (c :: s) =
      strToHexFrom (UInt32.ofNat (n * 16 + hexDigitValue c)) s := by
  rw [strToHexFrom]
  -- the branches of the source for `0` to `9`, `A` to `F` and `a` to `f`
  rcases hc with hc | hc | hc
  · have hhigh : c.toNat ≤ 57 := UInt8.le_iff_toNat_le.mp hc.2
    have hdigit : (c - 48).toUInt32 = UInt32.ofNat (c.toNat - 48) := toUInt32_sub hc.1
    rw [if_pos hc, hexDigitValue, if_pos hc.2, hdigit, shift_or_digit n (by omega)]
  · have hlow : 65 ≤ c.toNat := UInt8.le_iff_toNat_le.mp hc.1
    have hhigh : c.toNat ≤ 70 := UInt8.le_iff_toNat_le.mp hc.2
    have hno : ¬ c ≤ 57 := fun h =>
      absurd (show c.toNat ≤ 57 from UInt8.le_iff_toNat_le.mp h) (by omega)
    have hdigit : (c - 65).toUInt32 + 10 = UInt32.ofNat (c.toNat - 55) := by
      rw [toUInt32_sub hc.1, show c.toNat - 55 = c.toNat - 65 + 10 by omega, UInt32.ofNat_add]
      rfl
    rw [if_neg fun h => hno h.2, if_pos hc, hexDigitValue, if_neg hno, if_pos hc.2, hdigit,
      shift_or_digit n (by omega)]
  · have hlow : 97 ≤ c.toNat := UInt8.le_iff_toNat_le.mp hc.1
    have hhigh : c.toNat ≤ 102 := UInt8.le_iff_toNat_le.mp hc.2
    have hno : ¬ c ≤ 57 := fun h =>
      absurd (show c.toNat ≤ 57 from UInt8.le_iff_toNat_le.mp h) (by omega)
    have hno' : ¬ c ≤ 70 := fun h =>
      absurd (show c.toNat ≤ 70 from UInt8.le_iff_toNat_le.mp h) (by omega)
    have hdigit : (c - 97).toUInt32 + 10 = UInt32.ofNat (c.toNat - 87) := by
      rw [toUInt32_sub hc.1, show c.toNat - 87 = c.toNat - 97 + 10 by omega, UInt32.ofNat_add]
      rfl
    rw [if_neg fun h => hno h.2, if_neg fun h => hno' h.2, if_pos hc, hexDigitValue, if_neg hno,
      if_neg hno', hdigit, shift_or_digit n (by omega)]

theorem strToHex_eq {s : List UInt8} (h : ∀ c ∈ s, IsHexDigit c) :
    strToHex s = UInt32.ofNat (hexValue s) := by
  have hfrom : ∀ n : ℕ, strToHexFrom (UInt32.ofNat n) s =
      UInt32.ofNat (s.foldl (fun n c => n * 16 + hexDigitValue c) n) := by
    induction s with
    | nil => exact fun n => rfl
    | cons c s ih =>
      intro n
      rw [strToHexFrom_cons n (h c List.mem_cons_self), List.foldl_cons]
      exact ih (fun c hc => h c (List.mem_cons_of_mem _ hc)) _
  exact hfrom 0

theorem hexDigitValue_lt {c : UInt8} (hc : IsHexDigit c) : hexDigitValue c < 16 := by
  simp only [IsHexDigit, UInt8.le_iff_toNat_le, UInt8.reduceToNat] at hc
  simp only [hexDigitValue, UInt8.le_iff_toNat_le, UInt8.reduceToNat]
  split_ifs <;> omega

theorem hexValue_lt {s : List UInt8} (h : IsKey s) : hexValue s < 2 ^ 32 := by
  have hfrom : ∀ n : ℕ, (∀ c ∈ s, IsHexDigit c) →
      s.foldl (fun n c => n * 16 + hexDigitValue c) n < (n + 1) * 16 ^ s.length := by
    clear h
    induction s with
    | nil => exact fun n _ => by simp
    | cons c s ih =>
      intro n hdigits
      have hc := hexDigitValue_lt (hdigits c List.mem_cons_self)
      have hrest := ih (n * 16 + hexDigitValue c) fun c hc => hdigits c (List.mem_cons_of_mem _ hc)
      rw [List.foldl_cons, List.length_cons, pow_succ']
      calc _ < (n * 16 + hexDigitValue c + 1) * 16 ^ s.length := hrest
        _ ≤ (n + 1) * 16 * 16 ^ s.length := Nat.mul_le_mul_right _ (by omega)
        _ = (n + 1) * (16 * 16 ^ s.length) := Nat.mul_assoc _ _ _
  have hlength : 16 ^ s.length ≤ 16 ^ 8 := Nat.pow_le_pow_right (by decide) h.length.2
  have hlt := hfrom 0 h.digits
  rw [hexValue]
  omega

theorem setKey_eq (g : UInt64) {s : List UInt8} (h : IsKey s) : setKey g s = g ||| keyBits s := by
  have hword : (UInt32.ofNat (hexValue s)).toUInt64 = UInt64.ofNat (hexValue s) := by
    apply UInt64.toNat_inj.mp
    have hlt := hexValue_lt h
    rw [UInt32.toNat_toUInt64, UInt32.toNat_ofNat_of_lt' hlt,
      UInt64.toNat_ofNat_of_lt' (show hexValue s < 2 ^ 64 by omega)]
  rw [setKey, strToHex_eq h.digits, hword, keyBits]

/-! ### The branches -/

/-- What a branch of `validargs` does with its words: it fails where an empty word is read as a flag,
returns 1 for the loose forms, and then has set the bits of the form. -/
def Parses (blank loose : Prop) (form : UInt64 → Prop) (globalOptions : UInt64) :
    Except Fault (Int32 × UInt64) → Prop
  | .error _ => blank
  | .ok (r, options) => ¬ blank ∧ (r = 1 ↔ loose) ∧
      ∀ bits, form bits → options = globalOptions ||| bits ∨ r ≠ 1

section Parses

variable {blank loose : Prop} {form : UInt64 → Prop} {globalOptions options : UInt64}
  {argv : List (List UInt8)} {i : ℕ} {s : List UInt8}

theorem Parses.refused (hblank : ¬ blank) (hloose : ¬ loose) :
    Parses blank loose form globalOptions (.ok (0, options)) :=
  ⟨hblank, iff_of_false (by decide) hloose, fun _ _ => .inr (by decide)⟩

theorem Parses.accepted (hblank : ¬ blank) (hloose : loose)
    (hbits : ∀ bits, form bits → options = globalOptions ||| bits) :
    Parses blank loose form globalOptions (.ok (1, options)) :=
  ⟨hblank, iff_of_true rfl hloose, fun bits h => .inl (hbits bits h)⟩

theorem Parses.ite {c : Prop} [Decidable c] {x y : Except Fault (Int32 × UInt64)}
    (hx : c → Parses blank loose form globalOptions x)
    (hy : ¬ c → Parses blank loose form globalOptions y) :
    Parses blank loose form globalOptions (if c then x else y) := by
  split
  · next h => exact hx h
  · next h => exact hy h

/-- A flag is read. -/
theorem Parses.letter {f : UInt8 → Except Fault (Int32 × UInt64)} (h : (words argv)[i]? = some s)
    (hblank : s = [] → blank)
    (hf : ∀ t, s ≠ [] → (∀ letter, letter ≠ 0 → (Letter letter s ↔ t = letter)) →
      Parses blank loose form globalOptions (f t)) :
    Parses blank loose form globalOptions (argumentChar argv i 1 >>= f) := by
  have hword := argument_eq argv h
  -- the second character is behind the end of an empty word, and the null byte of one of length 1
  rcases s with _ | ⟨a, _ | ⟨c, s⟩⟩
  · have hfault : argumentChar argv i 1 = .error .pastArgument := by
      rw [argumentChar, hword]
      rfl
    rw [hfault]
    exact hblank rfl
  · have hend : argumentChar argv i 1 = .ok 0 := by
      rw [argumentChar, hword]
      rfl
    rw [hend]
    exact hf 0 (List.cons_ne_nil a []) fun letter hne => iff_of_false (by simp [Letter]) hne.symm
  · have hchar : argumentChar argv i 1 = .ok c := by
      rw [argumentChar, hword]
      rfl
    rw [hchar]
    exact hf c (List.cons_ne_nil a _) fun letter _ => by simp [Letter]

end Parses

/-- The first character of a word, 0 if there is none. -/
theorem argumentChar_head {argv : List (List UInt8)} {i : ℕ} {s : List UInt8}
    (h : (words argv)[i]? = some s) :
    ∃ a, argumentChar argv i 0 = .ok a ∧ (s.head? = some 45 ↔ a = 45) := by
  have hword := argument_eq argv h
  match s with
  | [] =>
    refine ⟨0, ?_, by decide⟩
    rw [argumentChar, hword]
    rfl
  | c :: _ =>
    refine ⟨c, ?_, by simp⟩
    rw [argumentChar, hword]
    rfl

theorem length_words (argv : List (List UInt8)) : (words argv).length = argv.length :=
  List.length_map _

@[simp] theorem letter_flagWord (letter letter' : UInt8) :
    Letter letter (flagWord letter') ↔ letter' = letter := by
  simp [Letter, flagWord]

theorem validFactor_parses (g : UInt64) {argv ws : List (List UInt8)} {program mode : List UInt8}
    (h : words argv = program :: mode :: ws) :
    Parses (BlankFactor ws) (LooseFactor ws) (FactorForm ws) g (validFactor g argv) := by
  have hlength := length_words argv
  rw [h] at hlength
  match ws with
  | [] =>
    have hlen : argv.length = 2 := hlength.symm
    simp only [validFactor, hlen, gt_iff_lt, Nat.lt_irrefl, if_false]
    exact .accepted id trivial fun bits hbits => by rw [hbits, UInt64.or_zero]
  | [x] =>
    have hlen : argv.length = 3 := hlength.symm
    simp only [validFactor, hlen, gt_iff_lt, Nat.reduceLT, if_true, Nat.lt_irrefl, if_false,
      false_and]
    refine .letter (s := x) (by rw [h]; rfl) id fun t hx hletter => ?_
    have h112 := hletter 112 (by decide)
    refine .ite (fun ht => .refused hx ?_) fun _ => .ite (fun ht => .accepted hx ?_ ?_)
      fun ht => .refused hx (mt h112.mp ht)
    · rw [LooseFactor, h112, ht]
      decide
    · exact h112.mpr ht
    · rintro bits ⟨-, rfl⟩
      rfl
  | [x, y] =>
    have hlen : argv.length = 4 := hlength.symm
    have hword : argument argv 3 = .ok y := argument_eq argv (by rw [h]; rfl)
    have hthird : (words argv)[3]? = some y := by rw [h]; rfl
    obtain ⟨a, ha, hhead⟩ := argumentChar_head hthird
    simp only [validFactor, hlen, gt_iff_lt, Nat.reduceLT, if_true, ha, hword, ok_bind,
      Nat.reduceEqDiff, and_false, if_false]
    refine .letter (s := x) (by rw [h]; rfl) id fun t hx hletter => ?_
    have h102 := hletter 102 (by decide)
    refine .ite (fun ht => ?_) fun ht => ?_
    · refine .ite (fun hdash => .refused hx fun hl => hl.2.1 (hhead.mpr hdash)) fun hdash => ?_
      refine .ite (fun hread => .accepted hx ⟨h102.mpr ht, mt hhead.mp hdash, hread⟩ ?_)
        fun hread => .refused hx fun hl => hread hl.2.2
      rintro bits ⟨-, hfactor, rfl⟩
      exact setFactor_eq g hfactor
    · have hloose : ¬ LooseFactor [x, y] := fun hl => ht (h102.mp hl.1)
      exact .ite (fun _ => .refused hx hloose) fun _ => .refused hx hloose
  | [x, y, z] =>
    have hlen : argv.length = 5 := hlength.symm
    have hy : argument argv 3 = .ok y := argument_eq argv (by rw [h]; rfl)
    have hz : argument argv 4 = .ok z := argument_eq argv (by rw [h]; rfl)
    have hthird : (words argv)[3]? = some y := by rw [h]; rfl
    obtain ⟨a, ha, hhead⟩ := argumentChar_head hthird
    simp only [validFactor, hlen, gt_iff_lt, Nat.reduceLT, if_true, ha, hy, hz, ok_bind, and_self]
    refine .letter (s := x) (by rw [h]; rfl) .inl fun t hx hletter => ?_
    have h102 := hletter 102 (by decide)
    have h112 := hletter 112 (by decide)
    simp only [BlankFactor, LooseFactor, h102, h112]
    refine .ite (fun ht => ?_) fun ht => .ite (fun ht' => ?_) fun ht' => ?_
    · -- the factor first
      subst ht
      refine .ite (fun hdash => .refused (by simp [hx, hhead, hdash]) (by simp [hhead, hdash]))
        fun hdash => ?_
      refine .ite (fun hread => ?_) fun hread =>
        .refused (by simp [hx, FactorRead, hread]) (by simp [FactorRead, hread])
      have hread : FactorRead y := hread
      refine .letter (s := z) (by rw [h]; rfl)
        (fun hblank => .inr (.inl ⟨rfl, mt hhead.mp hdash, hread, hblank⟩)) fun t hz hletter => ?_
      have h112 := hletter 112 (by decide)
      have hblank : ¬ (x = [] ∨ ((102 : UInt8) = 102 ∧ y.head? ≠ some 45 ∧ FactorRead y ∧ z = []) ∨
          ((102 : UInt8) = 112 ∧ y = [])) := by simp [hx, hz]
      refine .ite (fun ht => .accepted hblank (.inl ⟨rfl, mt hhead.mp hdash, hread, h112.mpr ht⟩) ?_)
        fun ht => .refused hblank (by simp [h112, ht])
      rintro bits (⟨-, hfactor, -, rfl⟩ | ⟨rfl, -⟩)
      · rw [setFactor_eq g hfactor, setOption, UInt64.or_assoc]
        rfl
      · exact absurd (h102.mpr rfl) (by simp)
    · -- `-p` first
      subst ht'
      refine .letter (s := y) (by rw [h]; rfl) (fun hblank => .inr (.inr ⟨rfl, hblank⟩))
        fun t hy hletter => ?_
      have h102' := hletter 102 (by decide)
      have hblank : ¬ (x = [] ∨ ((112 : UInt8) = 102 ∧ y.head? ≠ some 45 ∧ FactorRead y ∧ z = []) ∨
          ((112 : UInt8) = 112 ∧ y = [])) := by simp [hx, hy]
      refine .ite (fun ht => ?_) fun ht => .refused hblank (by simp [h102', ht])
      refine .ite (fun hread => .accepted hblank (.inr ⟨rfl, h102'.mpr ht, hread⟩) ?_)
        fun hread => .refused hblank (by simp [FactorRead, hread])
      rintro bits (⟨rfl, -⟩ | ⟨-, -, hfactor, rfl⟩)
      · exact absurd (h112.mpr rfl) (by simp)
      · rw [setFactor_eq _ hfactor, setOption, UInt64.or_assoc, UInt64.or_comm (factorBits z)]
        rfl
    · exact .refused (by simp [hx, ht, ht']) (by simp [ht, ht'])
  | x :: y :: z :: w :: ws =>
    have hlen : argv.length = ws.length + 6 := hlength.symm
    have hmany : argv.length > 2 ∧ argv.length > 3 ∧ argv.length ≠ 3 ∧ argv.length ≠ 5 ∧
        argv.length > 5 := by omega
    obtain ⟨htwo, hthree, hne, hne', hfive⟩ := hmany
    have hword : argument argv 3 = .ok y := argument_eq argv (by rw [h]; rfl)
    have hthird : (words argv)[3]? = some y := by rw [h]; rfl
    obtain ⟨a, ha, -⟩ := argumentChar_head hthird
    simp only [validFactor, htwo, hthree, hne, hne', hfive, if_true, if_false, and_false, ha, hword,
      ok_bind]
    refine .letter (s := x) (by rw [h]; rfl) id fun t hx _ => ?_
    refine .ite (fun _ => ?_) fun _ => .ite (fun _ => .refused hx id) fun _ => .refused hx id
    exact .ite (fun _ => .refused hx id) fun _ => .ite (fun _ => .refused hx id)
      fun _ => .refused hx id

/-- The loop over a key, as a condition. -/
theorem Parses.key {blank loose : Prop} {form : UInt64 → Prop} {g : UInt64} {s : List UInt8}
    {x y : Except Fault (Int32 × UInt64)} (hx : KeyRead s → Parses blank loose form g x)
    (hy : ¬ KeyRead s → Parses blank loose form g y) :
    Parses blank loose form g (match keyCounter 0 s with
      | none => y
      | some counter => if counter ≤ 8 then x else y) := by
  cases hcounter : keyCounter 0 s with
  | none => exact hy fun ⟨counter, hmem, _⟩ => by simp [hcounter] at hmem
  | some counter =>
    refine .ite (fun hle => hx ⟨counter, hcounter, hle⟩) fun hle => hy ?_
    rintro ⟨counter', hmem, hle'⟩
    obtain rfl : counter = counter' := Option.some.inj (hcounter.symm.trans hmem)
    exact hle hle'

/-- The flag `-k` is no key. -/
theorem keyCounter_flag {s : List UInt8} (h : Letter 107 s) : keyCounter 0 s = none := by
  match s, h with
  | a :: c :: s, h =>
    obtain rfl : c = 107 := by simpa [Letter] using h
    have hstart : ¬ (0 : Int32) < 0 ∧ ¬ (0 : Int32) + 1 < 0 := by decide
    have hletter : ¬ ((48 ≤ (107 : UInt8) ∧ (107 : UInt8) ≤ 57) ∨
        (65 ≤ (107 : UInt8) ∧ (107 : UInt8) ≤ 70) ∨ (97 ≤ (107 : UInt8) ∧ (107 : UInt8) ≤ 102)) := by
      decide
    rw [keyCounter, if_neg hstart.1]
    split
    · rw [keyCounter, if_neg hstart.2, if_neg hletter]
    · rfl

theorem validKey_parses (g : UInt64) {argv ws : List (List UInt8)} {program mode : List UInt8}
    (h : words argv = program :: mode :: ws) :
    Parses (BlankKey ws) (LooseKey ws) (KeyForm ws) g (validKey g argv) := by
  have hlength := length_words argv
  rw [h] at hlength
  match ws with
  | [] =>
    have hlen : argv.length = 2 := hlength.symm
    simp only [validKey, hlen, gt_iff_lt, Nat.lt_irrefl, if_false]
    exact .accepted id trivial nofun
  | [x] =>
    have hlen : argv.length = 3 := hlength.symm
    simp only [validKey, hlen, gt_iff_lt, Nat.reduceLT, if_true, ge_iff_le, Nat.reduceLeDiff,
      and_false, if_false, Nat.reduceEqDiff]
    refine .letter (s := x) (by rw [h]; rfl) id fun t hx _ => ?_
    exact .ite (fun _ => .refused hx id) fun _ => .refused hx id
  | [x, y] =>
    have hlen : argv.length = 4 := hlength.symm
    have hword : argument argv 3 = .ok y := argument_eq argv (by rw [h]; rfl)
    simp only [validKey, hlen, gt_iff_lt, Nat.reduceLT, if_true, hword, ok_bind, ge_iff_le,
      Nat.le_refl, and_true, Nat.reduceEqDiff, if_false, Nat.lt_irrefl]
    refine .letter (s := x) (by rw [h]; rfl) id fun t hx hletter => ?_
    have h107 := hletter 107 (by decide)
    refine .ite (fun ht => .key (fun hread => .accepted hx ⟨h107.mpr ht, hread⟩ ?_)
      fun hread => .refused hx fun hl => hread hl.2) fun ht => ?_
    · rintro bits ⟨-, hkey, rfl⟩
      exact setKey_eq g hkey
    · have hloose : ¬ LooseKey [x, y] := fun hl => ht (h107.mp hl.1)
      exact .ite (fun _ => .refused hx hloose) fun _ => .refused hx hloose
  | [x, y, z] =>
    have hlen : argv.length = 5 := hlength.symm
    have hy : argument argv 3 = .ok y := argument_eq argv (by rw [h]; rfl)
    have hz : argument argv 4 = .ok z := argument_eq argv (by rw [h]; rfl)
    simp only [validKey, hlen, gt_iff_lt, Nat.reduceLT, if_true, hy, hz, ok_bind, ge_iff_le,
      Nat.reduceLeDiff, and_true]
    refine .letter (s := x) (by rw [h]; rfl) .inl fun t hx hletter => ?_
    have h107 := hletter 107 (by decide)
    have h112 := hletter 112 (by decide)
    simp only [BlankKey, LooseKey, h107, h112]
    refine .ite (fun ht => ?_) fun ht => .ite (fun ht' => ?_) fun ht' => ?_
    · -- the key first
      subst ht
      refine .key (fun hread => ?_) fun hread =>
        .refused (by simp [hx, hread]) (by simp [hread])
      refine .letter (s := z) (by rw [h]; rfl) (fun hblank => .inr (.inl ⟨rfl, hread, hblank⟩))
        fun t hz hletter => ?_
      have h112' := hletter 112 (by decide)
      have hblank : ¬ (x = [] ∨ ((107 : UInt8) = 107 ∧ KeyRead y ∧ z = []) ∨
          ((107 : UInt8) = 112 ∧ y = [])) := by simp [hx, hz]
      refine .ite (fun ht => .accepted hblank ⟨rfl, hread, h112'.mpr ht⟩ ?_)
        fun ht => .refused hblank (by simp [h112', ht])
      rintro bits (⟨-, hkey, -, rfl⟩ | ⟨rfl, -⟩)
      · rw [setKey_eq g hkey, setOption, UInt64.or_assoc]
        rfl
      · exact absurd (h107.mpr rfl) (by simp)
    · -- `-p` first: the flag behind it is taken for the key
      subst ht'
      refine .letter (s := y) (by rw [h]; rfl) (fun hblank => .inr (.inr ⟨rfl, hblank⟩))
        fun t hy hletter => ?_
      have hblank : ¬ (x = [] ∨ ((112 : UInt8) = 107 ∧ KeyRead y ∧ z = []) ∨
          ((112 : UInt8) = 112 ∧ y = [])) := by simp [hx, hy]
      refine .ite (fun ht => ?_) fun ht => .refused hblank (by simp)
      rw [keyCounter_flag ((hletter 107 (by decide)).mpr ht)]
      exact .refused hblank (by simp)
    · exact .refused (by simp [hx, ht, ht']) (by simp [ht])
  | x :: y :: z :: w :: ws =>
    have hlen : argv.length = ws.length + 6 := hlength.symm
    have hmany : argv.length > 2 ∧ argv.length ≥ 4 ∧ argv.length ≠ 5 ∧ argv.length > 4 := by omega
    obtain ⟨htwo, hfour, hne, hmore⟩ := hmany
    have hword : argument argv 3 = .ok y := argument_eq argv (by rw [h]; rfl)
    simp only [validKey, htwo, hfour, hne, hmore, if_true, if_false, and_true, hword, ok_bind]
    refine .letter (s := x) (by rw [h]; rfl) id fun t hx _ => ?_
    refine .ite (fun _ => .key (fun _ => .refused hx id) fun _ => .refused hx id) fun _ => ?_
    exact .ite (fun _ => .refused hx id) fun _ => .refused hx id

/-! ### The command line -/

/-- A branch within the whole command line. -/
theorem Parses.branch {blank loose blank' loose' : Prop} {form form' : UInt64 → Prop}
    {g bit : UInt64} {x : Except Fault (Int32 × UInt64)}
    (h : Parses blank loose form (setOption g bit) x) (hblank : blank ↔ blank')
    (hloose : loose ↔ loose')
    (hform : ∀ options, form' options → ∃ bits, form bits ∧ options = (1 : UInt64) <<< bit ||| bits) :
    Parses blank' loose' form' g x := by
  cases x with
  | error e => exact hblank.mp h
  | ok r =>
    obtain ⟨hb, hl, hbits⟩ := h
    refine ⟨mt hblank.mpr hb, hl.trans hloose, fun options ho => ?_⟩
    obtain ⟨bits, hb, rfl⟩ := hform options ho
    rw [← UInt64.or_assoc]
    exact hbits bits hb

theorem validargs_parses (g : UInt64) (argv : List (List UInt8)) :
    Parses (BlankFlag (words argv).tail) (LooseForm (words argv).tail)
      (Documented (words argv).tail) g (validargs g argv) := by
  have hlength := length_words argv
  rcases h : words argv with _ | ⟨program, _ | ⟨mode, ws⟩⟩
  · rw [h] at hlength
    have hlen : argv.length = 0 := hlength.symm
    simp only [validargs, hlen, gt_iff_lt, Nat.not_lt_zero, if_false, Nat.reduceEqDiff]
    exact .refused id id
  · rw [h] at hlength
    have hlen : argv.length = 1 := hlength.symm
    rw [validargs, if_pos hlen]
    exact .refused id id
  · rw [h] at hlength
    have hlen : argv.length = ws.length + 2 := hlength.symm
    rw [List.tail_cons, validargs, if_neg (by omega), if_pos (by omega)]
    refine .letter (s := mode) (by rw [h]; rfl) .inl fun t hmode hletter => ?_
    have h104 := hletter 104 (by decide)
    have h117 := hletter 117 (by decide)
    have h100 := hletter 100 (by decide)
    have h99 := hletter 99 (by decide)
    -- the mode of a documented line is the letter that was read
    have hfirst {letter : UInt8} (hne : letter ≠ 0) (hw : mode = flagWord letter) : t = letter := by
      rw [hw] at hletter
      exact (hletter letter hne).mp ((letter_flagWord letter letter).mpr rfl)
    refine .ite (fun ht => .accepted ?_ (.inl (h104.mpr ht)) ?_) fun hhelp => ?_
    · simp [BlankFlag, hmode, h117, h100, h99, ht]
    · rintro options (⟨-, rfl⟩ | ⟨bits, ⟨hw, -⟩ | ⟨hw, -⟩ | ⟨hw, -⟩⟩)
      · rfl
      all_goals exact absurd (ht.symm.trans (hfirst (by decide) hw)) (by decide)
    refine .ite (fun ht => (validFactor_parses (setOption g 62) h).branch ?_ ?_ ?_) fun hu => ?_
    · simp [BlankFlag, hmode, h117, h100, h99, ht]
    · simp [LooseForm, h104, h117, h100, h99, ht]
    · rintro options (⟨hw, -⟩ | ⟨bits, ⟨-, hform, rfl⟩ | ⟨hw, -⟩ | ⟨hw, -⟩⟩)
      case inr.inl => exact ⟨bits, hform, rfl⟩
      all_goals exact absurd (ht.symm.trans (hfirst (by decide) hw)) (by decide)
    refine .ite (fun ht => (validFactor_parses (setOption g 61) h).branch ?_ ?_ ?_) fun hd => ?_
    · simp [BlankFlag, hmode, h117, h100, h99, ht]
    · simp [LooseForm, h104, h117, h100, h99, ht]
    · rintro options (⟨hw, -⟩ | ⟨bits, ⟨hw, -⟩ | ⟨-, hform, rfl⟩ | ⟨hw, -⟩⟩)
      case inr.inr.inl => exact ⟨bits, hform, rfl⟩
      all_goals exact absurd (ht.symm.trans (hfirst (by decide) hw)) (by decide)
    refine .ite (fun ht => (validKey_parses (setOption g 60) h).branch ?_ ?_ ?_) fun hc => ?_
    · simp [BlankFlag, hmode, h117, h100, h99, ht]
    · simp [LooseForm, h104, h117, h100, h99, ht]
    · rintro options (⟨hw, -⟩ | ⟨bits, ⟨hw, -⟩ | ⟨hw, -⟩ | ⟨-, hform, rfl⟩⟩)
      case inr.inr.inr => exact ⟨bits, hform, rfl⟩
      all_goals exact absurd (ht.symm.trans (hfirst (by decide) hw)) (by decide)
    exact .refused (by simp [BlankFlag, hmode, h117, h100, h99, hu, hd, hc])
      (by simp [LooseForm, h104, h117, h100, h99, hhelp, hu, hd, hc])

theorem looseFactor_of_form {ws : List (List UInt8)} {bits : UInt64} (h : FactorForm ws bits) :
    LooseFactor ws := by
  have hhead {s : List UInt8} (hs : IsFactor s) : s.head? ≠ some 45 := by
    intro hdash
    have hmem : 45 ∈ s := List.mem_of_mem_head? hdash
    exact absurd (hs.digits 45 hmem) (by decide)
  match ws, h with
  | [], _ => trivial
  | [_], ⟨rfl, _⟩ => exact (letter_flagWord 112 112).mpr rfl
  | [_, _], ⟨rfl, hfactor, _⟩ =>
    exact ⟨(letter_flagWord 102 102).mpr rfl, hhead hfactor, factorRead_of_isFactor hfactor⟩
  | [_, _, _], .inl ⟨rfl, hfactor, rfl, _⟩ =>
    exact .inl ⟨(letter_flagWord 102 102).mpr rfl, hhead hfactor, factorRead_of_isFactor hfactor,
      (letter_flagWord 112 112).mpr rfl⟩
  | [_, _, _], .inr ⟨rfl, rfl, hfactor, _⟩ =>
    exact .inr ⟨(letter_flagWord 112 112).mpr rfl, (letter_flagWord 102 102).mpr rfl,
      factorRead_of_isFactor hfactor⟩

theorem looseKey_of_form {ws : List (List UInt8)} {bits : UInt64} (h : KeyForm ws bits) :
    LooseKey ws ∨ ∃ key, IsKey key ∧ ws = [flagWord 112, flagWord 107, key] := by
  match ws, h with
  | [_, _], ⟨rfl, hkey, _⟩ =>
    exact .inl ⟨(letter_flagWord 107 107).mpr rfl, keyCounter_of_isKey hkey⟩
  | [_, _, _], .inl ⟨rfl, hkey, rfl, _⟩ =>
    exact .inl ⟨(letter_flagWord 107 107).mpr rfl, keyCounter_of_isKey hkey,
      (letter_flagWord 112 112).mpr rfl⟩
  | [_, _, key], .inr ⟨rfl, rfl, hkey, _⟩ => exact .inr ⟨key, hkey, rfl⟩

/-- Of the documented command lines one is not accepted. -/
theorem looseForm_of_documented {ws : List (List UInt8)} {options : UInt64}
    (h : Documented ws options) :
    LooseForm ws ∨ ∃ key, IsKey key ∧ ws = [flagWord 99, flagWord 112, flagWord 107, key] := by
  match ws, h with
  | _ :: _, .inl ⟨rfl, _⟩ => exact .inl (.inl ((letter_flagWord 104 104).mpr rfl))
  | _ :: _, .inr ⟨_, .inl ⟨rfl, hform, _⟩⟩ =>
    exact .inl (.inr (.inl ⟨.inl ((letter_flagWord 117 117).mpr rfl), looseFactor_of_form hform⟩))
  | _ :: _, .inr ⟨_, .inr (.inl ⟨rfl, hform, _⟩)⟩ =>
    exact .inl (.inr (.inl ⟨.inr ((letter_flagWord 100 100).mpr rfl), looseFactor_of_form hform⟩))
  | _ :: _, .inr ⟨_, .inr (.inr ⟨rfl, hform, _⟩)⟩ =>
    obtain hloose | ⟨key, hkey, rfl⟩ := looseKey_of_form hform
    · exact .inl (.inr (.inr ⟨(letter_flagWord 99 99).mpr rfl, hloose⟩))
    · exact .inr ⟨key, hkey, rfl⟩

/-- `-c -p -k KEY` is documented and not accepted. -/
theorem preserveKey_refused {key : List UInt8} (hkey : IsKey key) :
    (∃ options, Documented [flagWord 99, flagWord 112, flagWord 107, key] options) ∧
      ¬ LooseForm [flagWord 99, flagWord 112, flagWord 107, key] := by
  refine ⟨⟨_, .inr ⟨_, .inr (.inr ⟨rfl, .inr ⟨rfl, rfl, hkey, rfl⟩, rfl⟩)⟩⟩, ?_⟩
  simp [LooseForm, LooseKey]

end CLanguage.Audio
