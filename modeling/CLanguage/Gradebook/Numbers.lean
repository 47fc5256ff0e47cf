import CLanguage.Grades.Students
import CLanguage.Lib.Binary32
import CLanguage.Lib.Numerals

/-!
# Numbers as text

`scanFloat` is the conversion `%f` of `sscanf` and `printFloat` that of `printf`, for
the characters of ASCII. A float that is a multiple of a millionth is printed
exactly and read back as itself (`scanFloat_printFloat`).
-/

namespace CLanguage.Gradebook

open Lib Grades

/-- The bytes of a word in ASCII. -/
def ascii (cs : List Char) : Str := cs.map fun c => UInt8.ofNat c.toNat

/-! ## Reading -/

/-- `isspace` -/
def isspace (b : UInt8) : Bool := b = 32 || (9 ≤ b && b ≤ 13)

/-- `tolower` -/
def tolower (b : UInt8) : UInt8 := if 65 ≤ b && b ≤ 90 then b + 32 else b

/-- The value of a digit. -/
def digitValue (base : ℕ) (b : UInt8) : Option ℕ :=
  if 48 ≤ b && b ≤ 57 then
    if b.toNat - 48 < base then some (b.toNat - 48) else none
  else if 97 ≤ tolower b && tolower b ≤ 102 then
    if (tolower b).toNat - 87 < base then some ((tolower b).toNat - 87) else none
  else none

/-- The digits at the start of a string and what follows them. -/
def scanDigits (base : ℕ) : Str → List ℕ × Str
  | [] => ([], [])
  | b :: s =>
    match digitValue base b with
    | none => ([], b :: s)
    | some d => (d :: (scanDigits base s).1, (scanDigits base s).2)

/-- A sign, if there is one: whether it is a minus, and what follows. -/
def scanSign : Str → Bool × Str
  | [] => (false, [])
  | b :: s => if b = 45 then (true, s) else if b = 43 then (false, s) else (false, b :: s)

/-- An exponent behind its mark. Without digits the conversion fails. -/
def scanExponent (s : Str) : Option ℤ :=
  let (negative, s) := scanSign s
  let ds := (scanDigits 10 s).1
  if ds = [] then none
  else some (if negative then -(numeralValue 10 ds : ℤ) else numeralValue 10 ds)

/-- What follows the point, if there is one. -/
def scanFraction (base : ℕ) : Str → List ℕ × Str
  | [] => ([], [])
  | b :: s => if b = 46 then scanDigits base s else ([], b :: s)

/-- A number without its sign; `mark` announces an exponent of `power`. -/
def scanMagnitude (base power : ℕ) (mark : UInt8) (s : Str) : Option ℚ :=
  let (whole, s) := scanDigits base s
  let (fraction, s) := scanFraction base s
  if whole = [] ∧ fraction = [] then none
  else
    let m : ℚ := numeralValue base (whole ++ fraction) / (base : ℚ) ^ fraction.length
    match s with
    | [] => some m
    | b :: s =>
      if tolower b = mark then (scanExponent s).map fun e => m * (power : ℚ) ^ e else some m

/-- The conversion `%f` of `sscanf`: what is assigned, `none` if nothing is. -/
def scanFloat (s : Str) : Option Binary32 :=
  let (negative, s) := scanSign (s.dropWhile isspace)
  let lower := s.map tolower
  if lower.take 1 = ascii ['n'] then
    if lower.take 3 = ascii ['n', 'a', 'n'] then some .nan else none
  else if lower.take 1 = ascii ['i'] then
    if lower.take 3 = ascii ['i', 'n', 'f'] then
      -- a fourth i has to be the start of the long form
      if (lower.drop 3).take 1 = ascii ['i'] ∧ (lower.drop 3).take 5 ≠ ascii ['i', 'n', 'i', 't', 'y']
      then none
      else some (.infinite negative)
    else none
  else
    let magnitude := if lower.take 2 = ascii ['0', 'x'] then scanMagnitude 16 2 112 (s.drop 2)
      else scanMagnitude 10 10 101 s
    magnitude.map fun m => .ofRat (if negative then -m else m)

/-! ## Writing -/

/-- The characters of decimal digits. -/
def digits (ds : List ℕ) : Str := ds.map fun d => UInt8.ofNat (48 + d)

/-- The conversion `%f` of `printf`. -/
def printFloat : Binary32 → Str
  | .finite q =>
    let n := (roundEven (|q| * 10 ^ 6)).toNat
    (if q < 0 then [45] else []) ++ digits (numeral (n / 10 ^ 6)) ++ [46] ++
      digits (fixedNumeral 6 n)
  | .infinite negative => (if negative then [45] else []) ++ ascii ['i', 'n', 'f']
  | .nan => ascii ['n', 'a', 'n']

/-! ## A printed number is read back -/

theorem digitValue_digit {d : ℕ} (h : d < 10) : digitValue 10 (UInt8.ofNat (48 + d)) = some d := by
  have hall : ∀ d < 10, digitValue 10 (UInt8.ofNat (48 + d)) = some d := by decide
  exact hall d h

theorem scanDigits_digits {ds : List ℕ} (h : ∀ d ∈ ds, d < 10) {s : Str}
    (hs : ∀ b ∈ s.head?, digitValue 10 b = none) :
    scanDigits 10 (digits ds ++ s) = (ds, s) := by
  induction ds with
  | nil =>
    cases s with
    | nil => rfl
    | cons b s =>
      have hb := hs b rfl
      rw [digits, List.map_nil, List.nil_append, scanDigits, hb]
  | cons d ds ih =>
    have htail := ih fun d' hd' => h d' (List.mem_cons_of_mem d hd')
    rw [digits] at htail ⊢
    rw [List.map_cons, List.cons_append, scanDigits, digitValue_digit (h d List.mem_cons_self),
      htail]

/-- A float that is a multiple of a millionth. -/
def Millionths : Binary32 → Prop
  | .finite q => ∃ n : ℤ, q * 10 ^ 6 = n
  | _ => False

/-- A numeral with six digits behind its point. -/
def pointed (n : ℕ) : Str := digits (numeral (n / 10 ^ 6)) ++ 46 :: digits (fixedNumeral 6 n)

theorem mem_digits {ds : List ℕ} (h : ∀ d ∈ ds, d < 10) {b : UInt8} (hb : b ∈ digits ds) :
    ∃ d < 10, b = UInt8.ofNat (48 + d) := by
  obtain ⟨d, hd, rfl⟩ := List.mem_map.mp hb
  exact ⟨d, h d hd, rfl⟩

/-- The characters from the point to the digit nine. -/
theorem mem_pointed {n : ℕ} {b : UInt8} (h : b ∈ pointed n) :
    ∃ k < 12, b = UInt8.ofNat (46 + k) := by
  have hdigit {ds : List ℕ} (hds : ∀ d ∈ ds, d < 10) (hb : b ∈ digits ds) :
      ∃ k < 12, b = UInt8.ofNat (46 + k) := by
    obtain ⟨d, hd, rfl⟩ := mem_digits hds hb
    exact ⟨d + 2, by omega, congrArg UInt8.ofNat (by omega)⟩
  rcases List.mem_append.mp h with h | h
  · exact hdigit (fun _ => lt_of_mem_numeral) h
  rcases List.mem_cons.mp h with rfl | h
  · exact ⟨0, by decide, rfl⟩
  · exact hdigit (fun _ => lt_of_mem_fixedNumeral) h

/-- The first character is a digit. -/
theorem pointed_eq_cons (n : ℕ) : ∃ d < 10, ∃ s, pointed n = UInt8.ofNat (48 + d) :: s := by
  obtain ⟨d, ds, hds⟩ := List.exists_cons_of_ne_nil (numeral_ne_nil (n / 10 ^ 6))
  have hd : d ∈ numeral (n / 10 ^ 6) := hds ▸ List.mem_cons_self
  refine ⟨d, lt_of_mem_numeral hd, digits ds ++ 46 :: digits (fixedNumeral 6 n), ?_⟩
  rw [pointed, hds]
  rfl

theorem scanMagnitude_pointed (n : ℕ) :
    scanMagnitude 10 10 101 (pointed n) = some ((n : ℚ) / 10 ^ 6) := by
  have hpoint : ∀ b ∈ (46 :: digits (fixedNumeral 6 n)).head?, digitValue 10 b = none := by
    rintro b hb
    obtain rfl := Option.some.inj hb
    decide
  have hwhole := scanDigits_digits (fun _ => lt_of_mem_numeral (n := n / 10 ^ 6)) hpoint
  have hfraction := scanDigits_digits (fun _ => lt_of_mem_fixedNumeral (k := 6) (n := n))
    (s := []) nofun
  rw [List.append_nil] at hfraction
  have hvalue : numeralValue 10 (numeral (n / 10 ^ 6) ++ fixedNumeral 6 n) = n := by
    rw [numeralValue_append, numeralValue_numeral, numeralValue_fixedNumeral, length_fixedNumeral]
    exact Nat.div_add_mod' n (10 ^ 6)
  rw [scanMagnitude, pointed, hwhole]
  simp only [scanFraction, if_true, hfraction]
  rw [if_neg fun h => numeral_ne_nil _ h.1, hvalue, length_fixedNumeral]
  norm_num

/-- A signed numeral is converted to its value. -/
theorem scanFloat_signed (negative : Bool) (n : ℕ) :
    scanFloat ((if negative then [45] else []) ++ pointed n) =
      some (.ofRat (if negative then -((n : ℚ) / 10 ^ 6) else (n : ℚ) / 10 ^ 6)) := by
  have hsign : scanSign (((if negative then [45] else []) ++ pointed n).dropWhile isspace) =
      (negative, pointed n) := by
    obtain ⟨d, hd, s, hcons⟩ := pointed_eq_cons n
    have hall : ∀ d < 10, isspace (UInt8.ofNat (48 + d)) = false ∧ UInt8.ofNat (48 + d) ≠ 45 ∧
        UInt8.ofNat (48 + d) ≠ 43 := by decide
    obtain ⟨hspace, hminus, hplus⟩ := hall d hd
    generalize UInt8.ofNat (48 + d) = b at *
    have hspace' : isspace 45 = false := by decide
    rw [hcons]
    cases negative with
    | true => simp [hspace', scanSign]
    | false => simp [hspace, scanSign, hminus, hplus]
  have hplain : ∀ b ∈ pointed n, tolower b = b ∧ b ≠ 120 ∧ b ≠ 110 ∧ b ≠ 105 := by
    have hall : ∀ k < 12, tolower (UInt8.ofNat (46 + k)) = UInt8.ofNat (46 + k) ∧
        UInt8.ofNat (46 + k) ≠ 120 ∧ UInt8.ofNat (46 + k) ≠ 110 ∧ UInt8.ofNat (46 + k) ≠ 105 := by
      decide
    intro b hb
    obtain ⟨k, hk, rfl⟩ := mem_pointed hb
    exact hall k hk
  have hlower : (pointed n).map tolower = pointed n := by
    conv_rhs => rw [← List.map_id (pointed n)]
    exact List.map_congr_left fun b hb => (hplain b hb).1
  -- none of the three words that are not decimal numbers starts here
  have hletter {c : Char} (hc : ∀ b ∈ pointed n, b ≠ UInt8.ofNat c.toNat) :
      (pointed n).take 1 ≠ ascii [c] := by
    intro h
    have hmem : UInt8.ofNat c.toNat ∈ (pointed n).take 1 := by
      rw [h]
      exact List.mem_singleton_self _
    exact hc _ (List.mem_of_mem_take hmem) rfl
  have hhex : (pointed n).take 2 ≠ ascii ['0', 'x'] := by
    intro h
    have hmem : (120 : UInt8) ∈ (pointed n).take 2 := by
      rw [h]
      decide
    exact (hplain 120 (List.mem_of_mem_take hmem)).2.1 rfl
  rw [scanFloat, hsign]
  simp only [hlower]
  have hn : (pointed n).take 1 ≠ ascii ['n'] := hletter fun b hb => (hplain b hb).2.2.1
  have hi : (pointed n).take 1 ≠ ascii ['i'] := hletter fun b hb => (hplain b hb).2.2.2
  rw [if_neg hn, if_neg hi, if_neg hhex, scanMagnitude_pointed]
  rfl

theorem printFloat_finite (q : ℚ) : printFloat (.finite q) =
    (if decide (q < 0) then [45] else []) ++ pointed (roundEven (|q| * 10 ^ 6)).toNat := by
  simp [printFloat, pointed]

/-- A multiple of a millionth is printed exactly. -/
theorem scanFloat_printFloat {q : ℚ} (h : Millionths (.finite q)) :
    scanFloat (printFloat (.finite q)) = some (.ofRat q) := by
  obtain ⟨n, hn⟩ := h
  have habs : |q| * 10 ^ 6 = (|n| : ℤ) := by
    rw [Int.cast_abs, ← hn, abs_mul, abs_of_pos (by norm_num : (0 : ℚ) < 10 ^ 6)]
  have hmagnitude : (((roundEven (|q| * 10 ^ 6)).toNat : ℕ) : ℚ) / 10 ^ 6 = |q| := by
    rw [habs, roundEven_intCast, div_eq_iff (by norm_num), habs]
    exact_mod_cast Int.toNat_of_nonneg (abs_nonneg n)
  rw [printFloat_finite, scanFloat_signed, hmagnitude]
  congr 2
  by_cases hneg : q < 0
  · rw [if_pos (decide_eq_true hneg), abs_of_neg hneg, neg_neg]
  · rw [if_neg (by simpa using hneg), abs_of_nonneg (not_lt.mp hneg)]

end CLanguage.Gradebook
