import CLanguage.Audio.Options
import CLanguage.Lib.Outcome

/-!
# Checking the command line

`validargs` looks at the second character of every flag and sets bits of the
options word. Of an accepted command line the lemmas say which mode was selected,
and that there are two or four words unless `-p` was given
(`validargs_accepted`). Signed arithmetic wraps at 32 bits.
-/

namespace CLanguage.Audio

open Lib

/-- `strToInt` -/
def strToInt (str : List UInt8) : Int32 :=
  str.foldl (fun res c => res * 10 + c.toInt8.toInt32 - 48) 0

/-- The loop of `strToHex`. -/
def strToHexFrom : UInt32 → List UInt8 → UInt32
  | result, [] => result
  | result, c :: str =>
    let result := result <<< 4
    if 48 ≤ c ∧ c ≤ 57 then strToHexFrom (result ||| (c - 48).toUInt32) str
    else if 65 ≤ c ∧ c ≤ 70 then strToHexFrom (result ||| ((c - 65).toUInt32 + 10)) str
    else if 97 ≤ c ∧ c ≤ 102 then strToHexFrom (result ||| ((c - 97).toUInt32 + 10)) str
    else result

/-- `strToHex` -/
def strToHex (str : List UInt8) : UInt32 := strToHexFrom 0 str

/-- The loop over the characters of a key: the value of `counter` behind it, `none` for a character
that is no hexadecimal digit. -/
def keyCounter : Int32 → List UInt8 → Option Int32
  | counter, [] => some counter
  | counter, c :: str =>
    -- the loop ends where the counter overflows
    if counter < 0 then some counter
    else if (48 ≤ c ∧ c ≤ 57) ∨ (65 ≤ c ∧ c ≤ 70) ∨ (97 ≤ c ∧ c ≤ 102) then
      keyCounter (counter + 1) str
    else none

/-- `global_options |= 1UL << bit` -/
def setOption (globalOptions bit : UInt64) : UInt64 := globalOptions ||| (1 : UInt64) <<< bit

/-- `global_options |= (ret - 1) << 48` -/
def setFactor (globalOptions : UInt64) (ret : Int32) : UInt64 :=
  globalOptions ||| (ret - 1).toInt64.toUInt64 <<< 48

/-- `global_options |= strToHex(str)` -/
def setKey (globalOptions : UInt64) (str : List UInt8) : UInt64 :=
  globalOptions ||| (strToHex str).toUInt64

/-- The branch of `validargs` for a mode with a factor; those of `-u` and of `-d` differ in the bit
that is set before. -/
def validFactor (globalOptions : UInt64) (argv : List (List UInt8)) :
    Except Fault (Int32 × UInt64) :=
  if argv.length > 2 then do
    let t ← argumentChar argv 2 1
    if t = 102 then
      if argv.length > 3 then
        let fac ← argumentChar argv 3 0
        if fac = 45 then .ok (0, globalOptions)
        else
          let str ← argument argv 3
          let ret := strToInt str
          if 1 ≤ ret ∧ ret ≤ 1024 then
            let globalOptions := setFactor globalOptions ret
            if argv.length = 5 then
              let t ← argumentChar argv 4 1
              if t = 112 then .ok (1, setOption globalOptions 59) else .ok (0, globalOptions)
            else if argv.length > 5 then .ok (0, globalOptions)
            else .ok (1, globalOptions)
          else .ok (0, globalOptions)
      else .ok (0, globalOptions)
    else if t = 112 then
      let globalOptions := setOption globalOptions 59
      if argv.length > 3 ∧ argv.length = 5 then
        let t ← argumentChar argv 3 1
        if t = 102 then
          let str ← argument argv 4
          let ret := strToInt str
          if 1 ≤ ret ∧ ret ≤ 1024 then .ok (1, setFactor globalOptions ret)
          else .ok (0, globalOptions)
        else .ok (0, globalOptions)
      else if argv.length = 3 then .ok (1, globalOptions)
      else .ok (0, globalOptions)
    else .ok (0, globalOptions)
  else .ok (1, globalOptions)

/-- The branch of `validargs` for `-c`. -/
def validKey (globalOptions : UInt64) (argv : List (List UInt8)) :
    Except Fault (Int32 × UInt64) :=
  if argv.length > 2 then do
    let t ← argumentChar argv 2 1
    if t = 107 ∧ argv.length ≥ 4 then
      let str ← argument argv 3
      match keyCounter 0 str with
      | none => .ok (0, globalOptions)
      | some counter =>
        if counter ≤ 8 then
          let globalOptions := setKey globalOptions str
          if argv.length = 5 then
            let t ← argumentChar argv 4 1
            if t = 112 then .ok (1, setOption globalOptions 59) else .ok (0, globalOptions)
          else if argv.length > 4 then .ok (0, globalOptions)
          else .ok (1, globalOptions)
        else .ok (0, globalOptions)
    else if t = 112 then
      let globalOptions := setOption globalOptions 59
      if argv.length = 5 then
        let t ← argumentChar argv 3 1
        if t = 107 then
          -- the digits are looked for in the flag, not in the key behind it
          let flag ← argument argv 3
          match keyCounter 0 flag with
          | none => .ok (0, globalOptions)
          | some counter =>
            if counter ≤ 8 then
              let str ← argument argv 4
              .ok (1, setKey globalOptions str)
            else .ok (0, globalOptions)
        else .ok (0, globalOptions)
      else .ok (0, globalOptions)
    else .ok (0, globalOptions)
  else .ok (1, globalOptions)

/-- `validargs`: the return value and the options word. -/
def validargs (globalOptions : UInt64) (argv : List (List UInt8)) :
    Except Fault (Int32 × UInt64) :=
  if argv.length = 1 then .ok (0, globalOptions)
  else if argv.length > 1 then do
    let t ← argumentChar argv 1 1
    if t = 104 then .ok (1, setOption globalOptions 63)
    else if t = 117 then validFactor (setOption globalOptions 62) argv
    else if t = 100 then validFactor (setOption globalOptions 61) argv
    else if t = 99 then validKey (setOption globalOptions 60) argv
    else .ok (0, globalOptions)
  else .ok (0, globalOptions)

/-- The options with which `main` calls `recode`: the word starts as 0, and under `-h` the usage is
printed instead. -/
def Recodes (argv : List (List UInt8)) (options : UInt64) : Prop :=
  validargs 0 argv = .ok (1, options) ∧ ¬ hasOption options 63

instance (argv : List (List UInt8)) (options : UInt64) : Decidable (Recodes argv options) :=
  instDecidableAnd

/-! ## The bits of the modes -/

variable {argv : List (List UInt8)} {globalOptions options options' : UInt64}

theorem hasOption_or (options options' bit : UInt64) :
    hasOption (options ||| options') bit ↔ hasOption options bit ∨ hasOption options' bit := by
  have hdistrib : (options ||| options') &&& (1 : UInt64) <<< bit =
      (options &&& (1 : UInt64) <<< bit) ||| (options' &&& (1 : UInt64) <<< bit) := by
    apply UInt64.toBitVec_inj.mp
    exact BitVec.and_or_distrib_right
  rw [hasOption, hasOption, hasOption, hdistrib, Ne, UInt64.or_eq_zero_iff]
  exact Decidable.not_and_iff_not_or_not

/-- The words agree on the bits of the modes and of `-h`. -/
def SameMode (options options' : UInt64) : Prop :=
  ∀ bit ∈ [60, 61, 62, 63], hasOption options bit ↔ hasOption options' bit

theorem SameMode.refl (options : UInt64) : SameMode options options := fun _ _ => Iff.rfl

theorem SameMode.trans {options'' : UInt64} (h : SameMode options options')
    (h' : SameMode options' options'') : SameMode options options'' :=
  fun bit hbit => (h bit hbit).trans (h' bit hbit)

/-- What is below bit 60 selects no mode. -/
theorem sameMode_or (options : UInt64) {low : UInt64} (h : low.toNat < 2 ^ 60) :
    SameMode (options ||| low) options := by
  intro bit hbit
  have hbits : ∃ b : ℕ, 60 ≤ b ∧ b < 64 ∧ bit = UInt64.ofNat b := by
    refine ⟨bit.toNat, ?_, ?_, (UInt64.ofNat_toNat).symm⟩ <;>
      (simp only [List.mem_cons, List.not_mem_nil, or_false] at hbit
       rcases hbit with rfl | rfl | rfl | rfl <;> decide)
  obtain ⟨b, hb, hb', rfl⟩ := hbits
  rw [hasOption_or]
  constructor
  · rintro (h' | h')
    · exact h'
    · rw [hasOption_iff low hb', Nat.testBit_lt_two_pow] at h'
      · exact absurd h' nofun
      · exact Nat.lt_of_lt_of_le h (Nat.pow_le_pow_right (by decide) hb)
  · exact .inl

theorem sameMode_preserve (options : UInt64) : SameMode (setOption options 59) options :=
  sameMode_or options (by decide)

private theorem factor_low : ∀ n < 1024,
    ((Int32.ofNat (n + 1) - 1).toInt64.toUInt64 <<< 48).toNat < 2 ^ 60 := by
  decide +kernel

theorem sameMode_setFactor (options : UInt64) {ret : Int32} (h : 1 ≤ ret ∧ ret ≤ 1024) :
    SameMode (setFactor options ret) options := by
  apply sameMode_or
  have hlow : 1 ≤ ret.toInt := Int32.le_iff_toInt_le.mp h.1
  have hhigh : ret.toInt ≤ 1024 := Int32.le_iff_toInt_le.mp h.2
  obtain ⟨n, hn⟩ : ∃ n : ℕ, ret.toInt = n + 1 := ⟨(ret.toInt - 1).toNat, by omega⟩
  have hret : ret = Int32.ofNat (n + 1) := by
    apply Int32.toInt_inj.mp
    rw [hn, Int32.toInt_ofNat_of_lt (by omega)]
    rfl
  rw [hret]
  exact factor_low n (by omega)

theorem sameMode_setKey (options : UInt64) (str : List UInt8) :
    SameMode (setKey options str) options := by
  apply sameMode_or
  rw [UInt32.toNat_toUInt64]
  exact Nat.lt_of_lt_of_le (strToHex str).toNat_lt (by decide)

theorem hasOption_preserve (options : UInt64) : hasOption (setOption options 59) 59 :=
  (hasOption_or _ _ _).mpr (.inr (by decide))

/-! ## The accepted command lines -/

/-- The flags that select a mode. -/
inductive Flag
  | speedup
  | slowdown
  | crypt
  deriving DecidableEq

/-- The bit of the mode in the options word. -/
def Flag.bit : Flag → UInt64
  | speedup => 62
  | slowdown => 61
  | crypt => 60

/-- The character that follows the dash. -/
def Flag.letter : Flag → UInt8
  | speedup => 117
  | slowdown => 100
  | crypt => 99

/-- The character of the flag for the mode's factor or key. -/
def Flag.parameter : Flag → UInt8
  | speedup => 102
  | slowdown => 102
  | crypt => 107

/-- The mode of the flag is the one that the options word has. -/
def Flag.Selected (flag : Flag) (options : UInt64) : Prop :=
  ∀ flag' : Flag, hasOption options flag'.bit ↔ flag' = flag

theorem Flag.selected_of_sameMode {flag : Flag} (h : SameMode options (setOption 0 flag.bit)) :
    flag.Selected options := by
  intro flag'
  have hbit : flag'.bit ∈ [(60 : UInt64), 61, 62, 63] := by
    cases flag' <;> decide
  rw [h _ hbit]
  cases flag <;> cases flag' <;> decide

/-- Without `-p` the parameter is absent or has the letter expected in front of it. -/
def ParameterGiven (argv : List (List UInt8)) (options : UInt64) (parameter : UInt8) : Prop :=
  hasOption options 59 ∨ argv.length ≤ 2 ∨
    argv.length = 4 ∧ argumentChar argv 2 1 = .ok parameter

/-- What a branch of `validargs` ensures if it returns 1. -/
def Selects (argv : List (List UInt8)) (globalOptions : UInt64) (parameter : UInt8)
    (x : Except Fault (Int32 × UInt64)) : Prop :=
  Ensures (fun _ => True)
    (fun r => r.1 = 1 → SameMode r.2 globalOptions ∧ ParameterGiven argv r.2 parameter) x

section Selects

variable {parameter : UInt8}

theorem Selects.refused (options : UInt64) :
    Selects argv globalOptions parameter (.ok (0, options)) :=
  .ok fun h => absurd h (show (0 : Int32) ≠ 1 by decide)

theorem Selects.accepted (hmode : SameMode options globalOptions)
    (hgiven : ParameterGiven argv options parameter) :
    Selects argv globalOptions parameter (.ok (1, options)) :=
  .ok fun _ => ⟨hmode, hgiven⟩

theorem Selects.bind {α : Type} {x : Except Fault α} {f : α → Except Fault (Int32 × UInt64)}
    (hf : ∀ a, x = .ok a → Selects argv globalOptions parameter (f a)) :
    Selects argv globalOptions parameter (x >>= f) :=
  Ensures.bind_of_eq (fun _ => trivial) hf

end Selects

theorem selects_validFactor (globalOptions : UInt64) (argv : List (List UInt8)) :
    Selects argv globalOptions 102 (validFactor globalOptions argv) := by
  refine Ensures.ite (fun _ => ?_) fun hargc => ?_
  · refine Selects.bind fun t ht => Ensures.ite (fun hfactor => ?_) fun _ => ?_
    · -- the factor first
      refine Ensures.ite (fun hmore => ?_) fun _ => Selects.refused _
      refine Selects.bind fun fac _ => Ensures.ite (fun _ => Selects.refused _) fun _ => ?_
      refine Selects.bind fun str _ => Ensures.ite (fun hret => ?_) fun _ => Selects.refused _
      have hmode := sameMode_setFactor globalOptions hret
      refine Ensures.ite (fun _ => ?_) fun hfive => ?_
      · refine Selects.bind fun t' _ => Ensures.ite (fun _ => ?_) fun _ => Selects.refused _
        exact Selects.accepted ((sameMode_preserve _).trans hmode) (.inl (hasOption_preserve _))
      · refine Ensures.ite (fun _ => Selects.refused _) fun hmany => ?_
        exact Selects.accepted hmode (.inr (.inr ⟨by omega, hfactor ▸ ht⟩))
    · -- `-p` first
      refine Ensures.ite (fun _ => ?_) fun _ => Selects.refused _
      refine Ensures.ite (fun _ => ?_) fun _ => ?_
      · refine Selects.bind fun t' _ => Ensures.ite (fun _ => ?_) fun _ => Selects.refused _
        refine Selects.bind fun str _ => Ensures.ite (fun hret => ?_) fun _ => Selects.refused _
        exact Selects.accepted ((sameMode_setFactor _ hret).trans (sameMode_preserve _))
          (.inl ((hasOption_or _ _ _).mpr (.inl (hasOption_preserve _))))
      · refine Ensures.ite (fun _ => ?_) fun _ => Selects.refused _
        exact Selects.accepted (sameMode_preserve _) (.inl (hasOption_preserve _))
  · -- the mode alone
    exact Selects.accepted (.refl _) (.inr (.inl (Nat.not_lt.mp hargc)))

theorem selects_validKey (globalOptions : UInt64) (argv : List (List UInt8)) :
    Selects argv globalOptions 107 (validKey globalOptions argv) := by
  refine Ensures.ite (fun _ => ?_) fun hargc => ?_
  · refine Selects.bind fun t ht => Ensures.ite (fun hkey => ?_) fun _ => ?_
    · -- the key first
      refine Selects.bind fun str _ => ?_
      split
      · exact Selects.refused _
      refine Ensures.ite (fun _ => ?_) fun _ => Selects.refused _
      have hmode := sameMode_setKey globalOptions str
      refine Ensures.ite (fun _ => ?_) fun _ => ?_
      · refine Selects.bind fun t' _ => Ensures.ite (fun _ => ?_) fun _ => Selects.refused _
        exact Selects.accepted ((sameMode_preserve _).trans hmode) (.inl (hasOption_preserve _))
      · refine Ensures.ite (fun _ => Selects.refused _) fun hmany => ?_
        exact Selects.accepted hmode (.inr (.inr ⟨by omega, hkey.1 ▸ ht⟩))
    · -- `-p` first
      refine Ensures.ite (fun _ => ?_) fun _ => Selects.refused _
      refine Ensures.ite (fun _ => ?_) fun _ => Selects.refused _
      refine Selects.bind fun t' _ => Ensures.ite (fun _ => ?_) fun _ => Selects.refused _
      refine Selects.bind fun flag _ => ?_
      split
      · exact Selects.refused _
      refine Ensures.ite (fun _ => ?_) fun _ => Selects.refused _
      refine Selects.bind fun str _ => ?_
      exact Selects.accepted ((sameMode_setKey _ _).trans (sameMode_preserve _))
        (.inl ((hasOption_or _ _ _).mpr (.inl (hasOption_preserve _))))
  · exact Selects.accepted (.refl _) (.inr (.inl (Nat.not_lt.mp hargc)))

/-- An accepted command line selects one mode by its first flag. -/
theorem validargs_accepted (h : Recodes argv options) :
    ∃ flag : Flag, flag.Selected options ∧ 2 ≤ argv.length ∧
      argumentChar argv 1 1 = .ok flag.letter ∧ ParameterGiven argv options flag.parameter := by
  have hselects : Ensures (fun _ => True) (fun r : Int32 × UInt64 =>
      r.1 = 1 → ¬ hasOption r.2 63 → ∃ flag : Flag, flag.Selected r.2 ∧ 2 ≤ argv.length ∧
        argumentChar argv 1 1 = .ok flag.letter ∧ ParameterGiven argv r.2 flag.parameter)
      (validargs 0 argv) := by
    -- whatever is refused returns 0
    have hrefused (g : UInt64) {P : Int32 × UInt64 → Prop} :
        Ensures (fun _ : Fault => True) (fun r => r.1 = 1 → P r) (.ok ((0 : Int32), g)) :=
      .ok fun h => absurd h (show (0 : Int32) ≠ 1 by decide)
    refine Ensures.ite (fun _ => hrefused _) fun _ => ?_
    refine Ensures.ite (fun hargc => ?_) fun _ => hrefused _
    refine Ensures.bind_of_eq (fun _ => trivial) fun t ht => ?_
    refine Ensures.ite (fun _ => .ok fun _ hhelp => absurd (by decide) hhelp) fun _ => ?_
    -- the mode is that of the first flag, in the order in which the source looks for it
    refine Ensures.ite (fun hu => ?_) fun _ => ?_
    · refine (selects_validFactor _ argv).mono fun r hr hone _ => ?_
      obtain ⟨hmode, hgiven⟩ := hr hone
      exact ⟨.speedup, Flag.selected_of_sameMode hmode, hargc, ht.trans (congrArg Except.ok hu),
        hgiven⟩
    refine Ensures.ite (fun hd => ?_) fun _ => ?_
    · refine (selects_validFactor _ argv).mono fun r hr hone _ => ?_
      obtain ⟨hmode, hgiven⟩ := hr hone
      exact ⟨.slowdown, Flag.selected_of_sameMode hmode, hargc, ht.trans (congrArg Except.ok hd),
        hgiven⟩
    refine Ensures.ite (fun hc => ?_) fun _ => hrefused _
    refine (selects_validKey _ argv).mono fun r hr hone _ => ?_
    obtain ⟨hmode, hgiven⟩ := hr hone
    exact ⟨.crypt, Flag.selected_of_sameMode hmode, hargc, ht.trans (congrArg Except.ok hc), hgiven⟩
  exact hselects.of_ok h.1 rfl h.2

end CLanguage.Audio
