import CLanguage.Lib.BitSums
import CLanguage.Imprimer.Effects
import Mathlib.Data.Nat.Bitwise

/-!
# The printers that a job is for

`print` adds the powers of two of the printers that it is given, so that the set of the
job is that of the printers named exactly if no printer is named twice
(`print_names_iff`). A printer that is named twice drops out and the one behind it
comes in, which need not even exist.
-/

namespace CLanguage.Imprimer

open CLanguage.Lib

variable {s : Tables} {printers : List Printer} {names : List Str} {file name : Str} {i : ℕ}
  {p : Printer}

/-- A table of printers with distinct names. The `printer` command numbers them by their places. -/
structure PrinterTable (printers : List Printer) : Prop where
  room : printers.length ≤ maxPrinters
  id : ∀ (k : ℕ) (p : Printer), printers[k]? = some p → p.id = k
  names : (printers.map Printer.name).Nodup

/-- The printer with the id is one of those that are named. -/
def Tables.Names (s : Tables) (names : List Str) (i : ℕ) : Prop :=
  ∃ p ∈ s.printers, p.id = i ∧ p.name ∈ names

/-- `print` queues a job for the file, if it does for the printers. -/
def Tables.Accepts (s : Tables) (file : Str) : Prop :=
  file.length < 100 ∧ (∃ type ∈ s.types, Tables.fileType s.types file = .ok type) ∧
    s.jobs.length < maxJobs

/-- `print` makes a job for the printers that are named and for no others. -/
def Tables.PrintsOn (s : Tables) (file : Str) (names : List Str) : Prop :=
  ∃ (s' : Tables) (j : Job), s.print file names = .ok (s', .fallThrough) ∧
    s'.jobs = s.jobs ++ [j] ∧
    ∀ i < maxPrinters, j.eligiblePrinters &&& Tables.bit i ≠ 0 ↔ s.Names names i

/-! ### The ids of the names -/

/-- The id of the first printer of a name. -/
def idOf (printers : List Printer) (name : Str) : Option ℕ :=
  (printers.find? (·.name = name)).map Printer.id

theorem name_of_find (h : printers.find? (·.name = name) = some p) :
    p ∈ printers ∧ p.name = name :=
  ⟨List.mem_of_find?_eq_some h, by simpa using List.find?_some h⟩

theorem exists_find (hp : p ∈ printers) : ∃ q, printers.find? (·.name = p.name) = some q :=
  Option.isSome_iff_exists.mp (List.find?_isSome.mpr ⟨p, hp, by simp⟩)

theorem PrinterTable.idOf_eq_some (table : PrinterTable printers) :
    idOf printers name = some i ↔ ∃ p ∈ printers, p.id = i ∧ p.name = name := by
  rw [idOf, Option.map_eq_some_iff]
  constructor
  · rintro ⟨p, hfind, hid⟩
    exact ⟨p, (name_of_find hfind).1, hid, (name_of_find hfind).2⟩
  · rintro ⟨p, hp, hid, rfl⟩
    obtain ⟨q, hfind⟩ := exists_find hp
    obtain ⟨hq, hname⟩ := name_of_find hfind
    -- there is no second printer of the name
    obtain rfl := List.inj_on_of_nodup_map table.names hq hp hname
    exact ⟨q, hfind, hid⟩

theorem PrinterTable.eq_of_id (table : PrinterTable printers) {q : Printer} (hp : p ∈ printers)
    (hq : q ∈ printers) (h : p.id = q.id) : p = q := by
  obtain ⟨k, hk⟩ := List.mem_iff_getElem?.mp hp
  obtain ⟨l, hl⟩ := List.mem_iff_getElem?.mp hq
  rw [table.id k p hk, table.id l q hl] at h
  subst h
  exact Option.some.inj (hk.symm.trans hl)

theorem PrinterTable.id_lt (table : PrinterTable printers) (hp : p ∈ printers) :
    p.id < maxPrinters := by
  obtain ⟨k, hk⟩ := List.mem_iff_getElem?.mp hp
  rw [table.id k p hk]
  exact (List.getElem?_eq_some_iff.mp hk).1.trans_le table.room

/-- The ids of the names that are those of printers. -/
def namedIds (printers : List Printer) (names : List Str) : List ℕ :=
  names.filterMap (idOf printers)

theorem PrinterTable.mem_namedIds (table : PrinterTable s.printers) :
    i ∈ namedIds s.printers names ↔ s.Names names i := by
  simp only [namedIds, List.mem_filterMap, table.idOf_eq_some, Tables.Names]
  constructor
  · rintro ⟨name, hname, p, hp, hid, rfl⟩
    exact ⟨p, hp, hid, hname⟩
  · rintro ⟨p, hp, hid, hname⟩
    exact ⟨p.name, hname, p, hp, hid, rfl⟩

theorem PrinterTable.namedIds_nodup (table : PrinterTable printers) (nodup : names.Nodup) :
    (namedIds printers names).Nodup := by
  refine nodup.filterMap fun a b i ha hb => ?_
  obtain ⟨p, hp, hid, rfl⟩ := table.idOf_eq_some.mp ha
  obtain ⟨q, hq, hid', rfl⟩ := table.idOf_eq_some.mp hb
  rw [table.eq_of_id hp hq (hid.trans hid'.symm)]

theorem exists_idOf (h : name ∈ printers.map Printer.name) : ∃ i, idOf printers name = some i := by
  obtain ⟨p, hp, rfl⟩ := List.mem_map.mp h
  obtain ⟨q, hfind⟩ := exists_find hp
  refine ⟨q.id, ?_⟩
  rw [idOf, hfind]
  rfl

/-- A name that is repeated repeats its id. -/
theorem nodup_of_namedIds (declared : ∀ name ∈ names, name ∈ printers.map Printer.name)
    (nodup : (namedIds printers names).Nodup) : names.Nodup := by
  rw [List.nodup_iff_sublist]
  intro name hsub
  obtain ⟨i, hi⟩ := exists_idOf (declared name (hsub.subset List.mem_cons_self))
  have hids : [i, i].Sublist (namedIds printers names) := by
    have h := hsub.filterMap (idOf printers)
    rwa [List.filterMap_cons_some hi, List.filterMap_cons_some hi] at h
  exact List.nodup_iff_sublist.mp nodup i hids

theorem length_namedIds (declared : ∀ name ∈ names, name ∈ printers.map Printer.name) :
    (namedIds printers names).length = names.length := by
  induction names with
  | nil => rfl
  | cons name names ih =>
    obtain ⟨hname, hnames⟩ := List.forall_mem_cons.mp declared
    obtain ⟨i, hi⟩ := exists_idOf hname
    have hrest := ih hnames
    rw [namedIds] at hrest ⊢
    rw [List.filterMap_cons_some hi, List.length_cons, List.length_cons, hrest]

/-! ### The set -/

/-- The loop of `print` over the names. -/
theorem printerSet_eq (names : List Str) (temp count : ℕ) (h : temp < 2 ^ 32) :
    Tables.printerSet printers names temp count =
      if temp + bitSum (namedIds printers names) < 2 ^ 32 then
        .ok (temp + bitSum (namedIds printers names), count + (namedIds printers names).length)
      else .error .printerSet := by
  induction names generalizing temp count with
  | nil => exact (if_pos h).symm
  | cons name names ih =>
    rw [Tables.printerSet, namedIds, List.filterMap_cons, idOf]
    cases hfind : printers.find? (·.name = name) with
    | none => exact ih temp count h
    | some p =>
      simp only [Option.map_some, bitSum_cons, List.length_cons]
      by_cases hbit : temp + 2 ^ p.id < 2 ^ 32
      · rw [if_pos hbit, ih _ _ hbit, namedIds, Nat.add_assoc temp, Nat.add_assoc count,
          Nat.add_comm 1]
      · rw [if_neg hbit, if_neg (by omega)]

/-- Whether a bit of a word is set. -/
theorem and_bit_ne_zero {x : UInt32} (h : i < 32) :
    x &&& Tables.bit i ≠ 0 ↔ x.toNat.testBit i = true := by
  have hbit : (Tables.bit i).toNat = 2 ^ i :=
    UInt32.toNat_ofNat_of_lt' (Nat.pow_lt_pow_right (by decide) h)
  rw [ne_eq, ← UInt32.toNat_inj, UInt32.toNat_and, hbit, Nat.and_comm, Nat.two_pow_and]
  cases x.toNat.testBit i with
  | false => simp
  | true => simp

/-- The set of a job for printers that all exist. -/
theorem eligible_eq (h : names ≠ [])
    (declared : ∀ name ∈ names, name ∈ s.printers.map Printer.name) :
    s.eligible names = if bitSum (namedIds s.printers names) < 2 ^ 32 then
      .ok (some (UInt32.ofNat (bitSum (namedIds s.printers names)))) else .error .printerSet := by
  cases names with
  | nil => exact absurd rfl h
  | cons name names =>
    rw [Tables.eligible, printerSet_eq _ 0 0 (Nat.two_pow_pos 32), Nat.zero_add, Nat.zero_add,
      length_namedIds declared]
    · split
      · exact congrArg (fun set => Except.ok set) (if_pos rfl)
      · rfl
    · exact List.cons_ne_nil _ _

/-- The job that is made once the set is there. -/
theorem print_of_eligible {set : UInt32} (accepts : s.Accepts file)
    (h : s.eligible names = .ok (some set)) : ∃ (s' : Tables) (j : Job),
      s.print file names = .ok (s', .fallThrough) ∧ s'.jobs = s.jobs ++ [j] ∧
      j.eligiblePrinters = set := by
  obtain ⟨hshort, ⟨type, htype, hfile⟩, hroom⟩ := accepts
  let j : Job := ⟨s.jobs.length, .queued, file, type, set, none⟩
  refine ⟨{ s with jobs := s.jobs ++ [j] }, j, ?_, rfl, rfl⟩
  rw [Tables.print, h]
  change (strcpy file >>= _) = _
  rw [strcpy, if_pos hshort]
  change (Tables.fileType s.types file >>= _) = _
  rw [hfile]
  change (if type ∈ s.types then push maxJobs .jobs s.jobs _ >>= _ else _) = _
  rw [if_pos htype, push, if_pos hroom]
  rfl

/-- The job that `print` makes for printers that exist is one for just these printers, exactly if no
printer is named twice. -/
theorem print_names_iff (table : PrinterTable s.printers) (accepts : s.Accepts file)
    (named : names ≠ []) (declared : ∀ name ∈ names, name ∈ s.printers.map Printer.name) :
    s.PrintsOn file names ↔ names.Nodup := by
  have hset := eligible_eq named declared
  have hlt : ∀ i ∈ namedIds s.printers names, i < 32 := by
    intro i hi
    obtain ⟨p, hp, rfl, -⟩ := table.mem_namedIds.mp hi
    exact table.id_lt hp
  have hword : ∀ {n : ℕ}, n < 2 ^ 32 → (UInt32.ofNat n).toNat = n :=
    fun h => UInt32.toNat_ofNat_of_lt' h
  constructor
  · rintro ⟨s', j, hprint, hjobs, hbits⟩
    by_cases hsum : bitSum (namedIds s.printers names) < 2 ^ 32
    · rw [if_pos hsum] at hset
      obtain ⟨s₁, j₁, hprint₁, hjobs₁, hset₁⟩ := print_of_eligible accepts hset
      obtain rfl : s₁ = s' := (Prod.mk.inj (Except.ok.inj (hprint₁.symm.trans hprint))).1
      obtain rfl : j₁ = j := by
        rw [hjobs₁] at hjobs
        simpa using hjobs
      -- the bits of the sum are the ids of the names
      refine nodup_of_namedIds declared (testBit_bitSum_iff.mp fun i => ?_)
      by_cases hi : i < 32
      · rw [table.mem_namedIds, ← hbits i hi, and_bit_ne_zero hi, hset₁, hword hsum]
      · have hpow : 2 ^ 32 ≤ 2 ^ i := Nat.pow_le_pow_right (by decide) (Nat.le_of_not_lt hi)
        rw [Nat.testBit_lt_two_pow (hsum.trans_le hpow)]
        exact ⟨nofun, fun hmem => absurd (hlt i hmem) hi⟩
    · rw [if_neg hsum] at hset
      rw [Tables.print, hset] at hprint
      exact absurd hprint nofun
  · intro nodup
    have hids := table.namedIds_nodup nodup
    have hsum := bitSum_lt hids hlt
    rw [if_pos hsum] at hset
    obtain ⟨s', j, hprint, hjobs, hset'⟩ := print_of_eligible accepts hset
    refine ⟨s', j, hprint, hjobs, fun i hi => ?_⟩
    rw [and_bit_ne_zero hi, hset', hword hsum, testBit_bitSum hids, table.mem_namedIds]

/-- Two printers, the first of which can print what the file is. -/
def twoPrinters : Tables where
  types := [['p', 's']]
  conversions := []
  printers := [⟨0, ['a'], ['p', 's'], true, false⟩, ⟨1, ['b'], ['p', 's'], true, false⟩]
  jobs := []

theorem twoPrinters_table : PrinterTable twoPrinters.printers := by
  refine ⟨by decide, fun k p h => ?_, by decide⟩
  match k with
  | 0 | 1 =>
    cases h
    rfl
  | _ + 2 => exact absurd h nofun

theorem twoPrinters_accepts : twoPrinters.Accepts ['f', '.', 'p', 's'] :=
  ⟨by decide, ⟨['p', 's'], by decide, by decide_cbv⟩, by decide⟩

theorem print_names_iff_example :
    twoPrinters.PrintsOn ['f', '.', 'p', 's'] [['b'], ['a']] ↔ [['b'], ['a']].Nodup :=
  print_names_iff twoPrinters_table twoPrinters_accepts (by decide) (by decide)

/-- The printer that is named twice is not eligible, and the other one is. -/
theorem named_twice : ∃ (s' : Tables) (j : Job),
    twoPrinters.print ['f', '.', 'p', 's'] [['a'], ['a']] = .ok (s', .fallThrough) ∧
      s'.jobs = [j] ∧ j.eligiblePrinters &&& Tables.bit 0 = 0 ∧
      j.eligiblePrinters &&& Tables.bit 1 ≠ 0 ∧ twoPrinters.Names [['a'], ['a']] 0 ∧
      ¬ twoPrinters.Names [['a'], ['a']] 1 := by
  have hset : twoPrinters.eligible [['a'], ['a']] = .ok (some 2) := by decide_cbv
  obtain ⟨s', j, hprint, hjobs, hj⟩ := print_of_eligible twoPrinters_accepts hset
  refine ⟨s', j, hprint, hjobs, ?_, ?_, ?_, ?_⟩
  · rw [hj]
    decide
  · rw [hj]
    decide
  · exact ⟨_, List.mem_cons_self, rfl, List.mem_cons_self⟩
  · rintro ⟨p, hp, hid, hname⟩
    obtain rfl | rfl : p = ⟨0, ['a'], ['p', 's'], true, false⟩ ∨
        p = ⟨1, ['b'], ['p', 's'], true, false⟩ := by simpa [twoPrinters] using hp
    · exact absurd hid (by decide)
    · exact absurd hname (by decide)

end CLanguage.Imprimer
