import CLanguage.Xacto.Data
import Mathlib.Data.List.TakeWhile

/-!
# Comparing blobs and keys

A blob has a size and may hold any bytes, but it is copied, compared and hashed as a
string. The two comparisons read its memory here up to the end of the copy: `none` says
that a byte behind it is read.

They tell two contents apart only up to the first null byte, and stay inside the memory
of the blobs only where there is one: see `compares_iff`.

## Main definitions

* `strlen`, `strcmp` — the string functions on the memory of a blob
* `blobCompare`, `keyCompare` — the comparisons
* `Made`, `make` — two blobs and the keys made from them
-/

namespace CLanguage.Xacto

variable {memory memory' x y : List UInt8} {s : Blobs}

/-- `strlen` of the string that starts a piece of memory, if it ends there. -/
def strlen : List UInt8 → Option ℕ
  | [] => none
  | c :: memory => if c = 0 then some 0 else (strlen memory).map (· + 1)

/-- `strcmp` of the strings that start two pieces of memory, if it reads nothing behind them. -/
def strcmp : List UInt8 → List UInt8 → Option ℤ
  | c :: memory, d :: memory' =>
    if c = d ∧ c ≠ 0 then strcmp memory memory' else some ((c.toNat : ℤ) - d.toNat)
  | _, _ => none

/-- `blob_compare` -/
def blobCompare (s : Blobs) (bp1 bp2 : ℕ) : Option ℤ := do
  let n ← strcmp (s.blob bp1).content (s.blob bp2).content
  return if n = 0 then 0 else -1

/-- `key_compare` -/
def keyCompare (s : Blobs) (kp1 kp2 : Key) : Option ℤ :=
  if kp1.hash = kp2.hash then do
    let n ← strcmp (s.blob kp1.blob).content (s.blob kp2.blob).content
    return if n = 0 then 0 else -1
  else some (-1)

/-! ### Strings that end in their memory -/

theorem strlen_ne_none : strlen memory ≠ none ↔ 0 ∈ memory := by
  induction memory with
  | nil => simp [strlen]
  | cons c memory ih =>
    rw [strlen, List.mem_cons]
    by_cases hc : c = 0
    · simp [hc]
    · rw [if_neg hc, ne_eq, Option.map_eq_none_iff, ← ne_eq, ih]
      exact ⟨.inr, fun h => h.resolve_left (Ne.symm hc)⟩

@[simp] theorem cString_cons (c : UInt8) (memory : List UInt8) :
    cString (c :: memory) = if c = 0 then [] else c :: cString memory := by
  rw [cString, List.takeWhile_cons]
  by_cases hc : c = 0
  · simp [hc]
  · simp [hc, cString]

/-- A string that ends is compared to its end at most. -/
theorem strcmp_ne_none (h : 0 ∈ memory) (h' : 0 ∈ memory') : strcmp memory memory' ≠ none := by
  induction memory generalizing memory' with
  | nil => exact absurd h List.not_mem_nil
  | cons c memory ih =>
    cases memory' with
    | nil => exact absurd h' List.not_mem_nil
    | cons d memory' =>
      rw [strcmp]
      split
      · next hsame =>
        obtain ⟨rfl, hc⟩ := hsame
        exact ih ((List.mem_cons.mp h).resolve_left (Ne.symm hc))
          ((List.mem_cons.mp h').resolve_left (Ne.symm hc))
      · exact Option.some_ne_none _

theorem strcmp_eq_zero (h : 0 ∈ memory) (h' : 0 ∈ memory') :
    strcmp memory memory' = some 0 ↔ cString memory = cString memory' := by
  induction memory generalizing memory' with
  | nil => exact absurd h List.not_mem_nil
  | cons c memory ih =>
    cases memory' with
    | nil => exact absurd h' List.not_mem_nil
    | cons d memory' =>
      rw [strcmp, cString_cons, cString_cons]
      by_cases hsame : c = d
      · subst hsame
        by_cases hc : c = 0
        · simp [hc]
        · rw [if_pos ⟨rfl, hc⟩, if_neg hc, if_neg hc, List.cons_inj_right]
          exact ih ((List.mem_cons.mp h).resolve_left (Ne.symm hc))
            ((List.mem_cons.mp h').resolve_left (Ne.symm hc))
      · -- the first bytes differ, and so do the strings
        have hdiff : (c.toNat : ℤ) - d.toNat ≠ 0 := by
          intro hzero
          exact hsame (UInt8.toNat_inj.mp (by omega))
        rw [if_neg fun hboth => hsame hboth.1, Option.some_inj]
        refine iff_of_false hdiff ?_
        split
        · next hc => split <;> simp_all
        · split <;> simp_all

/-! ### The copy of a content -/

theorem cString_eq_self (h : 0 ∉ x) : cString x = x :=
  List.takeWhile_eq_self_iff.mpr fun _ hc => decide_eq_true fun hzero => h (hzero ▸ hc)

theorem zero_notMem_cString (x : List UInt8) : 0 ∉ cString x := fun h =>
  of_decide_eq_true (List.mem_takeWhile_imp (p := fun c => decide (c ≠ 0)) h) rfl

theorem cString_append_cons (h : 0 ∉ x) (memory : List UInt8) : cString (x ++ 0 :: memory) = x := by
  induction x with
  | nil => simp
  | cons c x ih =>
    rw [List.mem_cons, not_or] at h
    rw [List.cons_append, cString_cons, if_neg (Ne.symm h.1), ih h.2]

/-- The whole content is copied up to its null byte, which is copied too. -/
theorem strncpy_of_mem (h : 0 ∈ x) : ∃ n, strncpy x x.length = cString x ++ 0 :: List.replicate n 0 := by
  have hlt : (cString x).length < x.length := by
    refine Nat.lt_of_le_of_ne (List.takeWhile_prefix _).length_le fun heq => ?_
    have hall : cString x = x := (List.takeWhile_prefix _).eq_of_length heq
    exact zero_notMem_cString x (hall.symm ▸ h)
  rw [strncpy, List.take_length]
  obtain ⟨n, hn⟩ := Nat.exists_eq_add_of_lt hlt
  exact ⟨n, by rw [hn, Nat.add_assoc, Nat.add_sub_cancel_left, List.replicate_succ]⟩

theorem strncpy_of_notMem (h : 0 ∉ x) : strncpy x x.length = x := by
  rw [strncpy, List.take_length, cString_eq_self h, Nat.sub_self, List.replicate_zero,
    List.append_nil]

theorem mem_strncpy : 0 ∈ strncpy x x.length ↔ 0 ∈ x := by
  by_cases h : 0 ∈ x
  · obtain ⟨n, hn⟩ := strncpy_of_mem h
    exact iff_of_true (hn ▸ List.mem_append_right _ List.mem_cons_self) h
  · rw [strncpy_of_notMem h]

theorem cString_strncpy_append (h : 0 ∈ x) (behind : List UInt8) :
    cString (strncpy x x.length ++ behind) = cString x := by
  obtain ⟨n, hn⟩ := strncpy_of_mem h
  rw [hn, List.append_assoc, List.cons_append]
  exact cString_append_cons (zero_notMem_cString x) _

theorem cString_strncpy (h : 0 ∈ x) : cString (strncpy x x.length) = cString x := by
  simpa using cString_strncpy_append h []

/-! ### Two blobs and their keys -/

/-- Two blobs and a key for each. -/
structure Made where
  blobs : Blobs
  b : ℕ
  c : ℕ
  k : Key
  k' : Key

/-- Blobs and keys made from two byte strings; `behind` and `behind'` follow the blobs in memory. -/
def make (s : Blobs) (x y behind behind' : List UInt8) : Made :=
  let (s, b) := blobCreate s x x.length
  let (s, c) := blobCreate s y y.length
  let (s, k) := keyCreate s b behind
  let (s, k') := keyCreate s c behind'
  ⟨s, b, c, k, k'⟩

/-- The comparisons find out whether the contents are the same, and neither they nor the hashes of
the keys read behind a content. -/
structure Made.Compares (m : Made) (x y : List UInt8) : Prop where
  blob : blobCompare m.blobs m.b m.c = some 0 ↔ x = y
  key : keyCompare m.blobs m.k m.k' = some 0 ↔ x = y
  blob_inside : blobCompare m.blobs m.b m.c ≠ none
  key_inside : keyCompare m.blobs m.k m.k' ≠ none
  hash_inside : strlen (m.blobs.blob m.b).content ≠ none
  hash_inside' : strlen (m.blobs.blob m.c).content ≠ none

@[simp] theorem content_addReference {a bp : ℕ} :
    ((s.addReference bp).blob a).content = (s.blob a).content := by
  rw [Blobs.addReference, Blobs.blob_setRefcnt]

theorem content_blobCreate {a size : ℕ} :
    ((blobCreate s x size).1.blob a).content =
      if a = s.fresh then strncpy x size else (s.blob a).content := by
  refine content_addReference.trans ((congrArg Blob.content (Function.update_apply ..)).trans ?_)
  split
  · rfl
  · rfl

/-- What `make` gives. -/
structure Made.Of (m : Made) (x y behind behind' : List UInt8) : Prop where
  content : (m.blobs.blob m.b).content = strncpy x x.length
  content' : (m.blobs.blob m.c).content = strncpy y y.length
  key : m.k = ⟨blobHash (cString (strncpy x x.length ++ behind)), m.b⟩
  key' : m.k' = ⟨blobHash (cString (strncpy y y.length ++ behind')), m.c⟩

theorem make_of (s : Blobs) (x y behind behind' : List UInt8) :
    (make s x y behind behind').Of x y behind behind' := by
  have hfirst : ((blobCreate (blobCreate s x x.length).1 y y.length).1.blob s.fresh).content =
      strncpy x x.length := by
    have hne : s.fresh ≠ (blobCreate s x x.length).1.fresh := Nat.ne_of_lt (Nat.lt_succ_self _)
    rw [content_blobCreate, if_neg hne, content_blobCreate, if_pos rfl]
  have hsecond : ((blobCreate (blobCreate s x x.length).1 y y.length).1.blob
      (s.fresh + 1)).content = strncpy y y.length :=
    content_blobCreate.trans (if_pos rfl)
  refine ⟨?_, ?_, ?_, ?_⟩
  · exact (content_addReference.trans content_addReference).trans hfirst
  · exact (content_addReference.trans content_addReference).trans hsecond
  · rw [← hfirst]
    rfl
  · have hkept : (((blobCreate (blobCreate s x x.length).1 y y.length).1.addReference
        s.fresh).blob (s.fresh + 1)).content = _ := content_addReference.trans hsecond
    rw [← hkept]
    rfl

/-! ### What the comparisons find out -/

theorem blobCompare_eq_zero {b c : ℕ} :
    blobCompare s b c = some 0 ↔ strcmp (s.blob b).content (s.blob c).content = some 0 := by
  rw [blobCompare]
  cases strcmp (s.blob b).content (s.blob c).content with
  | none => exact iff_of_false nofun nofun
  | some n => by_cases hn : n = 0 <;> simp [hn]

theorem blobCompare_ne_none {b c : ℕ} :
    blobCompare s b c ≠ none ↔ strcmp (s.blob b).content (s.blob c).content ≠ none := by
  rw [blobCompare]
  cases strcmp (s.blob b).content (s.blob c).content with
  | none => exact iff_of_false (· rfl) (· rfl)
  | some n => exact iff_of_true nofun nofun

/-- Keys are compared like their blobs where the hashes agree. -/
theorem keyCompare_eq (s : Blobs) (k k' : Key) :
    keyCompare s k k' = if k.hash = k'.hash then blobCompare s k.blob k'.blob else some (-1) := rfl

/-- The comparisons and the hashes are right for two contents exactly if both contain a null byte
and they are the same or differ before one of their first null bytes. -/
theorem compares_iff (s : Blobs) (x y behind behind' : List UInt8) :
    (make s x y behind behind').Compares x y ↔
      0 ∈ x ∧ 0 ∈ y ∧ (x = y ∨ cString x ≠ cString y) := by
  have hmade := make_of s x y behind behind'
  have hends : 0 ∈ x → 0 ∈ y →
      (blobCompare (make s x y behind behind').blobs (make s x y behind behind').b
        (make s x y behind behind').c = some 0 ↔ cString x = cString y) := by
    intro hx hy
    rw [blobCompare_eq_zero, hmade.content, hmade.content',
      strcmp_eq_zero (mem_strncpy.mpr hx) (mem_strncpy.mpr hy), cString_strncpy hx,
      cString_strncpy hy]
  constructor
  · intro h
    have hx : 0 ∈ x := mem_strncpy.mp (hmade.content ▸ strlen_ne_none.mp h.hash_inside)
    have hy : 0 ∈ y := mem_strncpy.mp (hmade.content' ▸ strlen_ne_none.mp h.hash_inside')
    refine ⟨hx, hy, or_iff_not_imp_right.mpr fun hsame => ?_⟩
    exact h.blob.mp ((hends hx hy).mpr (not_not.mp hsame))
  · rintro ⟨hx, hy, h⟩
    have hcompare := (hends hx hy).trans
      ⟨fun hsame => h.resolve_right (· hsame), fun hsame => congrArg cString hsame⟩
    have hinside : blobCompare (make s x y behind behind').blobs (make s x y behind behind').b
        (make s x y behind behind').c ≠ none := by
      rw [blobCompare_ne_none, hmade.content, hmade.content']
      exact strcmp_ne_none (mem_strncpy.mpr hx) (mem_strncpy.mpr hy)
    refine ⟨hcompare, ?_, hinside, ?_, ?_, ?_⟩
    · rw [keyCompare_eq, hmade.key, hmade.key', cString_strncpy_append hx,
        cString_strncpy_append hy]
      split
      · exact hcompare
      · next hhash =>
        -- the hashes of the same contents are the same
        exact iff_of_false nofun fun hsame => hhash (hsame ▸ rfl)
    · rw [keyCompare_eq, hmade.key, hmade.key']
      split
      · exact hinside
      · exact nofun
    · rw [hmade.content]
      exact strlen_ne_none.mpr (mem_strncpy.mpr hx)
    · rw [hmade.content']
      exact strlen_ne_none.mpr (mem_strncpy.mpr hy)

/-- Two contents that differ behind a null byte: the comparisons find no difference. -/
theorem difference_behind_null :
    blobCompare (make noBlobs [97, 0, 98] [97, 0, 99] [] []).blobs
        (make noBlobs [97, 0, 98] [97, 0, 99] [] []).b
        (make noBlobs [97, 0, 98] [97, 0, 99] [] []).c = some 0 ∧
      ¬ (make noBlobs [97, 0, 98] [97, 0, 99] [] []).Compares [97, 0, 98] [97, 0, 99] := by
  have hzero : blobCompare (make noBlobs [97, 0, 98] [97, 0, 99] [] []).blobs
      (make noBlobs [97, 0, 98] [97, 0, 99] [] []).b
      (make noBlobs [97, 0, 98] [97, 0, 99] [] []).c = some 0 := by decide +kernel
  exact ⟨hzero, fun h => absurd (h.blob.mp hzero) (by decide)⟩

end CLanguage.Xacto
