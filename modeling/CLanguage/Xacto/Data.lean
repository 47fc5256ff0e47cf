import CLanguage.Xacto.Calls
import Mathlib.Algebra.Group.Int.Defs

/-!
# Blobs, keys and versions

The reference counts of `data.c`. A blob is named by its address, and 0 is the null
pointer. Three functions release a reference with the same code. A key and a version
are plain values here; the links of a version belong to the store, which is a
library, and the debugging prefix of a blob is left out.

## Main definitions

* `Blob`, `Blobs`, `Key`, `Version` — the objects
* `blobCreate`, `blobRef`, `blobUnref`, `keyCreate`, `keyDispose`, `versionCreate`,
  `versionDispose` — the calls
-/

namespace CLanguage.Xacto

open Manager

/-- The string that starts at an address, up to its null byte. -/
def cString (memory : List UInt8) : List UInt8 := memory.takeWhile (· ≠ 0)

/-- `BLOB` -/
@[ext]
structure Blob where
  refcnt : ℤ
  size : ℕ
  content : List UInt8
  freed : Bool
  deriving DecidableEq

/-- All blobs. `fresh` is the first address that was never handed out. -/
@[ext]
structure Blobs where
  blob : ℕ → Blob
  fresh : ℕ

/-- `KEY` -/
structure Key where
  hash : Int32
  blob : ℕ
  deriving DecidableEq

/-- `VERSION` -/
structure Version where
  creator : ℕ
  blob : Option ℕ
  deriving DecidableEq

/-- The value of an `int` after an operation. -/
def wrapInt (n : ℤ) : ℤ := (n + 2 ^ 31) % 2 ^ 32 - 2 ^ 31

namespace Blobs

def setRefcnt (s : Blobs) (bp : ℕ) (refcnt : ℤ) : Blobs :=
  { s with blob := Function.update s.blob bp { s.blob bp with refcnt := refcnt } }

/-- `free` -/
def free (s : Blobs) (bp : ℕ) : Except Stop Blobs :=
  if (s.blob bp).freed then .error .doubleFree
  else .ok { s with blob := Function.update s.blob bp { s.blob bp with freed := true } }

/-- A reference is taken. -/
def addReference (s : Blobs) (bp : ℕ) : Blobs :=
  s.setRefcnt bp (wrapInt ((s.blob bp).refcnt + 1))

/-- The lines that release a reference: the last one frees the blob. -/
def release (s : Blobs) (bp : ℕ) : Except Stop Blobs :=
  if wrapInt ((s.blob bp).refcnt - 1) = 0 then s.free bp
  else .ok (s.setRefcnt bp (wrapInt ((s.blob bp).refcnt - 1)))

end Blobs

/-- No blob was created. -/
def noBlobs : Blobs := ⟨fun _ => ⟨0, 0, [], false⟩, 1⟩

/-- `strncpy`: the string, cut at `size` bytes or filled up with null bytes. -/
def strncpy (content : List UInt8) (size : ℕ) : List UInt8 :=
  let string := cString (content.take size)
  string ++ List.replicate (size - string.length) 0

/-- `blob_ref` -/
def blobRef (s : Blobs) (bp : ℕ) : Blobs := s.addReference bp

/-- `blob_create` -/
def blobCreate (s : Blobs) (content : List UInt8) (size : ℕ) : Blobs × ℕ :=
  let a := s.fresh
  let s : Blobs :=
    ⟨Function.update s.blob a ⟨0, size, strncpy content size, false⟩, s.fresh + 1⟩
  (blobRef s a, a)

/-- `blob_unref` -/
def blobUnref (s : Blobs) (bp : ℕ) : Except Stop Blobs := s.release bp

/-- `blob_hash` of the string that the content pointer points to. -/
def blobHash (string : List UInt8) : Int32 :=
  string.foldl (fun hash c => hash + (c.toInt8.toInt32 + Int32.ofNat string.length)) 0

/-- `key_create`. The hash reads on behind the content if that has no null byte. -/
def keyCreate (s : Blobs) (bp : ℕ) (behind : List UInt8) : Blobs × Key :=
  (s.addReference bp, ⟨blobHash (cString ((s.blob bp).content ++ behind)), bp⟩)

/-- `key_dispose` -/
def keyDispose (s : Blobs) (kp : Key) : Except Stop Blobs := s.release kp.blob

/-- `version_create` -/
def versionCreate (m : Manager) (s : Blobs) (tp : ℕ) (bp : Option ℕ) :
    Except Stop (Manager × Blobs × Version) :=
  match bp with
  | some b => do
    let m ← m.lock tp
    let m := m.setRefcnt tp (increment (m.trans tp).refcnt)
    return (m.unlock tp, s.addReference b, ⟨tp, some b⟩)
  | none => do
    let m ← m.lock tp
    let m := m.setRefcnt tp (increment (m.trans tp).refcnt)
    return (m.unlock tp, s, ⟨tp, none⟩)

/-- `version_dispose`. The mutex of the blob is locked first, also where there is no blob. The
reference to the creator is dropped without a look at the count. -/
def versionDispose (m : Manager) (s : Blobs) (vp : Version) : Except Stop (Manager × Blobs) :=
  match vp.blob with
  | none => .error .nullBlob
  | some bp => do
    let m ← m.lock vp.creator
    let s ← s.release bp
    let m := m.setRefcnt vp.creator (decrement (m.trans vp.creator).refcnt)
    return (m.unlock vp.creator, s)

/-! ## What the calls do -/

variable {m m' : Manager} {s s' : Blobs} {tp bp a : ℕ}

namespace Blobs

@[simp] theorem blob_setRefcnt {n : ℤ} :
    (s.setRefcnt bp n).blob a =
      { s.blob a with refcnt := if a = bp then n else (s.blob a).refcnt } := by
  rw [setRefcnt]
  refine (Function.update_apply ..).trans ?_
  split
  · next h => rw [h]
  · rfl

/-- The blob is freed. -/
def remove (s : Blobs) (bp : ℕ) : Blobs :=
  { s with blob := Function.update s.blob bp { s.blob bp with freed := true } }

@[simp] theorem blob_remove :
    (s.remove bp).blob a = { s.blob a with freed := if a = bp then true else (s.blob a).freed } := by
  rw [remove]
  refine (Function.update_apply ..).trans ?_
  split
  · next h => rw [h]
  · rfl

theorem release_eq_ok :
    s.release bp = .ok s' ↔
      (wrapInt ((s.blob bp).refcnt - 1) = 0 ∧ (s.blob bp).freed = false ∧ s' = s.remove bp) ∨
        (wrapInt ((s.blob bp).refcnt - 1) ≠ 0 ∧
          s' = s.setRefcnt bp (wrapInt ((s.blob bp).refcnt - 1))) := by
  rw [release, free]
  by_cases hlast : wrapInt ((s.blob bp).refcnt - 1) = 0
  · rw [if_pos hlast]
    cases (s.blob bp).freed <;> simp [hlast, remove, eq_comm]
  · rw [if_neg hlast, Except.ok.injEq]
    constructor
    · exact fun h => .inr ⟨hlast, h.symm⟩
    · rintro (h | h)
      · exact absurd h.1 hlast
      · exact h.2.symm

end Blobs

private theorem lock_waiting {β : Type} {f : Manager → Except Stop β} {x : β}
    (hfree : (m.trans tp).mutex ≠ false) (h : m.lock tp >>= f = .ok x) : False := by
  obtain ⟨_, hlock, -⟩ := Lib.bind_eq_ok h
  exact hfree (lock_eq_ok.mp hlock).1

theorem versionCreate_eq {bp : Option ℕ} (hfree : (m.trans tp).mutex = false) :
    versionCreate m s tp bp =
      .ok (m.addReference tp, bp.elim s s.addReference, ⟨tp, bp⟩) := by
  cases bp with
  | none =>
    rw [versionCreate, lock_eq_ok.mpr ⟨hfree, rfl⟩]
    refine congrArg Except.ok ?_
    simp only [unlock_setRefcnt hfree, trans_setMutex, addReference, Option.elim_none]
  | some b =>
    rw [versionCreate, lock_eq_ok.mpr ⟨hfree, rfl⟩]
    refine congrArg Except.ok ?_
    simp only [unlock_setRefcnt hfree, trans_setMutex, addReference, Option.elim_some]

theorem versionCreate_eq_ok {bp : Option ℕ} {r : Manager × Blobs × Version} :
    versionCreate m s tp bp = .ok r ↔ (m.trans tp).mutex = false ∧
      r = (m.addReference tp, bp.elim s s.addReference, ⟨tp, bp⟩) := by
  by_cases hfree : (m.trans tp).mutex = false
  · rw [versionCreate_eq hfree, Except.ok.injEq]
    exact ⟨fun h => ⟨hfree, h.symm⟩, fun h => h.2.symm⟩
  · refine ⟨fun h => ?_, fun h => absurd h.1 hfree⟩
    cases bp with
    | none => exact (lock_waiting hfree h).elim
    | some b => exact (lock_waiting hfree h).elim

theorem versionDispose_eq_ok {vp : Version} {r : Manager × Blobs}
    (h : versionDispose m s vp = .ok r) : ∃ bp, vp.blob = some bp ∧
      (m.trans vp.creator).mutex = false ∧ s.release bp = .ok r.2 ∧
      r.1 = m.dropReference vp.creator := by
  rw [versionDispose] at h
  split at h
  · exact absurd h nofun
  · next bp hbp =>
    obtain ⟨_, hlock, h⟩ := Lib.bind_eq_ok h
    obtain ⟨hfree, rfl⟩ := lock_eq_ok.mp hlock
    obtain ⟨s', hrelease, h⟩ := Lib.bind_eq_ok h
    refine ⟨bp, hbp, hfree, ?_, ?_⟩
    · rw [← Except.ok.inj h]
      exact hrelease
    · rw [← Except.ok.inj h]
      simp only [unlock_setRefcnt hfree, trans_setMutex, dropReference]

end CLanguage.Xacto
