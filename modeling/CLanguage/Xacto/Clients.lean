import CLanguage.Lib.Run
import CLanguage.Xacto.Cascade
import CLanguage.Xacto.Data

/-!
# Clients of the transaction manager

Runs of calls by clients that follow the ownership rules of the header files. What
the clients hold is counted beside the memory: the references to transactions and to
blobs that are theirs, and the keys and versions that have not been disposed of.

Every call is atomic here. A call of `trans_commit` or `trans_abort` that does not
return takes no step, and one that ends the process ends the run.

## Main definitions

* `Client` — the memory and what the clients hold
* `Client.references`, `Client.blobReferences` — the references that are outstanding
* `Call`, `Client.may`, `Client.perform`, `Client.Step` — the calls
* `Client.Effect` — what a call does to the transactions
-/

namespace CLanguage.Xacto

/-- A call of the transaction manager or of the functions on blobs, keys and versions. -/
inductive Call
  | transCreate
  | transRef (tp : ℕ)
  | transUnref (tp : ℕ)
  | transAddDependency (tp dtp : ℕ)
  | transCommit (tp : ℕ)
  | transAbort (tp : ℕ)
  | blobCreate (content : List UInt8) (size : ℕ)
  | blobRef (bp : ℕ)
  | blobUnref (bp : ℕ)
  | keyCreate (bp : ℕ) (behind : List UInt8)
  | keyDispose (kp : Key)
  | versionCreate (tp : ℕ) (bp : Option ℕ)
  | versionDispose (vp : Version)

/-- The calls on blobs and keys. -/
def Call.onBlobs : Call → Bool
  | .blobCreate _ _ | .blobRef _ | .blobUnref _ | .keyCreate _ _ | .keyDispose _ => true
  | _ => false

/-- The memory, and what the clients hold. -/
structure Client where
  trans : Manager
  blobs : Blobs
  holds : ℕ → ℕ
  holdsBlob : ℕ → ℕ
  keys : List Key
  versions : List Version

/-- The dependency entries of the transactions that were not freed. -/
def Manager.entries (m : Manager) : List ℕ :=
  ((List.range m.fresh).filter fun a => !(m.trans a).freed).flatMap fun a => (m.trans a).depends

namespace Client

/-- Before the first call. -/
def initial : Client := ⟨transInit, noBlobs, fun _ => 0, fun _ => 0, [], []⟩

/-- The outstanding references to a transaction: those that clients hold, one for each dependency
entry and one for each version. -/
def references (c : Client) (tp : ℕ) : ℕ :=
  c.holds tp + c.trans.entries.count tp + c.versions.countP (fun vp => vp.creator = tp)

/-- The outstanding references to a blob. -/
def blobReferences (c : Client) (bp : ℕ) : ℕ :=
  c.holdsBlob bp + c.keys.countP (fun kp => kp.blob = bp) +
    c.versions.countP (fun vp => vp.blob = some bp)

/-- The ownership rules. A reference can be taken where there is one; a call that consumes a
reference or passes it on is made by a client that holds it; keys and versions are disposed of
once. -/
def may (c : Client) : Call → Prop
  | .transCreate => True
  | .transRef tp => 0 < c.references tp
  | .transUnref tp => 0 < c.holds tp
  | .transAddDependency tp dtp => 0 < c.references tp ∧ 0 < c.references dtp
  | .transCommit tp => 0 < c.holds tp
  | .transAbort tp => 0 < c.holds tp
  | .blobCreate _ _ => True
  | .blobRef bp => 0 < c.blobReferences bp
  | .blobUnref bp => 0 < c.holdsBlob bp
  | .keyCreate bp _ => 0 < c.holdsBlob bp
  | .keyDispose kp => kp ∈ c.keys
  | .versionCreate tp bp => 0 < c.references tp ∧ ∀ b ∈ bp, 0 < c.holdsBlob b
  | .versionDispose vp => vp ∈ c.versions

instance decidableMay (c : Client) : (call : Call) → Decidable (c.may call)
  | .transCreate => instDecidableTrue
  | .transRef _ => Nat.decLt ..
  | .transUnref _ => Nat.decLt ..
  | .transAddDependency _ _ => instDecidableAnd
  | .transCommit _ => Nat.decLt ..
  | .transAbort _ => Nat.decLt ..
  | .blobCreate _ _ => instDecidableTrue
  | .blobRef _ => Nat.decLt ..
  | .blobUnref _ => Nat.decLt ..
  | .keyCreate _ _ => Nat.decLt ..
  | .keyDispose kp => inferInstanceAs (Decidable (kp ∈ c.keys))
  | .versionCreate tp bp =>
    inferInstanceAs (Decidable (0 < c.references tp ∧ ∀ b ∈ bp, 0 < c.holdsBlob b))
  | .versionDispose vp => inferInstanceAs (Decidable (vp ∈ c.versions))

/-- One more in a table of counts. -/
def gain (holds : ℕ → ℕ) (a : ℕ) : ℕ → ℕ := Function.update holds a (holds a + 1)

/-- One less in a table of counts. -/
def lose (holds : ℕ → ℕ) (a : ℕ) : ℕ → ℕ := Function.update holds a (holds a - 1)

theorem gain_apply (holds : ℕ → ℕ) (a b : ℕ) :
    gain holds a b = if b = a then holds a + 1 else holds b := Function.update_apply ..

theorem lose_apply (holds : ℕ → ℕ) (a b : ℕ) :
    lose holds a b = if b = a then holds a - 1 else holds b := Function.update_apply ..

theorem gain_add (holds : ℕ → ℕ) (b a : ℕ) :
    gain holds b a = holds a + if b = a then 1 else 0 := by
  rw [gain_apply]
  split
  · next ha => rw [ha, if_pos rfl]
  · next ha => rw [if_neg (Ne.symm ha), Nat.add_zero]

theorem lose_add {holds : ℕ → ℕ} {b : ℕ} (h : 0 < holds b) (a : ℕ) :
    holds a = lose holds b a + if b = a then 1 else 0 := by
  rw [lose_apply]
  split
  · next ha =>
    subst ha
    rw [if_pos rfl]
    omega
  · next ha => rw [if_neg (Ne.symm ha), Nat.add_zero]

/-- A table that counts one more of `b` than `holds`. -/
theorem eq_gain {holds f : ℕ → ℕ} {b : ℕ} (h : ∀ a, f a = holds a + if b = a then 1 else 0) :
    f = gain holds b :=
  funext fun a => (h a).trans (gain_add ..).symm

theorem pos_of_eq_add {holds f : ℕ → ℕ} {b : ℕ}
    (h : ∀ a, holds a = f a + if b = a then 1 else 0) : 0 < holds b := by
  rw [h, if_pos rfl]
  exact Nat.succ_pos _

/-- A table that counts one less of `b` than `holds`. -/
theorem eq_lose {holds f : ℕ → ℕ} {b : ℕ} (h : ∀ a, holds a = f a + if b = a then 1 else 0) :
    f = lose holds b := by
  funext a
  have hadd := lose_add (pos_of_eq_add h) a
  have ha := h a
  omega

/-- A call, with the references that go with it. -/
def perform (fuel : ℕ) (c : Client) : Call → Except Stop Client
  | .transCreate =>
    let (m, a) := Xacto.transCreate c.trans
    .ok { c with trans := m, holds := gain c.holds a }
  | .transRef tp => do
    let m ← Xacto.transRef c.trans tp
    return { c with trans := m, holds := gain c.holds tp }
  | .transUnref tp => do
    let m ← Xacto.transUnref c.trans tp
    return { c with trans := m, holds := lose c.holds tp }
  | .transAddDependency tp dtp => do
    let m ← Xacto.transAddDependency c.trans tp dtp
    return { c with trans := m }
  | .transCommit tp => do
    let (m, _) ← Xacto.transCommit fuel c.trans tp
    return { c with trans := m, holds := lose c.holds tp }
  | .transAbort tp => do
    let m ← Xacto.transAbort fuel c.trans tp
    return { c with trans := m, holds := lose c.holds tp }
  | .blobCreate content size =>
    let (s, a) := Xacto.blobCreate c.blobs content size
    .ok { c with blobs := s, holdsBlob := gain c.holdsBlob a }
  | .blobRef bp =>
    .ok { c with blobs := Xacto.blobRef c.blobs bp, holdsBlob := gain c.holdsBlob bp }
  | .blobUnref bp => do
    let s ← Xacto.blobUnref c.blobs bp
    return { c with blobs := s, holdsBlob := lose c.holdsBlob bp }
  | .keyCreate bp behind =>
    let (s, kp) := Xacto.keyCreate c.blobs bp behind
    .ok { c with blobs := s, holdsBlob := lose c.holdsBlob bp, keys := kp :: c.keys }
  | .keyDispose kp => do
    let s ← Xacto.keyDispose c.blobs kp
    return { c with blobs := s, keys := c.keys.erase kp }
  | .versionCreate tp bp => do
    let (m, s, vp) ← Xacto.versionCreate c.trans c.blobs tp bp
    return { c with
      trans := m, blobs := s, versions := vp :: c.versions
      holdsBlob := bp.elim c.holdsBlob (lose c.holdsBlob) }
  | .versionDispose vp => do
    let (m, s) ← Xacto.versionDispose c.trans c.blobs vp
    return { c with trans := m, blobs := s, versions := c.versions.erase vp }

/-- What is disposed of is one less to count. -/
theorem countP_erase_add {α : Type*} [DecidableEq α] {x : α} {l : List α} (p : α → Bool) (h : x ∈ l) :
    l.countP p = (l.erase x).countP p + if p x then 1 else 0 := by
  rw [(List.perm_cons_erase h).countP_eq p, List.countP_cons]

/-- A call that keeps the rules and returns. -/
def Step (c : Client) (call : Call) (c' : Client) : Prop :=
  c.may call ∧ ∃ fuel, c.perform fuel call = .ok c'

theorem versionCreate_of_ok {fuel tp : ℕ} {bp : Option ℕ} {c c' : Client}
    (h : c.perform fuel (.versionCreate tp bp) = .ok c') :
    (c.trans.trans tp).mutex = false ∧ c' = { c with
      trans := c.trans.addReference tp
      blobs := bp.elim c.blobs c.blobs.addReference
      versions := ⟨tp, bp⟩ :: c.versions
      holdsBlob := bp.elim c.holdsBlob (lose c.holdsBlob) } := by
  obtain ⟨r, hcall, h⟩ := Lib.bind_eq_ok h
  obtain ⟨hfree, rfl⟩ := versionCreate_eq_ok.mp hcall
  exact ⟨hfree, (Except.ok.inj h).symm⟩

theorem versionDispose_of_ok {fuel : ℕ} {vp : Version} {c c' : Client}
    (h : c.perform fuel (.versionDispose vp) = .ok c') :
    ∃ bp s, vp.blob = some bp ∧ (c.trans.trans vp.creator).mutex = false ∧
      c.blobs.release bp = .ok s ∧ c' = { c with
        trans := c.trans.dropReference vp.creator
        blobs := s
        versions := c.versions.erase vp } := by
  obtain ⟨⟨m, s⟩, hcall, h⟩ := Lib.bind_eq_ok h
  obtain ⟨bp, hbp, hfree, hrelease, rfl⟩ := versionDispose_eq_ok hcall
  exact ⟨bp, s, hbp, hfree, hrelease, (Except.ok.inj h).symm⟩

/-- What a call that returns does to the transactions and to the references to them. -/
inductive Effect (c : Client) : Call → Client → Prop
  | transCreate : Effect c .transCreate
      { c with trans := (Xacto.transCreate c.trans).1, holds := gain c.holds c.trans.fresh }
  | transRef {tp : ℕ} (free : (c.trans.trans tp).mutex = false) : Effect c (.transRef tp)
      { c with trans := c.trans.addReference tp, holds := gain c.holds tp }
  | transUnref {tp : ℕ} {m : Manager} (unref : Xacto.transUnref c.trans tp = .ok m) :
      Effect c (.transUnref tp) { c with trans := m, holds := lose c.holds tp }
  | transAddDependency {tp dtp : ℕ} (other : dtp ≠ tp) : Effect c (.transAddDependency tp dtp)
      { c with trans := addDependency c.trans tp dtp }
  | transCommit {tp : ℕ} {m : Manager} {status : TransStatus}
      (committed : Committed c.trans tp m status) : Effect c (.transCommit tp)
      { c with trans := m, holds := lose c.holds tp }
  | transAbort {tp : ℕ} {m : Manager} (returns : Returns c.trans (.abort tp) m) :
      Effect c (.transAbort tp) { c with trans := m, holds := lose c.holds tp }
  | versionCreate {tp : ℕ} {bp : Option ℕ} {s : Blobs} {holdsBlob : ℕ → ℕ} :
      Effect c (.versionCreate tp bp)
      { c with
        trans := c.trans.addReference tp, blobs := s, versions := ⟨tp, bp⟩ :: c.versions
        holdsBlob := holdsBlob }
  | versionDispose {vp : Version} {s : Blobs} : Effect c (.versionDispose vp)
      { c with
        trans := c.trans.dropReference vp.creator, blobs := s, versions := c.versions.erase vp }
  | onBlobs {call : Call} {s : Blobs} {holdsBlob : ℕ → ℕ} {keys : List Key}
      (other : call.onBlobs = true) : Effect c call
      { c with blobs := s, holdsBlob := holdsBlob, keys := keys }

theorem effect_of_ok {fuel : ℕ} {c c' : Client} {call : Call} (h : c.perform fuel call = .ok c') :
    c.Effect call c' := by
  cases call with
  | transCreate =>
    rw [← Except.ok.inj h]
    exact .transCreate
  | transRef tp =>
    obtain ⟨m, hm, h⟩ := Lib.bind_eq_ok h
    obtain ⟨hfree, rfl⟩ := transRef_eq_ok.mp hm
    rw [← Except.ok.inj h]
    exact .transRef hfree
  | transUnref tp =>
    obtain ⟨m, hm, h⟩ := Lib.bind_eq_ok h
    rw [← Except.ok.inj h]
    exact .transUnref hm
  | transAddDependency tp dtp =>
    obtain ⟨m, hm, h⟩ := Lib.bind_eq_ok h
    obtain ⟨-, -, hne, rfl⟩ := transAddDependency_eq_ok.mp hm
    rw [← Except.ok.inj h]
    exact .transAddDependency hne
  | transCommit tp =>
    obtain ⟨⟨m, status⟩, hm, h⟩ := Lib.bind_eq_ok h
    rw [← Except.ok.inj h]
    exact .transCommit (transCommit_eq_ok hm).2
  | transAbort tp =>
    obtain ⟨m, hm, h⟩ := Lib.bind_eq_ok h
    rw [← Except.ok.inj h]
    exact .transAbort (.of_abort hm)
  | blobCreate content size =>
    rw [← Except.ok.inj h]
    exact .onBlobs rfl
  | blobRef bp =>
    rw [← Except.ok.inj h]
    exact .onBlobs rfl
  | blobUnref bp =>
    obtain ⟨s, -, h⟩ := Lib.bind_eq_ok h
    rw [← Except.ok.inj h]
    exact .onBlobs rfl
  | keyCreate bp behind =>
    rw [← Except.ok.inj h]
    exact .onBlobs rfl
  | keyDispose kp =>
    obtain ⟨s, -, h⟩ := Lib.bind_eq_ok h
    rw [← Except.ok.inj h]
    exact .onBlobs rfl
  | versionCreate tp bp =>
    obtain ⟨-, rfl⟩ := versionCreate_of_ok h
    exact .versionCreate
  | versionDispose vp =>
    obtain ⟨bp, s, -, -, -, rfl⟩ := versionDispose_of_ok h
    exact .versionDispose

/-- The steps that meet a condition, as a function for runs that are evaluated. -/
def next (P : Client → Call → Prop) [∀ c call, Decidable (P c call)] (fuel : ℕ) (c : Client)
    (call : Call) : Option Client :=
  if c.may call ∧ P c call then (c.perform fuel call).toOption else none

theorem step_of_next {P : Client → Call → Prop} [∀ c call, Decidable (P c call)] {fuel : ℕ}
    (c : Client) (call : Call) (c' : Client) (h : c.next P fuel call = some c') :
    c.Step call c' ∧ P c call := by
  rw [next] at h
  split at h
  · next hmay => exact ⟨⟨hmay.1, fuel, Lib.ok_of_toOption h⟩, hmay.2⟩
  · exact absurd h nofun

end Client

end CLanguage.Xacto
