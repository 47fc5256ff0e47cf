import CLanguage.Xacto.Clients

/-!
# The reference counts of blobs

`key_create` and `version_create` are to inherit the reference of their caller, and
count a new one instead, which nobody will ever release. `BlobsCounted` ties the
counts in memory to any table of references, so that it holds of all runs once the
references that were lost are counted in, and of the outstanding ones in runs
without such calls.

## Main results

* `blobs_counted_run` — every count is right up to the references that were lost
* `blobs_balanced` — the counts are right where no reference is inherited
-/

namespace CLanguage.Xacto

open Lib Client

variable {s s' : Blobs} {refs : ℕ → ℕ} {bp : ℕ}

/-- A blob is kept as long as it has references, and counts them. -/
structure BlobsCounted (s : Blobs) (refs : ℕ → ℕ) : Prop where
  known : ∀ bp, 0 < refs bp → 0 < bp ∧ bp < s.fresh
  kept : ∀ bp, 0 < bp → bp < s.fresh → ((s.blob bp).freed = false ↔ 0 < refs bp)
  count : ∀ bp, 0 < refs bp → (s.blob bp).refcnt = refs bp
  bound : ∀ bp, refs bp < 2 ^ 31
  fresh_pos : 0 < s.fresh

theorem BlobsCounted.unknown (counted : BlobsCounted s refs) : refs s.fresh = 0 := by
  by_contra hne
  exact absurd (counted.known s.fresh (Nat.pos_of_ne_zero hne)).2 (Nat.lt_irrefl _)

theorem BlobsCounted.addReference (counted : BlobsCounted s refs) (hrefs : 0 < refs bp)
    (hfits : (s.blob bp).refcnt + 1 < 2 ^ 31) :
    BlobsCounted (s.addReference bp) (gain refs bp) := by
  have hcount := counted.count bp hrefs
  have hwrap : wrapInt ((s.blob bp).refcnt + 1) = (s.blob bp).refcnt + 1 := by
    rw [wrapInt]
    omega
  refine ⟨fun a ha => ?_, fun a hpos hlt => ?_, fun a ha => ?_, fun a => ?_, counted.fresh_pos⟩
  · rw [gain_apply] at ha
    split at ha
    · next h => exact h ▸ counted.known bp hrefs
    · exact counted.known a ha
  · rw [gain_apply, Blobs.addReference, Blobs.blob_setRefcnt]
    have hkept := counted.kept a hpos hlt
    split
    · next h =>
      subst h
      exact hkept.trans ⟨fun _ => Nat.succ_pos _, fun _ => hrefs⟩
    · exact hkept
  · rw [gain_apply] at ha
    rw [gain_apply, Blobs.addReference, Blobs.blob_setRefcnt]
    split at ha
    · next h =>
      simp only [if_pos h, hcount] at hwrap ⊢
      omega
    · next h =>
      simp only [if_neg h]
      exact counted.count a ha
  · rw [gain_apply]
    split
    · omega
    · exact counted.bound a

theorem BlobsCounted.create (counted : BlobsCounted s refs) (content : List UInt8) (size : ℕ) :
    BlobsCounted (blobCreate s content size).1 (gain refs s.fresh) := by
  have hunknown := counted.unknown
  have hfresh : (blobCreate s content size).1.fresh = s.fresh + 1 := rfl
  -- the new blob is at a fresh address and the others are as they were
  have hblob : ∀ a, (blobCreate s content size).1.blob a =
      if a = s.fresh then ⟨1, size, strncpy content size, false⟩ else s.blob a := by
    intro a
    rw [blobCreate, blobRef, Blobs.addReference, Blobs.blob_setRefcnt]
    simp only [Function.update_apply]
    split <;> rfl
  refine ⟨fun a ha => ?_, fun a hpos hlt => ?_, fun a ha => ?_, fun a => ?_, Nat.succ_pos _⟩
  · rw [gain_apply] at ha
    split at ha
    · next h => exact ⟨h ▸ counted.fresh_pos, h ▸ Nat.lt_succ_self _⟩
    · exact (counted.known a ha).imp_right fun h => Nat.lt_succ_of_lt h
  · rw [gain_apply, hblob]
    split
    · simp
    · next h => exact counted.kept a hpos (by omega)
  · rw [gain_apply] at ha ⊢
    rw [hblob]
    split
    · rw [hunknown]
      rfl
    · next h => exact counted.count a (by rwa [if_neg h] at ha)
  · rw [gain_apply]
    split
    · rw [hunknown]
      decide
    · exact counted.bound a

/-- Releasing a reference keeps the other ones, and the blob if there are any. -/
theorem BlobsCounted.release (counted : BlobsCounted s refs) (hrefs : 0 < refs bp)
    (h : s.release bp = .ok s') : BlobsCounted s' (lose refs bp) := by
  have hcount := counted.count bp hrefs
  have hbound := counted.bound bp
  -- the count is positive and below `2^31`, so the subtraction does not wrap
  have hwrap : wrapInt ((s.blob bp).refcnt - 1) = (s.blob bp).refcnt - 1 := by
    rw [wrapInt]
    omega
  have hknown : ∀ a, 0 < lose refs bp a → 0 < refs a := by
    intro a ha
    rw [lose_apply] at ha
    split at ha
    · next h => exact h ▸ hrefs
    · exact ha
  have hbounds : ∀ a, lose refs bp a < 2 ^ 31 := by
    intro a
    rw [lose_apply]
    split
    · omega
    · exact counted.bound a
  -- either the last reference goes and the blob with it, or the count is one less
  rw [Blobs.release_eq_ok, hwrap] at h
  rcases h with ⟨hlast, -, rfl⟩ | ⟨hmore, rfl⟩
  · refine ⟨fun a ha => counted.known a (hknown a ha), fun a hpos hlt => ?_, fun a ha => ?_, hbounds,
      counted.fresh_pos⟩
    · rw [Blobs.blob_remove, lose_apply]
      split
      · simp only [Bool.true_eq_false, false_iff]
        omega
      · exact counted.kept a hpos hlt
    · rw [Blobs.blob_remove]
      rw [lose_apply] at ha ⊢
      split
      · next h =>
        rw [if_pos h] at ha
        omega
      · next h => exact counted.count a (by rwa [if_neg h] at ha)
  · refine ⟨fun a ha => counted.known a (hknown a ha), fun a hpos hlt => ?_, fun a ha => ?_, hbounds,
      counted.fresh_pos⟩
    · rw [Blobs.blob_setRefcnt, lose_apply]
      have hkept := counted.kept a hpos hlt
      split
      · next h =>
        subst h
        exact hkept.trans ⟨fun _ => by omega, fun _ => hrefs⟩
      · exact hkept
    · rw [Blobs.blob_setRefcnt]
      rw [lose_apply] at ha ⊢
      split
      · change (s.blob bp).refcnt - 1 = _
        omega
      · next h => exact counted.count a (by rwa [if_neg h] at ha)

/-! ### Runs -/

/-- The call takes over the caller's reference to the blob. -/
def Call.inherits (bp : ℕ) : Call → Bool
  | .keyCreate b _ => b = bp
  | .versionCreate _ (some b) => b = bp
  | _ => false

/-- A count that the call increases stays below the largest `int`. -/
def Client.BlobFits (c : Client) : Call → Prop
  | .blobRef bp => (c.blobs.blob bp).refcnt + 1 < 2 ^ 31
  | .keyCreate bp _ => (c.blobs.blob bp).refcnt + 1 < 2 ^ 31
  | .versionCreate _ (some bp) => (c.blobs.blob bp).refcnt + 1 < 2 ^ 31
  | _ => True

/-- What the blobs count: the outstanding references and those that were lost. -/
def Client.counted (c : Client) (lost : ℕ → ℕ) (bp : ℕ) : ℕ := c.blobReferences bp + lost bp

variable {c c' : Client} {lost : ℕ → ℕ} {call : Call} {calls : List Call}

theorem Client.counted_pos (h : 0 < c.holdsBlob bp) : 0 < c.counted lost bp := by
  rw [Client.counted, Client.blobReferences]
  omega

/-- One more reference, which an object or the client holds now or which is lost. -/
private theorem BlobsCounted.gained {lost' : ℕ → ℕ}
    (counted : BlobsCounted s (gain (c.counted lost) bp))
    (h : ∀ a, c'.counted lost' a = c.counted lost a + if bp = a then 1 else 0) :
    BlobsCounted s (c'.counted lost') := by
  rw [eq_gain h]
  exact counted

/-- A reference less, which is released. -/
private theorem BlobsCounted.released (counted : BlobsCounted c.blobs (c.counted lost))
    (hrelease : c.blobs.release bp = .ok s)
    (h : ∀ a, c.counted lost a = c'.counted lost a + if bp = a then 1 else 0) :
    BlobsCounted s (c'.counted lost) := by
  rw [eq_lose h]
  exact counted.release (pos_of_eq_add h) hrelease

/-- What one call does to the counts. -/
theorem blobs_counted_step (step : c.Step call c') (fits : c.BlobFits call)
    (counted : BlobsCounted c.blobs (c.counted lost)) :
    BlobsCounted c'.blobs
      (c'.counted fun bp => lost bp + if call.inherits bp then 1 else 0) := by
  obtain ⟨may, fuel, h⟩ := step
  cases call with
  | transCreate =>
    obtain rfl := Except.ok.inj h
    exact counted
  | transRef tp | transUnref tp | transAddDependency tp dtp | transCommit tp | transAbort tp =>
    -- the calls of the manager leave the blobs and their references alone
    obtain ⟨m, -, h⟩ := bind_eq_ok h
    obtain rfl := Except.ok.inj h
    exact counted
  | blobCreate content size =>
    obtain rfl := Except.ok.inj h
    refine (counted.create content size).gained fun a => ?_
    simp only [Client.counted, Client.blobReferences, gain_add, Call.inherits, Bool.false_eq_true,
      if_false]
    omega
  | blobRef bp =>
    obtain rfl := Except.ok.inj h
    refine (counted.addReference (Nat.add_pos_left may _) fits).gained fun a => ?_
    simp only [Client.counted, Client.blobReferences, gain_add, Call.inherits, Bool.false_eq_true,
      if_false]
    omega
  | blobUnref bp =>
    obtain ⟨s, hrelease, h⟩ := bind_eq_ok h
    obtain rfl := Except.ok.inj h
    refine counted.released hrelease fun a => ?_
    simp only [Client.counted, Client.blobReferences]
    rw [lose_add may a]
    omega
  | keyCreate bp behind =>
    obtain rfl := Except.ok.inj h
    -- the key gets a reference of its own, and the one of the caller is lost
    refine (counted.addReference (Client.counted_pos may) fits).gained fun a => ?_
    simp only [Client.counted, Client.blobReferences, List.countP_cons, Call.inherits,
      decide_eq_true_eq]
    rw [lose_add may a]
    omega
  | keyDispose kp =>
    obtain ⟨s, hrelease, h⟩ := bind_eq_ok h
    obtain rfl := Except.ok.inj h
    refine counted.released hrelease fun a => ?_
    have herase := countP_erase_add (fun kp => decide (kp.blob = a)) may
    simp only [decide_eq_true_eq] at herase
    simp only [Client.counted, Client.blobReferences]
    omega
  | versionCreate tp bp =>
    obtain ⟨-, rfl⟩ := Client.versionCreate_of_ok h
    cases bp with
    | none =>
      refine Eq.mp (congrArg (BlobsCounted _) (funext fun a => ?_)) counted
      simp [Client.counted, Client.blobReferences, Call.inherits]
    | some bp =>
      -- as for a key
      have hholds : 0 < c.holdsBlob bp := may.2 bp rfl
      refine (counted.addReference (Client.counted_pos hholds) fits).gained fun a => ?_
      simp only [Client.counted, Client.blobReferences, List.countP_cons, Call.inherits,
        Option.elim_some, decide_eq_true_eq, Option.some.injEq]
      rw [lose_add hholds a]
      omega
  | versionDispose vp =>
    obtain ⟨bp, s, hbp, -, hrelease, rfl⟩ := Client.versionDispose_of_ok h
    refine counted.released hrelease fun a => ?_
    have herase := countP_erase_add (fun vp => decide (vp.blob = some a)) may
    simp only [decide_eq_true_eq, hbp, Option.some.injEq] at herase
    simp only [Client.counted, Client.blobReferences]
    omega

/-- The references to a blob that the calls of a run have lost. -/
def lostReferences (calls : List Call) (bp : ℕ) : ℕ := calls.countP (Call.inherits bp)

/-- Every blob counts its outstanding references and those that were lost, in every run in which the
counts fit. -/
theorem blobs_counted_run
    (run : Run (fun c call c' => c.Step call c' ∧ c.BlobFits call) c calls c')
    (counted : BlobsCounted c.blobs (c.counted lost)) :
    BlobsCounted c'.blobs (c'.counted fun bp => lost bp + lostReferences calls bp) := by
  induction run generalizing lost with
  | nil c => exact counted
  | @cons c c₁ c' call calls first _ ih =>
    have hstep := ih (blobs_counted_step first.1 first.2 counted)
    refine Eq.mp (congrArg (BlobsCounted _) (funext fun a => ?_)) hstep
    simp only [Client.counted, lostReferences, List.countP_cons]
    omega

theorem blobs_counted_initial :
    BlobsCounted Client.initial.blobs (Client.initial.counted fun _ => 0) where
  known _ h := absurd h (Nat.lt_irrefl 0)
  kept _ hpos hlt := absurd hlt (Nat.not_lt.mpr hpos)
  count _ h := absurd h (Nat.lt_irrefl 0)
  bound _ := Nat.two_pow_pos 31
  fresh_pos := Nat.one_pos

/-- The calls that get the counts right: none inherits a reference, none disposes of a version
without a blob, and the counts fit. -/
def Client.BlobSafe (c : Client) : Call → Prop
  | .blobRef bp => (c.blobs.blob bp).refcnt + 1 < 2 ^ 31
  | .keyCreate _ _ => False
  | .versionCreate _ bp => bp = none
  | .versionDispose vp => vp.blob ≠ none
  | _ => True

instance decidableBlobSafe (c : Client) : (call : Call) → Decidable (c.BlobSafe call)
  | .blobRef _ => Int.decLt ..
  | .keyCreate _ _ => instDecidableFalse
  | .versionCreate _ bp => inferInstanceAs (Decidable (bp = none))
  | .versionDispose vp => inferInstanceAs (Decidable (vp.blob ≠ none))
  | .transCreate | .transRef _ | .transUnref _ | .transAddDependency _ _ | .transCommit _
  | .transAbort _ | .blobCreate _ _ | .blobUnref _ | .keyDispose _ => instDecidableTrue

theorem Client.BlobSafe.fits (h : c.BlobSafe call) : c.BlobFits call := by
  cases call with
  | blobRef bp => exact h
  | keyCreate bp behind => exact h.elim
  | versionCreate tp bp =>
    obtain rfl : bp = none := h
    trivial
  | _ => trivial

theorem Client.BlobSafe.inherits (h : c.BlobSafe call) (bp : ℕ) : call.inherits bp = false := by
  cases call with
  | keyCreate bp behind => exact h.elim
  | versionCreate tp bp =>
    obtain rfl : bp = none := h
    rfl
  | _ => rfl

/-- Every blob counts its outstanding references, and is freed when none is left. -/
def Client.BlobsBalanced (c : Client) : Prop :=
  ∀ bp, 0 < bp → bp < c.blobs.fresh →
    ((c.blobs.blob bp).freed = false → (c.blobs.blob bp).refcnt = c.blobReferences bp) ∧
      ((c.blobs.blob bp).freed = true ↔ c.blobReferences bp = 0)

/-! ### Null blobs -/

/-- The computation does not dereference a null blob. -/
private def NoNull {β : Type} (x : Except Stop β) : Prop :=
  Ensures (· ≠ .nullBlob) (fun _ => True) x

private theorem NoNull.ok {β : Type} (a : β) : NoNull (.ok a : Except Stop β) :=
  Ensures.ok trivial

private theorem NoNull.bind {β γ : Type} {x : Except Stop β} {f : β → Except Stop γ}
    (hx : NoNull x) (hf : ∀ a, NoNull (f a)) : NoNull (x >>= f) :=
  Ensures.bind hx fun a _ => hf a

private theorem noNull_lock (m : Manager) (tp : ℕ) : NoNull (m.lock tp) := by
  rw [Manager.lock]
  split
  · exact .error (by decide)
  · exact .ok _

private theorem noNull_unref (m : Manager) (tp : ℕ) : NoNull (transUnref m tp) := by
  rw [transUnref]
  refine (noNull_lock m tp).bind fun m => ?_
  split
  · rw [Manager.free]
    split
    · exact .error (by decide)
    · exact .ok _
  · exact .ok _

private theorem noNull_release (s : Blobs) (bp : ℕ) : NoNull (s.release bp) := by
  rw [Blobs.release, Blobs.free]
  split
  · split
    · exact .error (by decide)
    · exact .ok _
  · exact .ok _

private theorem noNull_finish (m : Manager) (tp : ℕ) : NoNull (finishCommit m tp) := by
  rw [finishCommit]
  exact (noNull_unref _ tp).bind fun _ => .ok _

private theorem noNull_poll (fuel : ℕ) (m : Manager) (tp : ℕ) (d : List ℕ) (flag : Bool) :
    NoNull (pollDependencies fuel m tp d flag) := by
  induction fuel generalizing d flag with
  | zero => exact .error nofun
  | succ fuel ih =>
    cases d with
    | nil =>
      rw [pollDependencies]
      exact (noNull_unref _ tp).bind fun _ => .ok _
    | cons d rest =>
      rw [pollDependencies]
      split
      · exact .ok _
      · exact noNull_finish m tp
      · exact ih _ _

private theorem noNull_commit (fuel : ℕ) (m : Manager) (tp : ℕ) :
    NoNull (transCommit fuel m tp) := by
  rw [transCommit]
  refine (noNull_lock m tp).bind fun m => ?_
  split
  · exact noNull_finish m tp
  · exact noNull_poll fuel m tp _ _

private theorem noNull_scan (fuel : ℕ) (m : Manager) (tp : ℕ) (rest : List ℕ) :
    NoNull (scanDependencies fuel m tp rest) := by
  induction fuel with
  | zero => exact .error nofun
  | succ fuel ih =>
    cases rest with
    | nil => exact .ok _
    | cons d rest =>
      rw [scanDependencies]
      split
      · exact .ok _
      · exact ih

private theorem noNull_cascade (fuel : ℕ) :
    (∀ m tp, NoNull (transAbort fuel m tp)) ∧ ∀ m tp a, NoNull (abortDependents fuel m tp a) := by
  -- the two functions call each other, so both hold for the same fuel
  induction fuel with
  | zero => exact ⟨fun _ _ => .error (by decide), fun _ _ _ => .error (by decide)⟩
  | succ fuel ih =>
    obtain ⟨habort, hwalk⟩ := ih
    constructor
    · intro m tp
      rw [transAbort]
      refine (noNull_lock m tp).bind fun m => ?_
      split
      · exact .error (by decide)
      · exact noNull_unref _ tp
      · exact (hwalk _ tp 0).bind fun m => noNull_unref _ tp
    · intro m tp a
      rw [abortDependents]
      split
      · exact .ok _
      · split
        · exact hwalk m tp _
        · split
          · exact hwalk m tp _
          · split
            · exact (habort m _).bind fun m => hwalk m tp _
            · refine (noNull_scan fuel m tp _).bind fun found => ?_
              split
              · exact (habort m _).bind fun m => hwalk m tp _
              · exact hwalk m tp _

/-- Only disposing of a version without a blob dereferences a null blob. -/
theorem noNull_perform (fuel : ℕ) (c : Client) (call : Call)
    (h : ∀ vp, call = .versionDispose vp → vp.blob ≠ none) :
    c.perform fuel call ≠ .error .nullBlob := by
  have hnull : NoNull (c.perform fuel call) := by
    cases call with
    | transCreate => exact .ok _
    | transRef tp => exact NoNull.bind ((noNull_lock _ tp).bind fun _ => .ok _) fun _ => .ok _
    | transUnref tp => exact (noNull_unref _ tp).bind fun _ => .ok _
    | transAddDependency tp dtp =>
      exact NoNull.bind ((noNull_lock _ tp).bind fun _ => (noNull_lock _ dtp).bind fun _ => .ok _)
        fun _ => .ok _
    | transCommit tp => exact (noNull_commit fuel _ tp).bind fun _ => .ok _
    | transAbort tp => exact ((noNull_cascade fuel).1 _ tp).bind fun _ => .ok _
    | blobCreate content size => exact .ok _
    | blobRef bp => exact .ok _
    | blobUnref bp => exact (noNull_release _ bp).bind fun _ => .ok _
    | keyCreate bp behind => exact .ok _
    | keyDispose kp => exact (noNull_release _ _).bind fun _ => .ok _
    | versionCreate tp bp =>
      cases bp with
      | none => exact NoNull.bind ((noNull_lock _ tp).bind fun _ => .ok _) fun _ => .ok _
      | some bp => exact NoNull.bind ((noNull_lock _ tp).bind fun _ => .ok _) fun _ => .ok _
    | versionDispose vp =>
      -- the only call whose blob may be null
      obtain ⟨bp, hbp⟩ := Option.ne_none_iff_exists'.mp (h vp rfl)
      refine NoNull.bind ?_ fun _ => .ok _
      rw [versionDispose, hbp]
      exact (noNull_lock _ _).bind fun _ => (noNull_release _ bp).bind fun _ => .ok _
  intro herror
  rw [herror] at hnull
  cases hnull with
  | error hne => exact hne rfl

/-- In every run of such calls the counts are right in the state reached, and no further such call
dereferences a null blob. -/
theorem blobs_balanced
    (run : Run (fun c call c' => c.Step call c' ∧ c.BlobSafe call) Client.initial calls c) :
    c.BlobsBalanced ∧
      ∀ fuel call, c.may call → c.BlobSafe call → c.perform fuel call ≠ .error .nullBlob := by
  have hlost : ∀ bp, lostReferences calls bp = 0 := by
    intro bp
    have hall := run.forall_label fun _ call _ hstep => hstep.2.inherits bp
    rw [lostReferences, List.countP_eq_zero]
    intro call hcall
    rw [hall call hcall]
    exact Bool.false_ne_true
  have hcounted := blobs_counted_run (run.mono fun _ _ _ hstep => ⟨hstep.1, hstep.2.fits⟩)
    blobs_counted_initial
  simp only [hlost, Nat.add_zero] at hcounted
  refine ⟨fun bp hpos hlt => ?_, fun fuel call _ hsafe => ?_⟩
  · have hkept := hcounted.kept bp hpos hlt
    refine ⟨fun hfreed => hcounted.count bp (hkept.mp hfreed), ?_⟩
    rw [← Bool.not_eq_false, hkept]
    exact Nat.not_lt.trans Nat.le_zero
  · refine noNull_perform fuel c call ?_
    rintro vp rfl
    exact hsafe

theorem blobs_balanced_example :
    ∃ c, Run (fun c call c' => c.Step call c' ∧ c.BlobSafe call) Client.initial
      [.blobCreate [97, 0] 2, .blobRef 1, .blobUnref 1] c ∧ c.BlobsBalanced := by
  have hrun : ([.blobCreate [97, 0] 2, .blobRef 1, .blobUnref 1].foldlM
      (Client.next Client.BlobSafe 0) Client.initial).isSome := by decide
  obtain ⟨c, hc⟩ := Option.isSome_iff_exists.mp hrun
  have hrun := Run.of_foldlM Client.step_of_next hc
  exact ⟨c, hrun, (blobs_balanced hrun).1⟩

/-- A key for the only reference to a blob: the blob counts two. -/
theorem keyCreate_counts_twice :
    ∃ c, Run Client.Step Client.initial [.blobCreate [97, 0] 2, .keyCreate 1 []] c ∧
      (c.blobs.blob 1).refcnt = 2 ∧ c.blobReferences 1 = 1 := by
  have hrun : (([.blobCreate [97, 0] 2, .keyCreate 1 []].foldlM
      (Client.next (fun _ _ => True) 0) Client.initial).map
        fun c => ((c.blobs.blob 1).refcnt, c.blobReferences 1)) = some (2, 1) := by decide
  obtain ⟨c, hrun, hcounts⟩ := Run.exists_of_foldlM
    (fun c call c' h => (Client.step_of_next c call c' h).1) hrun
  obtain ⟨hrefcnt, hrefs⟩ := Prod.mk.inj hcounts
  exact ⟨c, hrun, hrefcnt, hrefs⟩

end CLanguage.Xacto
