import Mathlib.Data.Nat.Notation
import Mathlib.Logic.Basic

/-!
# Computations that report errors and go on

A `Reporting ε σ α` works on a state `σ`, may stop with `ε`, and otherwise
delivers a value together with the number of errors that it reported.
`Clean x s a s'` says that `x` delivers `a` without a report. Counts only add up,
so a clean run of a sequence consists of clean runs of its parts (`clean_bind`),
whatever the parts do when they report. `Follows` and `Keeps` are what a clean run
has to do with other runs and with an invariant; both are passed on by `>>=`.
-/

namespace CLanguage.Lib

/-- A computation on a state that may stop and that counts its reports. -/
def Reporting (ε σ α : Type) : Type := σ → Except ε (α × ℕ × σ)

namespace Reporting

variable {ε σ α β : Type} {x : Reporting ε σ α} {f : α → Reporting ε σ β} {s s' s'' : σ}
  {a a' : α} {b : β}

instance : Monad (Reporting ε σ) where
  pure a s := .ok (a, 0, s)
  bind x f s :=
    match x s with
    | .error e => .error e
    | .ok (a, n, s) =>
      match f a s with
      | .error e => .error e
      | .ok (b, m, s) => .ok (b, n + m, s)

/-- Report one error. -/
def report : Reporting ε σ Unit := fun s => .ok ((), 1, s)

/-- Stop. -/
def stop (e : ε) : Reporting ε σ α := fun _ => .error e

/-- `x` delivers `a` and reports nothing. -/
def Clean (x : Reporting ε σ α) (s : σ) (a : α) (s' : σ) : Prop := x s = .ok (a, 0, s')

theorem Clean.unique (h : Clean x s a s') (h' : Clean x s a' s'') : a = a' ∧ s' = s'' := by
  have heq := h.symm.trans h'
  rw [Except.ok.injEq, Prod.mk.injEq, Prod.mk.injEq] at heq
  exact ⟨heq.1, heq.2.2⟩

@[simp] theorem clean_pure : Clean (pure a : Reporting ε σ α) s a' s' ↔ a = a' ∧ s = s' := by
  constructor
  · intro h
    have heq : Except.ok (a, 0, s) = (Except.ok (a', 0, s') : Except ε _) := h
    simpa using heq
  · rintro ⟨rfl, rfl⟩
    rfl

@[simp] theorem not_clean_report {u : Unit} : ¬ Clean (report : Reporting ε σ Unit) s u s' := by
  intro h
  have heq : Except.ok ((), 1, s) = (Except.ok (u, 0, s') : Except ε _) := h
  simp at heq

@[simp] theorem not_clean_stop {e : ε} : ¬ Clean (stop e : Reporting ε σ α) s a s' := nofun

theorem clean_bind : Clean (x >>= f) s b s'' ↔ ∃ a s', Clean x s a s' ∧ Clean (f a) s' b s'' := by
  constructor
  · intro h
    have h : (match x s with
      | .error e => .error e
      | .ok (a, n, s) =>
        match f a s with
        | .error e => .error e
        | .ok (b, m, s) => .ok (b, n + m, s)) = Except.ok (b, 0, s'') := h
    rcases hx : x s with e | ⟨a, n, s₁⟩
    · rw [hx] at h
      exact absurd h nofun
    rw [hx] at h
    simp only at h
    rcases hf : f a s₁ with e | ⟨b₁, m, s₂⟩
    · rw [hf] at h
      exact absurd h nofun
    rw [hf] at h
    simp only [Except.ok.injEq, Prod.mk.injEq] at h
    obtain ⟨rfl, hcount, rfl⟩ := h
    -- neither part has reported anything
    obtain ⟨rfl, rfl⟩ := Nat.add_eq_zero_iff.mp hcount
    exact ⟨a, s₁, hx, hf⟩
  · rintro ⟨a, s₁, hx, hf⟩
    rw [Clean] at hx hf ⊢
    simp only [bind, hx, hf]

theorem clean_seq {x : Reporting ε σ Unit} {f : Unit → Reporting ε σ β} :
    Clean (x >>= f) s b s'' ↔ ∃ s', Clean x s () s' ∧ Clean (f ()) s' b s'' := by
  rw [clean_bind]
  constructor
  · rintro ⟨⟨⟩, s', hx, hf⟩
    exact ⟨s', hx, hf⟩
  · rintro ⟨s', hx, hf⟩
    exact ⟨(), s', hx, hf⟩

theorem Clean.bind (hx : Clean x s a s') (hf : Clean (f a) s' b s'') : Clean (x >>= f) s b s'' :=
  clean_bind.mpr ⟨a, s', hx, hf⟩

theorem clean_ite {c : Prop} [Decidable c] {y z : Reporting ε σ α} :
    Clean (if c then y else z) s a s' ↔ if c then Clean y s a s' else Clean z s a s' := by
  split <;> rfl

/-- What follows a computation whose clean run is known. -/
theorem Clean.bind_iff (hx : Clean x s a s') :
    Clean (x >>= f) s b s'' ↔ Clean (f a) s' b s'' := by
  constructor
  · intro h
    obtain ⟨a₁, s₁, hx₁, hf⟩ := clean_bind.mp h
    obtain ⟨rfl, rfl⟩ := hx.unique hx₁
    exact hf
  · exact hx.bind

theorem bind_apply : (x >>= f) s =
    match x s with
    | .error e => .error e
    | .ok (a, n, s) =>
      match f a s with
      | .error e => .error e
      | .ok (b, m, s) => .ok (b, n + m, s) := rfl

theorem pure_apply : (pure a : Reporting ε σ α) s = .ok (a, 0, s) := rfl

/-- What follows a part that reports nothing is all that counts. -/
theorem Clean.bind_apply (hx : Clean x s a s') : (x >>= f) s = f a s' := by
  have hx : x s = .ok (a, 0, s') := hx
  rw [Reporting.bind_apply, hx]
  dsimp only
  rcases f a s' with e | ⟨b, m, t⟩
  · rfl
  · simp only [Nat.zero_add]

/-- Sequences can be regrouped: the counts add up to the same. -/
instance : LawfulMonad (Reporting ε σ) := by
  refine LawfulMonad.mk' _ (fun x => ?_) (fun a f => ?_) fun x f g => ?_
  · funext s
    change (x >>= pure) s = x s
    rw [bind_apply]
    rcases x s with e | ⟨a, n, s⟩ <;> rfl
  · funext s
    rw [bind_apply, pure_apply]
    rcases hf : f a s with e | ⟨b, m, s⟩
    · simp [hf]
    · simp [hf]
  · funext s
    rw [bind_apply, bind_apply, bind_apply]
    rcases x s with e | ⟨a, n, s⟩
    · rfl
    simp only [bind_apply]
    rcases f a s with e | ⟨b, m, s⟩
    · rfl
    simp only
    rcases g b s with e | ⟨c, k, s⟩
    · rfl
    · simp only [Nat.add_assoc]

/-! ## Runs from related states -/

section Follows

variable {R : σ → σ → Prop}

/-- A clean run can be followed from every state that is related to its start. -/
def Follows (R : σ → σ → Prop) (x : Reporting ε σ α) : Prop :=
  ∀ s t a s', R s t → Clean x s a s' → ∃ t', R s' t' ∧ Clean x t a t'

theorem Follows.bind (hx : Follows R x) (hf : ∀ a, Follows R (f a)) : Follows R (x >>= f) := by
  intro s t b s'' hst hrun
  obtain ⟨a, s', hx', hf'⟩ := clean_bind.mp hrun
  obtain ⟨t', hst', hxt⟩ := hx s t a s' hst hx'
  obtain ⟨t'', hst'', hft⟩ := hf a s' t' b s'' hst' hf'
  exact ⟨t'', hst'', hxt.bind hft⟩

theorem Follows.pure (a : α) : Follows R (pure a : Reporting ε σ α) := by
  intro s t b s' hst hrun
  obtain ⟨rfl, rfl⟩ := clean_pure.mp hrun
  exact ⟨t, hst, clean_pure.mpr ⟨rfl, rfl⟩⟩

theorem Follows.report : Follows R (report : Reporting ε σ Unit) :=
  fun _ _ _ _ _ hrun => absurd hrun not_clean_report

theorem Follows.stop (e : ε) : Follows R (stop e : Reporting ε σ α) :=
  fun _ _ _ _ _ hrun => absurd hrun not_clean_stop

theorem Follows.ite {c : Prop} [Decidable c] {y z : Reporting ε σ α} (hy : Follows R y)
    (hz : Follows R z) : Follows R (if c then y else z) := by
  split
  · exact hy
  · exact hz

end Follows

/-! ## Invariants -/

section Keeps

variable {I : σ → Prop} {P : α → Prop} {Q : β → Prop}

/-- A clean run keeps `I`, and what it delivers has `P`. -/
def Keeps (I : σ → Prop) (x : Reporting ε σ α) (P : α → Prop) : Prop :=
  ∀ s a s', I s → Clean x s a s' → I s' ∧ P a

theorem Keeps.bind (hx : Keeps I x P) (hf : ∀ a, P a → Keeps I (f a) Q) : Keeps I (x >>= f) Q := by
  intro s b s'' hs hrun
  obtain ⟨a, s', hx', hf'⟩ := clean_bind.mp hrun
  obtain ⟨hs', ha⟩ := hx s a s' hs hx'
  exact hf a ha s' b s'' hs' hf'

theorem Keeps.pure (h : P a) : Keeps I (pure a : Reporting ε σ α) P := by
  intro s b s' hs hrun
  obtain ⟨rfl, rfl⟩ := clean_pure.mp hrun
  exact ⟨hs, h⟩

theorem Keeps.report {P : Unit → Prop} : Keeps I (report : Reporting ε σ Unit) P :=
  fun _ _ _ _ hrun => absurd hrun not_clean_report

/-- Behind a report there is no clean run. -/
theorem Keeps.report_bind {f : Unit → Reporting ε σ β} : Keeps I (Reporting.report >>= f) Q := by
  intro s b s' _ hrun
  obtain ⟨s₁, hreport, -⟩ := clean_seq.mp hrun
  exact absurd hreport not_clean_report

theorem Keeps.stop (e : ε) : Keeps I (stop e : Reporting ε σ α) P :=
  fun _ _ _ _ hrun => absurd hrun not_clean_stop

theorem Keeps.ite {c : Prop} [Decidable c] {y z : Reporting ε σ α} (hy : c → Keeps I y P)
    (hz : ¬ c → Keeps I z P) : Keeps I (if c then y else z) P := by
  split
  · next h => exact hy h
  · next h => exact hz h

end Keeps

/-! ## More clean runs -/

section Refines

/-- Every clean run of `x` is one of `y`. -/
def Refines (x y : Reporting ε σ α) : Prop := ∀ s a s', Clean x s a s' → Clean y s a s'

theorem Refines.refl (x : Reporting ε σ α) : Refines x x := fun _ _ _ => id

theorem Refines.bind {y : Reporting ε σ α} {g : α → Reporting ε σ β} (hx : Refines x y)
    (hf : ∀ a, Refines (f a) (g a)) : Refines (x >>= f) (y >>= g) := by
  intro s b s'' hrun
  obtain ⟨a, s', hx', hf'⟩ := clean_bind.mp hrun
  exact (hx s a s' hx').bind (hf a s' b s'' hf')

theorem Refines.ite {c : Prop} [Decidable c] {y x' y' : Reporting ε σ α} (h : Refines x y)
    (h' : Refines x' y') : Refines (if c then x else x') (if c then y else y') := by
  split
  · exact h
  · exact h'

theorem Refines.stop (e : ε) (y : Reporting ε σ α) : Refines (stop e) y :=
  fun _ _ _ hrun => absurd hrun not_clean_stop

end Refines

/-! ## Computations with fuel -/

section Fuel

/-- With fuel enough the run is clean. -/
def Settles (x : ℕ → Reporting ε σ α) (s : σ) (a : α) (s' : σ) : Prop :=
  ∃ n, ∀ m ≥ n, Clean (x m) s a s'

theorem Clean.settles (hx : Clean x s a s') : Settles (fun _ => x) s a s' := ⟨0, fun _ _ => hx⟩

theorem Settles.bind {x : ℕ → Reporting ε σ α} {f : ℕ → α → Reporting ε σ β} (hx : Settles x s a s')
    (hf : Settles (fun n => f n a) s' b s'') : Settles (fun n => x n >>= f n) s b s'' := by
  obtain ⟨n, hn⟩ := hx
  obtain ⟨m, hm⟩ := hf
  refine ⟨max n m, fun k hk => ?_⟩
  exact (hn k (Nat.le_trans (Nat.le_max_left n m) hk)).bind
    (hm k (Nat.le_trans (Nat.le_max_right n m) hk))

/-- A recursion settles if its body does. -/
theorem Settles.of_succ {x : ℕ → Reporting ε σ α} (h : Settles (fun n => x (n + 1)) s a s') :
    Settles x s a s' := by
  obtain ⟨n, hn⟩ := h
  refine ⟨n + 1, fun m hm => ?_⟩
  obtain ⟨k, rfl⟩ := Nat.exists_eq_add_of_le' hm
  exact hn (k + n) (Nat.le_add_left n k)

end Fuel

end Reporting

end CLanguage.Lib
