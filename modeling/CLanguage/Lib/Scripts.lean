import CLanguage.Lib.Reporting
import Mathlib.Logic.Relation

/-!
# Programs over an interface

A `Script` is a program that uses a state only through operations. It has a meaning as a
computation that reports errors, given one for each operation (`interp`), and it can be
run step by step on other states, where an operation also changes the state when it stops
(`Work.Step`). An invariant holds along a run as long as the operations are used where
they keep it (`invariant_iff_fits`), and where a step agrees with the meaning of its
operation, a run ends with what the script means (`Reaches.result`).
-/

namespace CLanguage.Lib

variable {Op : Type → Type} {ε σ τ α β : Type}

/-- A program whose steps are the operations `Op`. -/
inductive Script (Op : Type → Type) (ε α : Type) : Type 1
  | ret (a : α)
  | stop (e : ε)
  | op {β : Type} (o : Op β) (next : β → Script Op ε α)

namespace Script

/-- `x` and then `f` on what it delivers. -/
def bind {α β : Type} : Script Op ε α → (α → Script Op ε β) → Script Op ε β
  | .ret a, f => f a
  | .stop e, _ => .stop e
  | .op o next, f => .op o fun b => (next b).bind f

instance : Monad (Script Op ε) where
  pure := .ret
  bind := bind

/-- An operation alone. -/
def call (o : Op β) : Script Op ε β := .op o .ret

/-! ### The meaning of a script -/

variable (handle : ∀ β, Op β → Reporting ε σ β)

/-- The computation that a script describes. -/
def interp : Script Op ε α → Reporting ε σ α
  | .ret a => pure a
  | .stop e => Reporting.stop e
  | .op o next => handle _ o >>= fun b => (next b).interp

@[simp] theorem interp_pure (a : α) :
    interp handle (pure a : Script Op ε α) = pure a := rfl

@[simp] theorem interp_stop (e : ε) :
    interp handle (.stop e : Script Op ε α) = Reporting.stop e := rfl

@[simp] theorem interp_call (o : Op β) : interp handle (call o : Script Op ε β) = handle β o :=
  bind_pure (handle β o)

@[simp] theorem interp_bind (x : Script Op ε α) (f : α → Script Op ε β) :
    interp handle (x >>= f) = interp handle x >>= fun a => interp handle (f a) := by
  induction x with
  | ret a =>
    change interp handle (f a) = (pure a : Reporting ε σ α) >>= fun a => interp handle (f a)
    rw [pure_bind]
  | stop e => rfl
  | op o next ih =>
    -- the rest of the script and `f` are one continuation
    change handle _ o >>= (fun b => interp handle (next b >>= f)) =
      (handle _ o >>= fun b => interp handle (next b)) >>= _
    rw [bind_assoc]
    exact bind_congr fun b => ih b

@[simp] theorem interp_ite {c : Prop} [Decidable c] (x y : Script Op ε α) :
    interp handle (if c then x else y) = if c then interp handle x else interp handle y := by
  split <;> rfl

end Script

/-! ### Runs -/

/-- A script at work on a state, with the number of errors reported so far. -/
structure Work (Op : Type → Type) (ε σ α : Type) : Type 1 where
  script : Script Op ε α
  state : σ
  reports : ℕ

namespace Work

variable (exec : ∀ β, Op β → σ → Except ε (β × ℕ) × σ)

/-- An operation is carried out, and delivers a value or stops. -/
inductive Step : Work Op ε σ α → Work Op ε σ α → Prop
  | next {β : Type} {o : Op β} {next : β → Script Op ε α} {s s' : σ} {b : β} {n m : ℕ}
      (h : exec β o s = (.ok (b, m), s')) : Step ⟨.op o next, s, n⟩ ⟨next b, s', n + m⟩
  | stop {β : Type} {o : Op β} {next : β → Script Op ε α} {s s' : σ} {e : ε} {n : ℕ}
      (h : exec β o s = (.error e, s')) : Step ⟨.op o next, s, n⟩ ⟨.stop e, s', n⟩

/-- The states of the run. -/
def Reaches (w w' : Work Op ε σ α) : Prop := Relation.ReflTransGen (Step exec) w w'

/-- The script is at its end. -/
def Ended : Work Op ε σ α → Prop
  | ⟨.ret _, _, _⟩ | ⟨.stop _, _, _⟩ => True
  | ⟨.op _ _, _, _⟩ => False

/-- The operation that comes next, if there is one, meets `Fits`. -/
def Fits (Fits : ∀ β, Op β → σ → Prop) : Work Op ε σ α → Prop
  | ⟨.ret _, _, _⟩ | ⟨.stop _, _, _⟩ => True
  | ⟨.op o _, s, _⟩ => Fits _ o s

/-- The operation that comes next reports an error or stops. -/
def Reports : Work Op ε σ α → Prop
  | ⟨.ret _, _, _⟩ | ⟨.stop _, _, _⟩ => False
  | ⟨.op o _, s, _⟩ => ∀ r, (exec _ o s).1 = .ok r → 0 < r.2

/-- The state after at most so many operations. -/
def advance : ℕ → Work Op ε σ α → Work Op ε σ α
  | steps + 1, ⟨.op o next, s, n⟩ =>
    match exec _ o s with
    | (.ok (b, m), s') => advance steps ⟨next b, s', n + m⟩
    | (.error e, s') => ⟨.stop e, s', n⟩
  | _, w => w

variable {exec} {w w' : Work Op ε σ α}

theorem reaches_advance (steps : ℕ) (w : Work Op ε σ α) :
    Reaches exec w (advance exec steps w) := by
  induction steps generalizing w with
  | zero => exact .refl
  | succ steps ih =>
    obtain ⟨script, s, n⟩ := w
    cases script with
    | ret a => exact .refl
    | stop e => exact .refl
    | op o next =>
      rw [advance]
      rcases h : exec _ o s with ⟨e | ⟨b, m⟩, s'⟩
      · exact .single (.stop h)
      · exact .head (.next h) (ih _)

/-- Every run ends. -/
theorem exists_ended (script : Script Op ε α) (s : σ) (n : ℕ) :
    ∃ w, Reaches exec ⟨script, s, n⟩ w ∧ w.Ended := by
  induction script generalizing s n with
  | ret a => exact ⟨_, .refl, trivial⟩
  | stop e => exact ⟨_, .refl, trivial⟩
  | op o next ih =>
    rcases h : exec _ o s with ⟨e | ⟨b, m⟩, s'⟩
    · exact ⟨_, .single (.stop h), trivial⟩
    · obtain ⟨w, hreach, hended⟩ := ih b s' (n + m)
      exact ⟨w, .head (.next h) hreach, hended⟩

section Invariant

variable {I : σ → Prop} {Fits : ∀ β, Op β → σ → Prop}

/-- If exactly the operations that fit keep the invariant, it holds all along a run if and only if
the operations of the run fit. -/
theorem invariant_iff_fits (keep : ∀ β (o : Op β) s, I s → (I (exec β o s).2 ↔ Fits β o s))
    (start : I w.state) :
    (∀ w', Reaches exec w w' → I w'.state) ↔ ∀ w', Reaches exec w w' → w'.Fits Fits := by
  constructor
  · rintro hinside ⟨script, s, n⟩ hreach
    cases script with
    | ret a => trivial
    | stop e => trivial
    | op o next =>
      -- the invariant after the operation shows that it fitted
      refine (keep _ o s (hinside _ hreach)).mp ?_
      rcases h : exec _ o s with ⟨e | ⟨b, m⟩, s'⟩
      · exact hinside _ (hreach.tail (.stop h))
      · exact hinside _ (hreach.tail (.next h))
  · intro hfits w' hreach
    induction hreach with
    | refl => exact start
    | tail hreach step ih =>
      have hfit := hfits _ hreach
      cases step with
      | next h | stop h =>
        have hkeep := (keep _ _ _ ih).mpr hfit
        rw [h] at hkeep
        exact hkeep

end Invariant

section Simulation

variable {I : σ → Prop} {Fits : ∀ β, Op β → σ → Prop} {handle : ∀ β, Op β → Reporting ε τ β}
  {abs : σ → τ}

/-- Carrying out the operation does what it means for the state that `abs` shows. -/
def Agrees (exec : ∀ β, Op β → σ → Except ε (β × ℕ) × σ) (handle : ∀ β, Op β → Reporting ε τ β)
    (abs : σ → τ) (o : Op β) (s : σ) : Prop :=
  handle β o (abs s) =
    match exec β o s with
    | (.ok (b, n), s') => .ok (b, n, abs s')
    | (.error e, _) => .error e

/-- What the script will have delivered in the end. -/
def result (handle : ∀ β, Op β → Reporting ε τ β) (abs : σ → τ) (w : Work Op ε σ α) :
    Except ε (α × ℕ × τ) :=
  (w.script.interp handle (abs w.state)).map fun r => (r.1, w.reports + r.2.1, r.2.2)

theorem Step.result_eq (step : Step exec w w')
    (agrees : w.Fits fun _ o s => Agrees exec handle abs o s) :
    w'.result handle abs = w.result handle abs := by
  cases step with
  | @next β o next s s' b n m h =>
    have hagrees : handle β o (abs s) = .ok (b, m, abs s') := by
      have hhandle : Agrees exec handle abs o s := agrees
      rw [Agrees, h] at hhandle
      exact hhandle
    simp only [Work.result, Script.interp, Reporting.bind_apply, hagrees]
    rcases (next b).interp handle (abs s') with e | ⟨a, k, t⟩
    · rfl
    · simp only [Except.map, Nat.add_assoc]
  | @stop β o next s s' e n h =>
    have hagrees : handle β o (abs s) = .error e := by
      have hhandle : Agrees exec handle abs o s := agrees
      rw [Agrees, h] at hhandle
      exact hhandle
    simp only [Work.result, Script.interp, Reporting.bind_apply, hagrees]
    rfl

/-- If the operations that fit agree with their meaning, a run whose operations fit does what the
script means. -/
theorem Reaches.result_eq (hreach : Reaches exec w w')
    (keep : ∀ β (o : Op β) s, I s → (I (exec β o s).2 ↔ Fits β o s))
    (agrees : ∀ β (o : Op β) s, I s → Fits β o s → Agrees exec handle abs o s)
    (start : I w.state) (fits : ∀ w', Reaches exec w w' → w'.Fits Fits) :
    w'.result handle abs = w.result handle abs := by
  induction hreach with
  | refl => rfl
  | @tail v v' hreach step ih =>
    rw [← ih]
    refine step.result_eq ?_
    obtain ⟨script, s, n⟩ := v
    cases script with
    | ret a => trivial
    | stop e => trivial
    | op o next =>
      have hinside := (invariant_iff_fits keep start).mpr fits
      exact agrees _ o s (hinside _ hreach) (fits _ hreach)

end Simulation

end Work

end CLanguage.Lib
