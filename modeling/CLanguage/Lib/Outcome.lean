import Mathlib.Logic.Basic

/-!
# Postconditions of computations that may fail

`Ensures tolerated P x` says that the computation `x` either returns a value
that satisfies `P` or fails with a tolerated error: total correctness, up to the
errors that the caller accepts. `Ensures.bind` is the rule of sequential
composition.
-/

namespace CLanguage.Lib

universe u v

variable {ε : Type u} {α β : Type v} {tolerated : ε → Prop} {P Q : α → Prop}

/-- `x` returns a value satisfying `P`, or fails with a tolerated error. -/
inductive Ensures (tolerated : ε → Prop) (P : α → Prop) : Except ε α → Prop
  | ok {a : α} (h : P a) : Ensures tolerated P (.ok a)
  | error {e : ε} (h : tolerated e) : Ensures tolerated P (.error e)

theorem Ensures.of_pure {a : α} (h : P a) :
    Ensures tolerated P (pure a : Except ε α) := .ok h

theorem Ensures.mono {x : Except ε α} (hx : Ensures tolerated P x) (h : ∀ a, P a → Q a) :
    Ensures tolerated Q x := by
  cases hx with
  | ok ha => exact .ok (h _ ha)
  | error he => exact .error he

theorem Ensures.bind {R : β → Prop} {x : Except ε α} {f : α → Except ε β}
    (hx : Ensures tolerated P x) (hf : ∀ a, P a → Ensures tolerated R (f a)) :
    Ensures tolerated R (x >>= f) := by
  cases hx with
  | ok ha => exact hf _ ha
  | error he => exact .error he

/-- Where every error is tolerated, the rest may use that the first computation returned. -/
theorem Ensures.bind_of_eq {R : β → Prop} {x : Except ε α} {f : α → Except ε β}
    (herror : ∀ e, tolerated e) (hf : ∀ a, x = .ok a → Ensures tolerated R (f a)) :
    Ensures tolerated R (x >>= f) := by
  cases x with
  | ok a => exact hf a rfl
  | error e => exact .error (herror e)

theorem Ensures.ite {c : Prop} [Decidable c] {x y : Except ε α} (hx : c → Ensures tolerated P x)
    (hy : ¬ c → Ensures tolerated P y) : Ensures tolerated P (if c then x else y) := by
  split
  · next h => exact hx h
  · next h => exact hy h

/-- What is ensured holds of the value that is returned. -/
theorem Ensures.of_ok {x : Except ε α} {a : α} (hx : Ensures tolerated P x) (h : x = .ok a) :
    P a := by
  subst h
  cases hx with
  | ok ha => exact ha

/-- A computation that does not fail with the tolerated error returns. -/
theorem Ensures.returns {x : Except ε α} {e : ε} (hx : Ensures (· = e) P x) (h : x ≠ .error e) :
    ∃ a, x = .ok a ∧ P a := by
  cases hx with
  | ok ha => exact ⟨_, rfl, ha⟩
  | error he => exact absurd (by rw [he]) h

/-- A sequential composition that returns has run both computations. -/
theorem bind_eq_ok {x : Except ε α} {f : α → Except ε β} {b : β} (h : x >>= f = .ok b) :
    ∃ a, x = .ok a ∧ f a = .ok b := by
  cases x with
  | error e => exact absurd h nofun
  | ok a => exact ⟨a, rfl, h⟩

theorem ok_bind (a : α) (f : α → Except ε β) : (Except.ok a >>= f) = f a := rfl

theorem bind_ok {x : Except ε α} {f : α → Except ε β} {a : α} {y : Except ε β} (h : x = .ok a)
    (hf : f a = y) : x >>= f = y := by
  subst h
  exact hf

theorem bind_error {x : Except ε α} {f : α → Except ε β} {e : ε} (h : x = .error e) :
    x >>= f = .error e := by
  subst h
  rfl

/-- A sequential composition that fails has failed in one of its parts. -/
theorem bind_eq_error {x : Except ε α} {f : α → Except ε β} {e : ε} (h : x >>= f = .error e) :
    x = .error e ∨ ∃ a, x = .ok a ∧ f a = .error e := by
  cases x with
  | error e' =>
    obtain rfl : e' = e := Except.error.inj h
    exact Or.inl rfl
  | ok a => exact Or.inr ⟨a, rfl, h⟩

/-- A result found by evaluation. -/
theorem ok_of_toOption {x : Except ε α} {a : α} (h : x.toOption = some a) : x = .ok a := by
  cases x with
  | error e => exact absurd h nofun
  | ok b => exact congrArg Except.ok (Option.some.inj h)

end CLanguage.Lib
