import Mathlib.Logic.Basic

/-!
# Runs of labelled transition systems

`Run step s as s'` says that the steps labelled `as` lead from `s` to `s'`.
What every step keeps, every run keeps (`Run.invariant`), and runs are simulated step
by step (`Run.simulate`). A run can be found by evaluating a function that is sound for
the step relation (`Run.of_foldlM`).
-/

namespace CLanguage.Lib

variable {σ α : Type*} {step step' : σ → α → σ → Prop} {s s' s'' : σ} {a : α} {as bs : List α}

/-- A finite run, with the labels of its steps. -/
inductive Run (step : σ → α → σ → Prop) : σ → List α → σ → Prop
  | nil (s : σ) : Run step s [] s
  | cons {s s' s'' : σ} {a : α} {as : List α} (first : step s a s')
      (rest : Run step s' as s'') : Run step s (a :: as) s''

/-- An invariant of the steps is an invariant of the runs. -/
theorem Run.invariant {I : σ → Prop} (run : Run step s as s')
    (keep : ∀ s a s', I s → step s a s' → I s') (start : I s) : I s' := by
  induction run with
  | nil => exact start
  | cons first _ ih => exact ih (keep _ _ _ start first)

/-- An invariant of the states and of the labels so far. -/
theorem Run.invariant_labels {I : List α → σ → Prop} {done : List α} (run : Run step s as s')
    (keep : ∀ as s a s', I as s → step s a s' → I (as ++ [a]) s') (start : I done s) :
    I (done ++ as) s' := by
  induction run generalizing done with
  | nil => rwa [List.append_nil]
  | cons first _ ih =>
    have hrest := ih (keep _ _ _ _ start first)
    rwa [List.append_assoc, List.singleton_append] at hrest

theorem Run.mono (run : Run step s as s') (h : ∀ s a s', step s a s' → step' s a s') :
    Run step' s as s' := by
  induction run with
  | nil s => exact .nil s
  | cons first _ ih => exact .cons (h _ _ _ first) ih

theorem Run.append (run : Run step s as s') (run' : Run step s' bs s'') :
    Run step s (as ++ bs) s'' := by
  induction run with
  | nil => exact run'
  | cons first _ ih => exact .cons first (ih run')

/-- What every step asks of its label, all labels of a run have. -/
theorem Run.forall_label {P : α → Prop} (run : Run step s as s')
    (h : ∀ s a s', step s a s' → P a) : ∀ a ∈ as, P a := by
  induction run with
  | nil => exact fun a ha => absurd ha List.not_mem_nil
  | cons first _ ih => exact List.forall_mem_cons.mpr ⟨h _ _ _ first, ih⟩

/-- Forward simulation: steps answered by steps of related states give a run of the answers. -/
theorem Run.simulate {τ β : Type*} {answer : τ → β → τ → Prop} {f : α → β} {R : σ → τ → Prop}
    {t : τ} (run : Run step s as s')
    (sim : ∀ s a s' t, R s t → step s a s' → ∃ t', answer t (f a) t' ∧ R s' t') (start : R s t) :
    ∃ t', Run answer t (as.map f) t' ∧ R s' t' := by
  induction run generalizing t with
  | nil => exact ⟨t, .nil t, start⟩
  | cons first _ ih =>
    obtain ⟨t₁, hanswer, hrel⟩ := sim _ _ _ _ start first
    obtain ⟨t', hrun, hrel'⟩ := ih hrel
    exact ⟨t', .cons hanswer hrun, hrel'⟩

/-- A run behind which there is another one. -/
theorem Run.exists_of_append (run : Run step s (as ++ bs) s'') :
    ∃ s', Run step s as s' ∧ Run step s' bs s'' := by
  induction as generalizing s with
  | nil => exact ⟨s, .nil s, run⟩
  | cons a as ih =>
    cases run with
    | cons first rest =>
      obtain ⟨s', hinit, hlast⟩ := ih rest
      exact ⟨s', .cons first hinit, hlast⟩

/-- A simulation by a function of the states, which leaves out the steps that are not seen. -/
theorem Run.filterMap {τ β : Type*} {answer : τ → β → τ → Prop} {f : α → Option β} {g : σ → τ}
    (run : Run step s as s')
    (seen : ∀ s a s' b, step s a s' → f a = some b → answer (g s) b (g s'))
    (unseen : ∀ s a s', step s a s' → f a = none → g s' = g s) :
    Run answer (g s) (as.filterMap f) (g s') := by
  induction run with
  | nil s => exact .nil (g s)
  | @cons s s' s'' a as first _ ih =>
    cases h : f a with
    | none =>
      rw [List.filterMap_cons_none h, ← unseen s a s' first h]
      exact ih
    | some b =>
      rw [List.filterMap_cons_some h]
      exact .cons (seen s a s' b first h) ih

/-- Evaluating a sound successor function gives a run. -/
theorem Run.of_foldlM {next : σ → α → Option σ}
    (sound : ∀ s a s', next s a = some s' → step s a s') (h : as.foldlM next s = some s') :
    Run step s as s' := by
  induction as generalizing s with
  | nil =>
    obtain rfl : s = s' := by simpa using h
    exact .nil s
  | cons a as ih =>
    rw [List.foldlM_cons] at h
    obtain ⟨t, ht, hrest⟩ := Option.bind_eq_some_iff.mp h
    exact .cons (sound _ _ _ ht) (ih hrest)

/-- A run found by evaluation, with what is observed at its end. -/
theorem Run.exists_of_foldlM {β : Type*} {next : σ → α → Option σ} {observe : σ → β} {b : β}
    (sound : ∀ s a s', next s a = some s' → step s a s')
    (h : (as.foldlM next s).map observe = some b) : ∃ s', Run step s as s' ∧ observe s' = b := by
  obtain ⟨s', hrun, hobserve⟩ := Option.map_eq_some_iff.mp h
  exact ⟨s', Run.of_foldlM sound hrun, hobserve⟩

end CLanguage.Lib
