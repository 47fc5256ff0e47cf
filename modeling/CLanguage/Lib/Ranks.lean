import CLanguage.Lib.Run
import Mathlib.Data.Nat.Notation

/-!
# Runs that come to an end

Where every step lowers a rank, a run is no longer than the rank at its start
(`Run.length_add_rank_le`), and every state has a run to one where nothing can happen
(`exists_run_stuck`).
-/

namespace CLanguage.Lib

variable {σ α : Type*} {step : σ → α → σ → Prop} {s s' : σ} {as : List α} {rank : σ → ℕ}

/-- A run has at most as many steps as it lowers the rank. -/
theorem Run.length_add_rank_le (run : Run step s as s')
    (lower : ∀ s a s', step s a s' → rank s' < rank s) : as.length + rank s' ≤ rank s := by
  induction run with
  | nil s => exact Nat.le_of_eq (Nat.zero_add (rank s))
  | cons first _ ih =>
    have hfirst := lower _ _ _ first
    rw [List.length_cons]
    omega

theorem exists_run_stuck (lower : ∀ s a s', step s a s' → rank s' < rank s) (s : σ) :
    ∃ as s', Run step s as s' ∧ ∀ a s'', ¬ step s' a s'' := by
  induction h : rank s using Nat.strongRecOn generalizing s with
  | _ n ih =>
    by_cases stuck : ∀ a s', ¬ step s a s'
    · exact ⟨[], s, .nil s, stuck⟩
    · simp only [not_forall, not_not] at stuck
      obtain ⟨a, s₁, first⟩ := stuck
      have hlower : rank s₁ < n := h ▸ lower s a s₁ first
      obtain ⟨as, s', rest, hend⟩ := ih (rank s₁) hlower s₁ rfl
      exact ⟨a :: as, s', .cons first rest, hend⟩

end CLanguage.Lib
