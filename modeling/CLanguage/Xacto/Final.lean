import CLanguage.Xacto.Clients

/-!
# Final statuses

Committed and aborted are to be the final outcomes of a transaction. `trans_abort` looks
at the status before it writes one, `trans_commit` only at those of the dependencies, so
it can turn an aborted transaction into a committed one.

## Main results

* `final_step_iff` — which calls change a final status
* `final_stays` — the runs in which none is changed
-/

namespace CLanguage.Xacto

open Lib Client

variable {m m' : Manager} {c c' : Client} {call : Call} {calls : List Call} {tp a : ℕ}
  {status : TransStatus}

/-- The status that a commit returns is the one it has written. -/
theorem Committed.status_eq (h : Committed m tp m' status) (a : ℕ) :
    (m'.trans a).status = if a = tp then status else (m.trans a).status := by
  cases h with
  | aborted mem hd state => rw [state, Manager.trans_setStatus]
  | committed all state => rw [status_unref state, Manager.trans_setStatus]

/-- What a call does to the status of a transaction: a pending one can change in any way, another
one only if the call is a commit of it. -/
theorem status_step (step : c.Step call c') (known : tp < c.trans.fresh) :
    (c'.trans.trans tp).status = (c.trans.trans tp).status ∨
      (c.trans.trans tp).status = .pending ∨
      (call = .transCommit tp ∧
        Committed c.trans tp c'.trans (c'.trans.trans tp).status) := by
  obtain ⟨-, fuel, hcall⟩ := step
  cases effect_of_ok hcall with
  | transCreate =>
    have hne : tp ≠ c.trans.fresh := Nat.ne_of_lt known
    simp only [trans_transCreate, if_neg hne, true_or]
  | transRef free => exact .inl (by rw [Manager.addReference, Manager.trans_setRefcnt])
  | transUnref unref => exact .inl (status_unref unref tp)
  | transAddDependency other => exact .inl (by rw [trans_addDependency])
  | @transCommit a m status committed =>
    have hstatus := committed.status_eq tp
    by_cases htp : tp = a
    · subst htp
      rw [if_pos rfl] at hstatus
      exact .inr (.inr ⟨rfl, hstatus.symm ▸ committed⟩)
    · exact .inl (hstatus.trans (if_neg htp))
  | transAbort returns => exact (returns.status tp).imp_right fun h => .inl h.1
  | versionCreate => exact .inl (by rw [Manager.addReference, Manager.trans_setRefcnt])
  | versionDispose => exact .inl (by rw [Manager.dropReference, Manager.trans_setRefcnt])
  | onBlobs other => exact .inl rfl

/-- The call is not a commit that reverses an outcome: that of an aborted transaction whose
dependencies have all committed, or that of a committed one with an aborted dependency. -/
def Client.KeepsFinal (c : Client) : Call → Prop
  | .transCommit tp =>
    ((c.trans.trans tp).status = .committed →
      ∀ d ∈ (c.trans.trans tp).depends, (c.trans.trans d).status ≠ .aborted) ∧
    ((c.trans.trans tp).status = .aborted →
      ∃ d ∈ (c.trans.trans tp).depends, (c.trans.trans d).status ≠ .committed)
  | _ => True

instance decidableKeepsFinal (c : Client) : (call : Call) → Decidable (c.KeepsFinal call)
  | .transCommit tp =>
    inferInstanceAs (Decidable (((c.trans.trans tp).status = .committed → ∀ d ∈ _, _) ∧
      ((c.trans.trans tp).status = .aborted → ∃ d ∈ _, _)))
  | .transCreate | .transRef _ | .transUnref _ | .transAddDependency _ _ | .transAbort _
  | .blobCreate _ _ | .blobRef _ | .blobUnref _ | .keyCreate _ _ | .keyDispose _
  | .versionCreate _ _ | .versionDispose _ => instDecidableTrue

/-- A commit that keeps the rule returns the final status that its transaction already has. -/
theorem Client.KeepsFinal.status_eq (h : c.KeepsFinal (.transCommit tp))
    (committed : Committed c.trans tp m' status) (final : (c.trans.trans tp).status ≠ .pending) :
    status = (c.trans.trans tp).status := by
  obtain ⟨hcommitted, haborted⟩ := h
  cases hcase : (c.trans.trans tp).status with
  | pending => exact absurd hcase final
  | committed =>
    cases committed with
    | aborted mem hd state => exact absurd hd (hcommitted hcase _ mem)
    | committed all state => rfl
  | aborted =>
    cases committed with
    | aborted mem hd state => rfl
    | committed all state =>
      obtain ⟨d, hd, hne⟩ := haborted hcase
      exact absurd (all d hd) hne

/-- A step keeps all final statuses exactly if it keeps the rule. -/
theorem final_step_iff (step : c.Step call c')
    (known : ∀ tp, call = .transCommit tp → tp < c.trans.fresh) :
    (∀ tp < c.trans.fresh, (c.trans.trans tp).status ≠ .pending →
      (c'.trans.trans tp).status = (c.trans.trans tp).status) ↔ c.KeepsFinal call := by
  constructor
  · intro hkeep
    -- only a commit can write over a status that is final
    obtain ⟨-, fuel, hcall⟩ := step
    cases effect_of_ok hcall with
    | @transCommit tp m status committed =>
      have hkeep := hkeep tp (known tp rfl)
      have hstatus : (m.trans tp).status = status := (committed.status_eq tp).trans (if_pos rfl)
      constructor
      · intro hcommitted d hd haborted
        have hkept := hkeep (hcommitted ▸ nofun)
        rw [hstatus, hcommitted] at hkept
        subst hkept
        cases committed with
        | committed all state => exact absurd ((all d hd).symm.trans haborted) nofun
      · intro haborted
        have hkept := hkeep (haborted ▸ nofun)
        rw [hstatus, haborted] at hkept
        subst hkept
        cases committed with
        | aborted mem hd state => exact ⟨_, mem, hd ▸ nofun⟩
    | onBlobs other =>
      cases call with
      | transCommit tp => exact absurd other nofun
      | _ => trivial
    | _ => trivial
  · intro hkeeps tp hknown hfinal
    rcases status_step step hknown with hsame | hpending | ⟨rfl, hcommit⟩
    · exact hsame
    · exact absurd hpending hfinal
    · exact hkeeps.status_eq hcommit hfinal

/-- Addresses that were handed out stay so. -/
theorem fresh_step (step : c.Step call c') : c.trans.fresh ≤ c'.trans.fresh := by
  obtain ⟨-, fuel, hcall⟩ := step
  cases effect_of_ok hcall with
  | transCreate => exact Nat.le_succ _
  | transUnref unref => exact Nat.le_of_eq (sameGraph_unref unref).fresh.symm
  | transCommit committed =>
    cases committed with
    | aborted mem hd state => exact state ▸ Nat.le_refl _
    | committed all state => exact Nat.le_of_eq (sameGraph_unref state).fresh.symm
  | transAbort returns => exact Nat.le_of_eq returns.sameGraph.fresh.symm
  | _ => exact Nat.le_refl _

/-- In runs whose steps keep the rule a transaction that is committed or aborted stays so, from any
state on. -/
theorem final_stays
    (run : Run (fun c call c' => c.Step call c' ∧ c.KeepsFinal call) c calls c')
    (known : tp < c.trans.fresh) (final : (c.trans.trans tp).status ≠ .pending) :
    (c'.trans.trans tp).status = (c.trans.trans tp).status := by
  induction run with
  | nil c => rfl
  | @cons c c₁ c' call calls first rest ih =>
    obtain ⟨hstep, hkeeps⟩ := first
    have hfirst : (c₁.trans.trans tp).status = (c.trans.trans tp).status := by
      rcases status_step hstep known with hsame | hpending | ⟨rfl, hcommit⟩
      · exact hsame
      · exact absurd hpending final
      · exact hkeeps.status_eq hcommit final
    have hrest := ih (Nat.lt_of_lt_of_le known (fresh_step hstep)) (hfirst ▸ final)
    exact hrest.trans hfirst

theorem final_stays_example : ∃ c c' : Client,
    Run (fun c call c' => c.Step call c' ∧ c.KeepsFinal call) c [.transCommit 1, .transUnref 2] c' ∧
      (c.trans.trans 2).status = .aborted ∧ (c'.trans.trans 2).status = .aborted := by
  have hrun : ([.transCreate, .transCreate, .transRef 2, .transAbort 2].foldlM
      (next KeepsFinal 9) Client.initial >>= fun c =>
        ([.transCommit 1, .transUnref 2].foldlM (next KeepsFinal 9) c).map fun _ =>
          (c.trans.fresh, (c.trans.trans 2).status)) = some (3, .aborted) := by decide +kernel
  obtain ⟨c, -, hrun⟩ := Option.bind_eq_some_iff.mp hrun
  obtain ⟨c', hrun, hstatus⟩ := Option.map_eq_some_iff.mp hrun
  obtain ⟨hfresh, hstatus⟩ := Prod.mk.inj hstatus
  have hrun := Run.of_foldlM step_of_next hrun
  exact ⟨c, c', hrun, hstatus,
    (final_stays hrun (hfresh ▸ by decide) (hstatus ▸ nofun)).trans hstatus⟩

/-- An aborted transaction that someone still holds is committed. -/
theorem commit_after_abort : ∃ c c' : Client,
    Run Client.Step Client.initial [.transCreate, .transRef 1, .transRef 1, .transAbort 1] c ∧
      (c.trans.trans 1).status = .aborted ∧ c.Step (.transCommit 1) c' ∧
      (c'.trans.trans 1).status = .committed ∧ (c'.trans.trans 1).freed = false := by
  have hrun : ([.transCreate, .transRef 1, .transRef 1, .transAbort 1].foldlM
      (next (fun _ _ => True) 9) Client.initial >>= fun c =>
        (c.next (fun _ _ => True) 9 (.transCommit 1)).map fun c' => ((c.trans.trans 1).status,
          (c'.trans.trans 1).status, (c'.trans.trans 1).freed)) =
        some (.aborted, .committed, false) := by decide +kernel
  obtain ⟨c, hfirst, hrun⟩ := Option.bind_eq_some_iff.mp hrun
  obtain ⟨c', hstep, hstatus⟩ := Option.map_eq_some_iff.mp hrun
  obtain ⟨hbefore, hafter⟩ := Prod.mk.inj hstatus
  obtain ⟨hafter, hlive⟩ := Prod.mk.inj hafter
  exact ⟨c, c', Run.of_foldlM (fun c call c' h => (step_of_next c call c' h).1) hfirst, hbefore,
    (step_of_next c _ c' hstep).1, hafter, hlive⟩

end CLanguage.Xacto
