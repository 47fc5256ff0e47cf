import CLanguage.Registry.Counts

/-!
# Waiting for the registry to drain

`creg_wait_for_empty` takes `lock` and never gives it back, so no registration is
under way while it polls the table and none can start. The entries it has passed
can then only have been freed, and a pass that sees no used entry has seen an
empty table, which stays empty.
-/

namespace CLanguage.Registry

open Lib

variable {r r' : ClientRegistry} {s s' : State} {c c' : Call} {rest : Option Call} {fd : ℤ}
  {fdbuf fdbuf' : List ℤ} {a : Label} {calls before after : List Call} {i j : ℕ} {flag : Bool}

/-- Only free entries below `i`. -/
def FreeBelow (fdbuf : List ℤ) (i : ℕ) : Prop := ∀ j < i, fdbuf[j]? = some (-1)

/-- What a call of `creg_wait_for_empty` has found out. -/
def Informed (fdbuf : List ℤ) : Call → Prop
  | .waitLoop i flag => i < capacity ∧ (flag = false → FreeBelow fdbuf i)
  | .waitReturned => FreeBelow fdbuf capacity
  | _ => True

/-- Freeing an entry keeps the free entries free. -/
theorem getElem?_clear (h : fdbuf[j]? = some (-1)) : (clear fd fdbuf)[j]? = some (-1) := by
  induction fdbuf generalizing j with
  | nil => exact absurd h nofun
  | cons e es ih =>
    rw [clear]
    split_ifs with he
    · cases j with
      | zero => rfl
      | succ j => exact h
    · cases j with
      | zero => exact h
      | succ j => exact ih h

theorem Informed.mono (h : Informed fdbuf c) (keep : ∀ j : ℕ, fdbuf[j]? = some (-1) →
    fdbuf'[j]? = some (-1)) : Informed fdbuf' c := by
  cases c with
  | waitLoop i flag => exact ⟨h.1, fun hflag j hj => keep j (h.2 hflag j hj)⟩
  | waitReturned => exact fun j hj => keep j (h j hj)
  | _ => trivial

/-- One read keeps what the call knows. -/
theorem Informed.pollEntry (h : Informed fdbuf (.waitLoop i flag)) :
    Informed fdbuf (pollEntry fdbuf i flag) := by
  obtain ⟨hi, hbelow⟩ := h
  have hcapacity := capacity_eq
  -- after the read the flag is clear only if the entries up to `i` are free
  have hnext : ∀ flag', (flag' = if fdbuf[i]? ≠ some (-1) then true
      else if i = 0 then false else flag) → flag' = false → FreeBelow fdbuf (i + 1) := by
    rintro flag' rfl hclear j hj
    by_cases hentry : fdbuf[i]? = some (-1)
    · rcases Nat.lt_succ_iff_lt_or_eq.mp hj with hj | rfl
      · have hpos : i ≠ 0 := Nat.ne_zero_of_lt hj
        simp only [hentry, ne_eq, not_true_eq_false, if_false, if_neg hpos] at hclear
        exact hbelow hclear j hj
      · exact hentry
    · simp [hentry] at hclear
  unfold Registry.pollEntry
  simp only
  generalize hread : (if fdbuf[i]? ≠ some (-1) then true else if i = 0 then false else flag) = flag'
  have hfree := hnext flag' hread.symm
  by_cases hlast : i = 1023
  · rw [if_pos hlast]
    by_cases hclear : flag' = false
    · rw [if_pos hclear]
      have hall := hfree hclear
      rw [hlast] at hall
      exact hall
    · rw [if_neg hclear]
      exact ⟨by omega, fun _ j hj => absurd hj (Nat.not_lt_zero j)⟩
  · rw [if_neg hlast]
    exact ⟨by omega, hfree⟩

/-- A call that holds `lock` in `creg_wait_for_empty` keeps all others out. -/
theorem Counted.not_scanning (h : Counted s) (holds : heldLock c = 1)
    (hsplit : s.calls = before ++ c' :: after) (hne : c ∈ before ++ after) : heldLock c' = 0 := by
  have hlock := h.lock
  rw [hsplit, total_append, total_cons] at hlock
  obtain ⟨front, back, hfront⟩ := List.append_of_mem hne
  have htotal : total heldLock before + total heldLock after = total heldLock (before ++ after) :=
    total_append.symm
  rw [hfront, total_append, total_cons, holds] at htotal
  omega

/-- Every call of `creg_wait_for_empty` knows what the table looks like. -/
def AllInformed (s : State) : Prop := ∀ c ∈ s.calls, Informed s.registry.fdbuf c

/-- A step that changes the table leaves the free entries free while a call waits. -/
theorem next_keeps (h : c.next r = some (r', rest)) (idle : heldLock c = 0) :
    ∀ j : ℕ, r.fdbuf[j]? = some (-1) → r'.fdbuf[j]? = some (-1) := by
  cases move_of_next h with
  | registerScan => exact absurd idle Nat.one_ne_zero
  | found | unknown => exact fun j => getElem?_clear
  | _ => exact fun j hj => hj

/-- The rest of a step knows as much as the step has found out. -/
theorem next_informed (h : c.next r = some (r', rest)) (informed : Informed r.fdbuf c) :
    ∀ c' ∈ rest.toList, Informed r'.fdbuf c' := by
  intro c' hc'
  cases move_of_next h with
  | registerPostLock | foundPostSlots | unknownPostMutex => exact absurd hc' List.not_mem_nil
  | waitPass poll | waitReturn poll =>
    obtain rfl := List.mem_singleton.mp hc'
    exact poll ▸ Informed.pollEntry informed
  | waitLock =>
    -- nothing has been read yet
    obtain rfl := List.mem_singleton.mp hc'
    exact ⟨by decide, fun _ j hj => absurd hj (Nat.not_lt_zero j)⟩
  | _ =>
    obtain rfl := List.mem_singleton.mp hc'
    trivial

theorem informed_of_idle (h : heldLock c = 0) : Informed fdbuf c := by
  cases c <;> trivial

theorem heldLock_eq (c : Call) : heldLock c = 0 ∨ heldLock c = 1 := by
  cases c <;> first | exact Or.inl rfl | exact Or.inr rfl

theorem AllInformed.step (h : AllInformed s) (counted : Counted s) (step : Step s a s') :
    AllInformed s' := by
  cases step with
  | @invoke r calls op proper =>
    intro c hc
    rcases List.mem_append.mp hc with hc | hc
    · exact h c hc
    · rw [List.mem_singleton.mp hc]
      exact informed_of_idle (held_start op).2.1
  | @act r r' before after c rest next =>
    -- a call that waits keeps the acting one out of the table
    have hother : ∀ c' ∈ before ++ after, Informed r'.fdbuf c' := by
      intro c' hc'
      rcases heldLock_eq c' with hidle | holds
      · exact informed_of_idle hidle
      · have hmem : c' ∈ before ++ c :: after := by
          rcases List.mem_append.mp hc' with hc' | hc'
          · exact List.mem_append_left _ hc'
          · exact List.mem_append_right _ (List.mem_cons_of_mem _ hc')
        exact (h c' hmem).mono (next_keeps next (counted.not_scanning holds rfl hc'))
    intro c' hc'
    rcases List.mem_append.mp hc' with hc' | hc'
    · exact hother c' (List.mem_append_left _ hc')
    · rcases List.mem_append.mp hc' with hc' | hc'
      · exact next_informed next (h c (by simp)) c' hc'
      · exact hother c' (List.mem_append_right _ hc')

/-! ### Runs -/

theorem informed_of_run {ls : List Label} (run : Run Step initial ls s) :
    Counted s ∧ AllInformed s :=
  run.invariant (I := fun s => Counted s ∧ AllInformed s)
    (fun _ _ _ h step => ⟨(h.1.step step).1, h.2.step h.1 step⟩)
    ⟨counted_initial, by simp [AllInformed, initial]⟩

/-- A call that has returned stays so, and no scan registers anything. -/
theorem Counted.returned_step (h : Counted s) (returned : Call.waitReturned ∈ s.calls)
    (step : Step s a s') : Call.waitReturned ∈ s'.calls ∧ ∀ fd, a ≠ .scan (.register fd) := by
  cases step with
  | @invoke r calls op proper => exact ⟨List.mem_append_left _ returned, fun fd => nofun⟩
  | @act r r' before after c rest next =>
    have hne : c ≠ .waitReturned := by
      rintro rfl
      exact absurd next nofun
    have hmem : Call.waitReturned ∈ before ++ after := by
      rcases List.mem_append.mp returned with hc | hc
      · exact List.mem_append_left _ hc
      · exact List.mem_append_right _ ((List.mem_cons.mp hc).resolve_left (Ne.symm hne))
    refine ⟨?_, fun fd hlabel => ?_⟩
    · rcases List.mem_append.mp hmem with hc | hc
      · exact List.mem_append_left _ hc
      · exact List.mem_append_right _ (List.mem_append_right _ hc)
    · have hidle : heldLock c = 0 := h.not_scanning rfl rfl hmem
      cases c
      case registerScan fd' => exact absurd hidle Nat.one_ne_zero
      all_goals exact absurd hlabel (by simp [Call.label])

theorem Counted.returned_run {ls : List Label} (h : Counted s)
    (returned : Call.waitReturned ∈ s.calls) (run : Run Step s ls s') :
    Call.waitReturned ∈ s'.calls ∧ ∀ fd, .scan (.register fd) ∉ ls := by
  induction run with
  | nil => exact ⟨returned, fun fd => List.not_mem_nil⟩
  | cons first _ ih =>
    obtain ⟨hstill, hlabel⟩ := h.returned_step returned first
    obtain ⟨hend, hrest⟩ := ih (h.step first).1 hstill
    refine ⟨hend, fun fd hmem => ?_⟩
    rcases List.mem_cons.mp hmem with heq | hmem
    · exact hlabel fd heq.symm
    · exact hrest fd hmem

/-- Once `creg_wait_for_empty` has returned, no descriptor is registered, and none
ever will be, whatever the other threads do. -/
theorem empty_of_returned {ls : List Label} (run : Run Step initial ls s)
    (returned : Call.waitReturned ∈ s.calls) :
    entries s.registry.fdbuf = 0 ∧ ∀ ls' s', Run Step s ls' s' →
      entries s'.registry.fdbuf = 0 ∧ ∀ fd, .scan (.register fd) ∉ ls' := by
  have hempty : ∀ t : State, Counted t → AllInformed t → Call.waitReturned ∈ t.calls →
      entries t.registry.fdbuf = 0 := by
    intro t hcounted hinformed hreturned
    have hall : FreeBelow t.registry.fdbuf capacity := hinformed _ hreturned
    refine Multiset.eq_zero_of_forall_notMem fun e he => ?_
    obtain ⟨hmem, hused⟩ := mem_entries.mp he
    obtain ⟨j, hj, rfl⟩ := List.getElem_of_mem hmem
    have hfree := hall j (hcounted.length ▸ hj)
    rw [List.getElem?_eq_getElem hj] at hfree
    exact hused (Option.some.inj hfree)
  obtain ⟨hcounted, hinformed⟩ := informed_of_run run
  refine ⟨hempty s hcounted hinformed returned, fun ls' s' run' => ?_⟩
  obtain ⟨hcounted', hinformed'⟩ := informed_of_run (run.append run')
  obtain ⟨hreturned', hlabels⟩ := hcounted.returned_run returned run'
  exact ⟨hempty s' hcounted' hinformed' hreturned', hlabels⟩

/-! ### The wait ends when the table is empty -/

/-- A step of the only call. -/
theorem step_single (h : c.next r = some (r', rest)) : Step ⟨r, [c]⟩ c.label ⟨r', rest.toList⟩ := by
  have hact : Step ⟨r, [] ++ c :: []⟩ c.label ⟨r', [] ++ (rest.toList ++ [])⟩ := .act h
  simpa using hact

/-- The registry while `creg_wait_for_empty` polls an empty table. -/
def draining : ClientRegistry := { cregInit with lock := 0 }

/-- In an empty table a call of `creg_wait_for_empty` reaches every entry. -/
theorem wait_reaches (hi : i < capacity) :
    ∃ ls, Run Step ⟨draining, [.waitLoop 0 false]⟩ ls ⟨draining, [.waitLoop i false]⟩ := by
  induction i with
  | zero => exact ⟨[], .nil _⟩
  | succ i ih =>
    obtain ⟨ls, run⟩ := ih (Nat.lt_of_succ_lt hi)
    have hentry : draining.fdbuf[i]? = some (-1) :=
      List.getElem?_replicate_of_lt (Nat.lt_of_succ_lt hi)
    have hpoll : pollEntry draining.fdbuf i false = .waitLoop (i + 1) false := by
      have hcapacity := capacity_eq
      rw [pollEntry, hentry]
      simp only [ne_eq, not_true_eq_false, if_false, ite_self]
      rw [if_neg (by omega)]
    have hnext : Call.next draining (.waitLoop i false) =
        some (draining, some (.waitLoop (i + 1) false)) := by
      rw [Call.next, hpoll]
    exact ⟨ls ++ [.internal], run.append (.cons (step_single hnext) (.nil _))⟩

/-- A call that finds no client returns, and the registry is closed. -/
theorem empty_of_returned_example : ∃ (ls : List Label) (s : State), Run Step initial ls s ∧
    Call.waitReturned ∈ s.calls ∧ entries s.registry.fdbuf = 0 := by
  obtain ⟨ls, run⟩ := wait_reaches (show 1023 < capacity by decide)
  have hinvoke : Step initial (.invoke .waitForEmpty) ⟨cregInit, [.waitLock]⟩ :=
    @Step.invoke cregInit [] .waitForEmpty trivial
  have hlock : Call.next cregInit .waitLock = some (draining, some (.waitLoop 0 false)) := rfl
  have hlast : Call.next draining (.waitLoop 1023 false) = some (draining, some .waitReturned) := by
    have hpoll : pollEntry draining.fdbuf 1023 false = .waitReturned := by decide +kernel
    rw [Call.next, hpoll]
  have hrun := Run.cons hinvoke
    (.cons (step_single hlock) (run.append (.cons (step_single hlast) (.nil _))))
  exact ⟨_, _, hrun, by simp, (empty_of_returned hrun (by simp)).1⟩

end CLanguage.Registry
