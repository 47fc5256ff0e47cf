import Mathlib.Data.List.Chain

/-!
# Joining runs

Some elements of a list are *free*, and two free neighbours can be glued into
one. `joinRuns` glues every run of free elements.

An element becomes free by a function that fixes the free elements already.
Joining can then be done after every such step or once at the end.

## Main results

* `separated_joinRuns`, `joinRuns_eq_self` — the lists without free neighbours
* `joinRuns_glue` — two free elements in front can be glued first
* `joinRuns_map_joinRuns` — joining early does not matter
-/

namespace CLanguage.Lib

variable {α : Type*} (free : α → Prop) [DecidablePred free] (glue : α → α → α)

/-- Put `a` in front, glued to the first element if both are free. -/
def consJoin (a : α) : List α → List α
  | [] => [a]
  | b :: l => if free a ∧ free b then glue a b :: l else a :: b :: l

/-- Glue every run of free elements. -/
def joinRuns (l : List α) : List α := l.foldr (consJoin free glue) []

/-- No two neighbours are free. -/
def Separated (free : α → Prop) (l : List α) : Prop := l.IsChain fun a b => ¬(free a ∧ free b)

/-- Free elements glue to free elements, in any order. -/
structure Gluing : Prop where
  free_glue : ∀ {a b}, free a → free b → free (glue a b)
  assoc : ∀ {a b c}, free a → free b → free c → glue (glue a b) c = glue a (glue b c)

variable {free glue} {a b : α} {l r : List α}

@[simp] theorem consJoin_nil : consJoin free glue a [] = [a] := rfl

theorem consJoin_glue (ha : free a) (hb : free b) :
    consJoin free glue a (b :: l) = glue a b :: l := if_pos ⟨ha, hb⟩

theorem consJoin_apart (h : ¬(free a ∧ free b)) :
    consJoin free glue a (b :: l) = a :: b :: l := if_neg h

@[simp] theorem joinRuns_nil : joinRuns free glue [] = [] := rfl

theorem joinRuns_cons : joinRuns free glue (a :: l) = consJoin free glue a (joinRuns free glue l) :=
  rfl

theorem consJoin_separated (h : Separated free (a :: l)) : consJoin free glue a l = a :: l := by
  cases l with
  | nil => rfl
  | cons b l => exact consJoin_apart (List.isChain_cons_cons.mp h).1

omit [DecidablePred free] in
theorem Separated.tail (h : Separated free (a :: l)) : Separated free l := h.of_cons

theorem joinRuns_eq_self (h : Separated free l) : joinRuns free glue l = l := by
  induction l with
  | nil => rfl
  | cons a l ih => rw [joinRuns_cons, ih h.tail, consJoin_separated h]

theorem mem_consJoin_self (ha : ¬free a) : a ∈ consJoin free glue a l := by
  cases l with
  | nil => exact List.mem_cons_self
  | cons b l =>
    rw [consJoin_apart fun h => ha h.1]
    exact List.mem_cons_self

theorem mem_consJoin (hb : ¬free b) (hmem : b ∈ l) : b ∈ consJoin free glue a l := by
  cases l with
  | nil => exact absurd hmem List.not_mem_nil
  | cons c l =>
    by_cases hac : free a ∧ free c
    · rw [consJoin_glue hac.1 hac.2]
      rcases List.mem_cons.mp hmem with rfl | hmem
      · exact absurd hac.2 hb
      · exact List.mem_cons_of_mem _ hmem
    · rw [consJoin_apart hac]
      exact List.mem_cons_of_mem _ hmem

/-- Elements that are not free stay. -/
theorem mem_joinRuns (hb : ¬free b) (hmem : b ∈ l) : b ∈ joinRuns free glue l := by
  induction l with
  | nil => exact absurd hmem List.not_mem_nil
  | cons a l ih =>
    rw [joinRuns_cons]
    rcases List.mem_cons.mp hmem with rfl | hmem
    · exact mem_consJoin_self hb
    · exact mem_consJoin hb (ih hmem)

/-- Gluing `a` to the first element leaves no free neighbours, whatever the result is. -/
theorem separated_consJoin (h : Separated free l) : Separated free (consJoin free glue a l) := by
  cases l with
  | nil => exact List.isChain_singleton a
  | cons b l =>
    by_cases hab : free a ∧ free b
    · rw [consJoin_glue hab.1 hab.2]
      cases l with
      | nil => exact List.isChain_singleton _
      | cons c l =>
        obtain ⟨hbc, hrest⟩ := List.isChain_cons_cons.mp h
        exact List.isChain_cons_cons.mpr ⟨fun hc => hbc ⟨hab.2, hc.2⟩, hrest⟩
    · rw [consJoin_apart hab]
      exact List.isChain_cons_cons.mpr ⟨hab, h⟩

theorem separated_joinRuns : Separated free (joinRuns free glue l) := by
  induction l with
  | nil => exact .nil
  | cons a l ih => exact separated_consJoin ih

/-- What is in front of a stretch does not see how its runs were glued. -/
theorem joinRuns_append_congr {r' : List α} (h : joinRuns free glue r = joinRuns free glue r') :
    joinRuns free glue (l ++ r) = joinRuns free glue (l ++ r') := by
  induction l with
  | nil => exact h
  | cons a l ih => rw [List.cons_append, List.cons_append, joinRuns_cons, joinRuns_cons, ih]

/-- Two free elements in front can be glued first. -/
theorem joinRuns_glue (laws : Gluing free glue) (ha : free a) (hb : free b) :
    joinRuns free glue (glue a b :: l) = joinRuns free glue (a :: b :: l) := by
  simp only [joinRuns_cons]
  cases joinRuns free glue l with
  | nil => simp [consJoin_glue ha hb]
  | cons c r =>
    by_cases hc : free c
    · rw [consJoin_glue (laws.free_glue ha hb) hc, consJoin_glue hb hc,
        consJoin_glue ha (laws.free_glue hb hc), laws.assoc ha hb hc]
    · rw [consJoin_apart fun h => hc h.2, consJoin_apart fun h => hc h.2, consJoin_glue ha hb]

/-- Joining before more elements become free makes no difference. -/
theorem joinRuns_map_joinRuns (laws : Gluing free glue) {f : α → α} (fixed : ∀ a, free a → f a = a) :
    joinRuns free glue ((joinRuns free glue l).map f) = joinRuns free glue (l.map f) := by
  induction l with
  | nil => rfl
  | cons a l ih =>
    rw [List.map_cons, joinRuns_cons (a := f a), ← ih, ← joinRuns_cons, ← List.map_cons,
      joinRuns_cons]
    cases joinRuns free glue l with
    | nil => rfl
    | cons b r =>
      by_cases hab : free a ∧ free b
      · rw [consJoin_glue hab.1 hab.2, List.map_cons, List.map_cons, List.map_cons,
          fixed _ (laws.free_glue hab.1 hab.2), fixed a hab.1, fixed b hab.2]
        exact joinRuns_glue laws hab.1 hab.2
      · rw [consJoin_apart hab]

end CLanguage.Lib
