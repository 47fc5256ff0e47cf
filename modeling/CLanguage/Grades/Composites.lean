import CLanguage.Grades.Places
import Mathlib

/-!
# Composite scores

`composites` goes over the assignments of the course for every student, and for each over the
normalized scores of the student. What it adds up is one term for each score: its normalized
value, times the weight of its assignment if that has one. The weights are those that were
declared, since `normalize` replaces only maxima.

## Main results

* `compositeOf_eq` — both loops as one over the scores
* `composites_weighted` — the composite of every student
-/

namespace CLanguage.Grades

open CLanguage.Lib

variable {c : Rosters} {st st' : Grading} {ls : List (List ℕ)} {assignments : List Assignment}
  {nscores : List Score} {a : Assignment} {i k : ℕ}

/-! ### One student -/

/-- What a normalized score for an assignment is multiplied by. -/
def Assignment.factor (a : Assignment) : ℚ := if a.wpolicy = .weight then a.weight else 1

/-- The factor of assignment `i`, and 0 if there is none. -/
def factorOf (assignments : List Assignment) (i : ℕ) : ℚ :=
  (assignments[i]?.map Assignment.factor).getD 0

theorem factorOf_settle (st : Grading) (i : ℕ) :
    factorOf st.settle.assignments i = factorOf st.assignments i := by
  rw [factorOf, factorOf, Grading.settle, List.getElem?_map, Option.map_map]
  rfl

theorem Reaches.factorOf (h : Reaches st st') (i : ℕ) :
    factorOf st'.assignments i = factorOf st.assignments i := by
  rw [← factorOf_settle, h.settle, factorOf_settle]

/-- Of the assignments, numbered from `n`, one at most is that of the score. -/
theorem sum_ite_zipIdx (g : ℚ) (i n : ℕ) (assignments : List Assignment) :
    ((assignments.zipIdx n).map fun a => if i + n = a.2 then g * a.1.factor else 0).sum =
      g * factorOf assignments i := by
  induction assignments generalizing i n with
  | nil => exact (mul_zero g).symm
  | cons a assignments ih =>
    rw [List.zipIdx_cons, List.map_cons, List.sum_cons]
    cases i with
    | zero =>
      have hrest : ((assignments.zipIdx (n + 1)).map fun a =>
          if 0 + n = a.2 then g * a.1.factor else 0).sum = 0 := by
        apply List.sum_eq_zero
        intro x hx
        obtain ⟨e, he, rfl⟩ := List.mem_map.mp hx
        have hle := List.le_snd_of_mem_zipIdx he
        exact if_neg (by omega)
      rw [hrest, add_zero, if_pos (Nat.zero_add n)]
      rfl
    | succ i =>
      have hnumber : i + 1 + n = i + (n + 1) := by omega
      rw [if_neg (by omega), zero_add, hnumber]
      exact ih i (n + 1)

/-- The loops over assignments and over scores can be exchanged. -/
theorem compositeOf_eq (assignments : List Assignment) (nscores : List Score) :
    compositeOf assignments nscores =
      (nscores.map fun nscp => nscp.grade * factorOf assignments nscp.asgt).sum := by
  induction nscores with
  | nil =>
    apply List.sum_eq_zero
    intro x hx
    obtain ⟨a, -, rfl⟩ := List.mem_map.mp hx
    rfl
  | cons nscp nscores ih =>
    rw [List.map_cons, List.sum_cons, ← ih, ← sum_ite_zipIdx nscp.grade nscp.asgt 0, compositeOf,
      compositeOf, ← List.sum_map_add]
    congr 1
    apply List.map_congr_left
    intro a _
    by_cases hasgt : nscp.asgt = a.2
    · rw [List.filter_cons_of_pos (by rwa [decide_eq_true_iff]), List.map_cons, List.sum_cons,
        Nat.add_zero, if_pos hasgt]
      rfl
    · rw [List.filter_cons_of_neg (by rwa [decide_eq_true_iff]), Nat.add_zero, if_neg hasgt,
        zero_add]

/-! ### All students -/

/-- The rosters after `composites` has been over `students`. -/
def withComposites (composite : ℕ → ℚ) (students : List ℕ) (c : Rosters) : Rosters :=
  { c with student := fun p =>
      if p ∈ students then { c.student p with composite := composite p } else c.student p }

theorem foldl_composites (composite : ℕ → ℚ) (students : List ℕ) (c : Rosters) :
    students.foldl (fun c stp =>
      let student := { c.student stp with composite := composite stp }
      { c with student := Function.update c.student stp student }) c =
      withComposites composite students c := by
  induction students generalizing c with
  | nil => rfl
  | cons stp students ih =>
    rw [List.foldl_cons, ih, withComposites, withComposites]
    congr 1
    funext p
    -- a student that is met again gets the same composite
    by_cases hp : p = stp
    · subst hp
      dsimp only
      rw [if_pos List.mem_cons_self, Function.update_self, ite_self]
    · have hmem : p ∈ stp :: students ↔ p ∈ students := by
        rw [List.mem_cons, or_iff_right hp]
      dsimp only
      rw [Function.update_of_ne hp]
      simp only [hmem]

theorem composites_eq_withComposites {students : List ℕ} (normscores : ℕ → List Score)
    (assignments : List Assignment) {fuel : ℕ} (roster : Links c.cnext c.roster students)
    (enough : students.length + 1 ≤ fuel) :
    composites fuel normscores assignments c = some (withComposites
      (fun p => ((normscores p).map fun nscp => nscp.grade * factorOf assignments nscp.asgt).sum)
      students c) := by
  have hwalk : follow (getcnext c) fuel c.roster = some students := roster.follow_eq enough
  rw [composites, hwalk]
  simp only [compositeOf_eq]
  exact congrArg some (foldl_composites _ students c)

/-- After `statistics`, `normalize` and `composites` every student has a normalized score for each
raw one. That of a score that counts is its value for the statistics, and the composite is the sum
of all, each times the weight that its assignment was declared with, or 1. Nothing else has
changed since the links were set. -/
theorem composites_weighted (sqrt : ℚ → ℚ) (norms : ℕ → ℕ → Norms)
    (assignments : List Assignment) (nonempty : assignments ≠ [])
    (rosters : List.Forall₂ (Links c.next) c.sections ls) (disjoint : ls.flatten.Nodup)
    (declared : ∀ p ∈ ls.flatten, ∀ scp ∈ (c.student p).rawscores,
      scp.asgt < assignments.length) :
    ∃ c' stats normscores st', (∀ fuel, ls.flatten.length + 1 ≤ fuel →
        completeStatistics sqrt fuel assignments.length c = some (c', stats) ∧
        normalize norms fuel c' ⟨assignments, stats⟩ = some (normscores, st')) ∧
      ∃ c'', (∀ fuel, ls.flatten.length + 1 ≤ fuel →
          composites fuel normscores st'.assignments c' = some c'') ∧
        c'' = { c' with student := c''.student } ∧
        (∀ p ∉ ls.flatten, c''.student p = c'.student p) ∧
        ∀ k students, ls[k]? = some students → ∀ p ∈ students,
          List.Forall₂ (fun scp nscp => scp.Pairs nscp ∧ (scp.Counts →
              Grading.valueOf ⟨assignments, stats⟩ (scp.link assignments.length k) =
                some nscp.grade))
            (c.student p).rawscores (normscores p) ∧
          c''.student p = { (c.student p).link assignments.length k with
            composite := ((normscores p).map fun nscp =>
              nscp.grade * factorOf assignments nscp.asgt).sum } := by
  obtain ⟨c', stats, normscores, st', hrun, hrecords, hreaches, hplaces⟩ :=
    normalize_places sqrt norms assignments rosters disjoint declared
  obtain ⟨hroster, hstudents⟩ := hplaces nonempty
  refine ⟨c', stats, normscores, st', hrun, _, fun fuel hfuel =>
    composites_eq_withComposites normscores st'.assignments hroster hfuel, rfl,
    fun p hp => if_neg hp, fun k students hk p hp => ?_⟩
  obtain ⟨hlinked, hscores⟩ := hstudents k students hk p hp
  have hflat : p ∈ ls.flatten := List.mem_flatten.mpr ⟨students, List.mem_of_getElem? hk, hp⟩
  constructor
  · have hlinks : ∀ scp ∈ (c.student p).rawscores,
        (scp.link assignments.length k).Linked ⟨assignments, stats⟩ := by
      intro scp hscp
      obtain ⟨a, csp, ssp, hlookup, -⟩ := lookup_ranks hrecords hk (declared p hflat scp hscp)
      rw [link_of_lt (declared p hflat scp hscp)]
      exact ⟨k, _, rfl, hlookup⟩
    have hboth := (List.forall₂_and_left _ _).mpr ⟨hlinks, hscores⟩
    exact hboth.imp fun scp nscp h => ⟨h.2.1, fun hcounts => (h.2.2 hcounts).value h.1⟩
  · rw [← hlinked]
    simp only [hreaches.factorOf]
    exact if_pos hflat

/-- An assignment that counts twice. -/
def doubleAssignment : Assignment := ⟨[], .weight, 2, .raw, 0, 0, 0, 0, .byClass⟩

theorem composites_weighted_example :
    ∃ c' stats normscores st' c'', completeStatistics id 3 1 twoScores = some (c', stats) ∧
      normalize (fun _ _ => ⟨0, 0⟩) 3 c' ⟨[doubleAssignment], stats⟩ = some (normscores, st') ∧
      composites 3 normscores st'.assignments c' = some c'' ∧
      ∃ nscp, normscores 2 = [nscp] ∧ (c''.student 2).composite = nscp.grade * 2 := by
  obtain ⟨c', stats, normscores, st', hrun, c'', hcomposites, -, -, hstudents⟩ :=
    composites_weighted id (fun _ _ => ⟨0, 0⟩) [doubleAssignment] (List.cons_ne_nil _ _)
      twoScores_rosters (by decide) twoScores_declared
  obtain ⟨hstatistics, hnormalize⟩ := hrun 3 (Nat.le_refl 3)
  obtain ⟨hscores, hcomposite⟩ := hstudents 0 [1, 2] rfl 2 (by decide)
  obtain ⟨nscp, hnscp⟩ := List.length_eq_one_iff.mp hscores.length_eq.symm
  refine ⟨c', stats, normscores, st', c'', hstatistics, hnormalize,
    hcomposites 3 (Nat.le_refl 3), nscp, hnscp, ?_⟩
  rw [hnscp] at hscores hcomposite
  obtain ⟨⟨hasgt, -⟩, -⟩ := (List.forall₂_cons.mp hscores).1
  rw [hcomposite]
  change [nscp.grade * factorOf [doubleAssignment] nscp.asgt].sum = _
  rw [hasgt, List.sum_singleton]
  rfl

end CLanguage.Grades
