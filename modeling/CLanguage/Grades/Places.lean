import CLanguage.Grades.Percentiles
import Mathlib

/-!
# The places of normalized scores

`normalize` makes a list of normalized scores that follows the list of the raw ones, place by
place: the assignment and the flags are those of the raw score, and the grade of a score that
counts is its value for the statistics of the course (`normalize_places`).
-/

namespace CLanguage.Grades

open CLanguage.Lib

variable {norms : ℕ → ℕ → Norms} {c : Rosters} {st st' : Grading} {stp : Student}
  {scp nscp : Score} {students : List ℕ} {ls : List (List ℕ)}
  {normscores normscores' : ℕ → List Score} {k : ℕ}

/-! ### Corresponding scores -/

/-- `nscp` is the normalized version of `scp`, but for its grade. -/
def Score.Pairs (scp nscp : Score) : Prop :=
  nscp.asgt = scp.asgt ∧ nscp.flag = scp.flag ∧ nscp.subst = scp.subst

theorem Score.Pairs.counts_iff (h : scp.Pairs nscp) : nscp.Counts ↔ scp.Counts := by
  obtain ⟨-, hflag, hsubst⟩ := h
  rw [Score.Counts, Score.Counts, hflag, hsubst]

theorem normalizeScores_pairs {scores : List (Score × Norms)} {nscores : List Score}
    (h : normalizeScores stp scores st = some (nscores, st')) :
    List.Forall₂ (fun e nscp => e.1.Pairs nscp) scores nscores := by
  induction scores generalizing st st' nscores with
  | nil =>
    obtain ⟨rfl, -⟩ := Prod.mk.inj (Option.some.inj h)
    exact .nil
  | cons e scores ih =>
    obtain ⟨rscp, ns⟩ := e
    obtain ⟨⟨grade, st₁⟩, -, h⟩ := Option.bind_eq_some_iff.mp h
    obtain ⟨⟨rest, st₂⟩, hrest, h⟩ := Option.bind_eq_some_iff.mp h
    obtain ⟨rfl, -⟩ := Prod.mk.inj (Option.some.inj h)
    exact .cons ⟨rfl, rfl, rfl⟩ (ih hrest)

theorem normalizeStudents_pairs
    (h : normalizeStudents norms c students (normscores, st) = some (normscores', st')) :
    (∀ p ∉ students, normscores' p = normscores p) ∧
      ∀ p ∈ students, List.Forall₂ Score.Pairs (c.student p).rawscores (normscores' p) := by
  induction students generalizing normscores st with
  | nil =>
    obtain ⟨rfl, -⟩ := Prod.mk.inj (Option.some.inj h)
    exact ⟨fun _ _ => rfl, fun _ hp => absurd hp List.not_mem_nil⟩
  | cons stp students ih =>
    obtain ⟨⟨nscores, st₁⟩, hscores, h⟩ := Option.bind_eq_some_iff.mp h
    obtain ⟨hother, hstudents⟩ := ih h
    have hpairs := normalizeScores_pairs hscores
    rw [List.forall₂_map_left_iff] at hpairs
    have hplaces : List.Forall₂ Score.Pairs (c.student stp).rawscores nscores := by
      rw [← List.zipIdx_map_fst 0 (c.student stp).rawscores]
      exact List.forall₂_map_left_iff.mpr hpairs
    refine ⟨fun p hp => ?_, fun p hp => ?_⟩
    · rw [List.mem_cons, not_or] at hp
      rw [hother p hp.2, Function.update_of_ne hp.1]
    · by_cases hrest : p ∈ students
      · exact hstudents p hrest
      · obtain rfl := (List.mem_cons.mp hp).resolve_right hrest
        rw [hother p hrest, Function.update_self]
        exact hplaces

/-- Every raw score of a student on the course roster has a normalized one at its place, for the
same assignment and with the same flags. -/
theorem normalize_pairs {fuel : ℕ} (roster : Links c.cnext c.roster students)
    (enough : students.length + 1 ≤ fuel)
    (h : normalize norms fuel c st = some (normscores, st')) :
    ∀ p ∈ students, List.Forall₂ Score.Pairs (c.student p).rawscores (normscores p) := by
  have hwalk : follow (getcnext c) fuel c.roster = some students := roster.follow_eq enough
  rw [normalize, hwalk] at h
  exact (normalizeStudents_pairs h).2

theorem pairs_link_iff (n k : ℕ) : (scp.link n k).Pairs nscp ↔ scp.Pairs nscp := by
  rw [Score.link]
  split
  · exact Iff.rfl
  · exact Iff.rfl

theorem pairs_of_link {n : ℕ} {nscores : List Score}
    (h : List.Forall₂ Score.Pairs (stp.link n k).rawscores nscores) :
    List.Forall₂ Score.Pairs stp.rawscores nscores := by
  rw [Student.link, List.forall₂_map_left_iff] at h
  exact h.imp fun _ _ hpairs => (pairs_link_iff n k).mp hpairs

/-! ### After the statistics -/

/-- Scores that correspond, place by place, and by `R` where they count. -/
theorem pairs_and {R : Score → Score → Prop} {scores nscores : List Score}
    (hpairs : List.Forall₂ Score.Pairs scores nscores)
    (h : ∀ (j : ℕ) scp, scores[j]? = some scp → scp.Counts →
      ∃ nscp, nscores[j]? = some nscp ∧ R scp nscp) :
    List.Forall₂ (fun scp nscp => scp.Pairs nscp ∧ (scp.Counts → R scp nscp)) scores nscores := by
  rw [List.forall₂_iff_get] at hpairs ⊢
  refine ⟨hpairs.1, fun j hj hj' => ⟨hpairs.2 j hj hj', fun hcounts => ?_⟩⟩
  obtain ⟨nscp, hnscp, hR⟩ := h j _ (List.getElem?_eq_getElem hj) hcounts
  obtain rfl := Option.some.inj ((List.getElem?_eq_getElem hj').symm.trans hnscp)
  exact hR

/-- After `statistics`, `normalize` gives every student a normalized score at the place of each raw
one, and each that counts is normalized on the way. -/
theorem normalize_places (sqrt : ℚ → ℚ) (norms : ℕ → ℕ → Norms) (assignments : List Assignment)
    (rosters : List.Forall₂ (Links c.next) c.sections ls) (disjoint : ls.flatten.Nodup)
    (declared : ∀ p ∈ ls.flatten, ∀ scp ∈ (c.student p).rawscores,
      scp.asgt < assignments.length) :
    ∃ c' stats normscores st', (∀ fuel, ls.flatten.length + 1 ≤ fuel →
        completeStatistics sqrt fuel assignments.length c = some (c', stats) ∧
        normalize norms fuel c' ⟨assignments, stats⟩ = some (normscores, st')) ∧
      RecordsOf c.student ls assignments.length stats ∧ Reaches ⟨assignments, stats⟩ st' ∧
      (assignments ≠ [] → Links c'.cnext c'.roster ls.flatten ∧
        ∀ k students, ls[k]? = some students → ∀ p ∈ students,
          c'.student p = (c.student p).link assignments.length k ∧
          List.Forall₂ (fun scp nscp => scp.Pairs nscp ∧ (scp.Counts →
              Normalizes ⟨assignments, stats⟩ st' (scp.link assignments.length k) nscp.grade))
            (c.student p).rawscores (normscores p)) := by
  obtain ⟨c', stats, normscores, st', hrun, hroster, hrecords, hreaches, hscores⟩ :=
    normalize_statistics sqrt norms assignments rosters disjoint declared
  refine ⟨c', stats, normscores, st', hrun, hrecords, hreaches, fun hsome => ?_⟩
  obtain ⟨hstatistics, hnormalize⟩ := hrun _ le_rfl
  obtain ⟨c'', stats', hrun', -, -, hlinked, -⟩ :=
    completeStatistics_spec sqrt rosters disjoint declared
  obtain ⟨rfl, -⟩ := Prod.mk.inj (Option.some.inj ((hrun' _ le_rfl).symm.trans hstatistics))
  rw [if_neg hsome] at hroster
  refine ⟨hroster, fun k students hk p hp => ⟨hlinked k students hk p hp, ?_⟩⟩
  have hflat : p ∈ ls.flatten := List.mem_flatten.mpr ⟨students, List.mem_of_getElem? hk, hp⟩
  have hpairs := normalize_pairs hroster le_rfl hnormalize p hflat
  rw [hlinked k students hk p hp] at hpairs
  refine pairs_and (pairs_of_link hpairs) fun j scp hj hcounts => ?_
  obtain ⟨nscp, hnscp, -, hnormalizes⟩ := hscores k p j scp ⟨students, hk, hp, hj, hcounts⟩
  exact ⟨nscp, hnscp, hnormalizes⟩

end CLanguage.Grades
