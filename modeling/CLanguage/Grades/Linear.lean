import CLanguage.Grades.Moments
import CLanguage.Grades.Places
import Mathlib

/-!
# Linear normalization

With `LINEAR` normalization the normalized scores of a group, by class or by section, are an
affine image of the raw ones: their mean is the one declared for the assignment, and so is
their standard deviation, unless the raw scores hardly deviate at all.

## Main results

* `scoresOf_normalized` — the normalized scores of a group as the image of the raw ones
* `normalize_linear` — the normalized scores of a group have the declared moments
-/

namespace CLanguage.Grades

open CLanguage.Lib

variable {c : Rosters} {st' : Grading} {scp : Score} {students : List ℕ} {ls : List (List ℕ)}
  {assignments : List Assignment} {stats : List Classrecord} {a : Assignment}
  {csp : Classrecord} {ssp : Sectionrecord} {normscores : ℕ → List Score} {i k : ℕ}

/-! ### Groups of normalized scores -/

/-- A student with its normalized scores in the place of the raw ones. -/
def normalized (c : Rosters) (normscores : ℕ → List Score) (p : ℕ) : Student :=
  { c.student p with rawscores := normscores p }

/-- Two lists of scores that correspond, place by place, and by `f` where they count for
assignment `i`. -/
def Carried (f : ℚ → ℚ) (i : ℕ) (scores nscores : List Score) : Prop :=
  List.Forall₂ (fun scp nscp =>
    scp.Pairs nscp ∧ (scp.Counts → scp.asgt = i → nscp.grade = f scp.grade)) scores nscores

theorem Carried.map_grade {f : ℚ → ℚ} {scores nscores : List Score}
    (h : Carried f i scores nscores) :
    (nscores.filter fun nscp => nscp.Counts ∧ nscp.asgt = i).map Score.grade =
      ((scores.filter fun scp => scp.Counts ∧ scp.asgt = i).map Score.grade).map f := by
  induction h with
  | nil => rfl
  | @cons scp nscp scores nscores hscore _ ih =>
    obtain ⟨hpairs, hgrade⟩ := hscore
    have hsame : nscp.Counts ∧ nscp.asgt = i ↔ scp.Counts ∧ scp.asgt = i := by
      rw [hpairs.counts_iff, hpairs.1]
    simp only [List.filter_cons, hsame, decide_eq_true_eq]
    split
    · next hcounts =>
      rw [List.map_cons, List.map_cons, List.map_cons, hgrade hcounts.1 hcounts.2, ih]
    · exact ih

theorem scoresOf_normalized {f : ℚ → ℚ}
    (h : ∀ p ∈ students, Carried f i (c.student p).rawscores (normscores p)) :
    scoresOf (normalized c normscores) students i = (scoresOf c.student students i).map f := by
  induction students with
  | nil => rfl
  | cons p students ih =>
    obtain ⟨hp, hstudents⟩ := List.forall_mem_cons.mp h
    rw [scoresOf_cons, scoresOf_cons, List.map_append, ih hstudents]
    congr 1
    exact hp.map_grade

/-! ### `LINEAR` normalization -/

theorem normalValue_linear {gs : List ℚ} {sqrt : ℚ → ℚ} (hpolicy : a.npolicy = .linear)
    (h : (csp.group ssp a.ngroup).HasMoments sqrt gs) (s : ℚ) :
    normalValue s a csp ssp = linear s (mean gs) (raise (deviation sqrt gs)) a.mean a.stddev := by
  rw [normalValue, hpolicy]
  dsimp only
  rw [h.mean, h.stddev]

/-- `linear` is affine. -/
theorem linear_eq (rm rd nm nd : ℚ) :
    (fun s => linear s rm rd nm nd) = fun s => nd / rd * s + (nm - nd / rd * rm) := by
  ext s
  rw [linear]
  ring

/-- The moments of the normalized scores. -/
theorem moments_linear {gs : List ℚ} (hgs : gs ≠ []) (rd nm nd : ℚ) :
    mean (gs.map fun s => linear s (mean gs) rd nm nd) = nm ∧
      sampleVariance (gs.map fun s => linear s (mean gs) rd nm nd) =
        (nd / rd) ^ 2 * sampleVariance gs := by
  rw [linear_eq]
  constructor
  · rw [mean_affine hgs]
    ring
  · exact sampleVariance_affine hgs _ _

/-- What a score of section `k` finds behind its pointers. -/
theorem lookup_moments {sqrt : ℚ → ℚ} (moments : MomentsOf sqrt c.student ls assignments.length stats)
    (hk : ls[k]? = some students) (ha : assignments[i]? = some a) :
    ∃ csp ssp, Grading.lookup i k ⟨assignments, stats⟩ = some (a, csp, ssp) ∧
      (csp.group ssp a.ngroup).HasMoments sqrt (groupScores c.student ls i k a.ngroup) := by
  obtain ⟨csp, hcsp, hclass, hsection⟩ := moments i (List.getElem?_eq_some_iff.mp ha).1
  obtain ⟨ssp, hssp, hmoments⟩ := hsection k students hk
  refine ⟨csp, ssp, lookup_eq_some.mpr ⟨ha, hcsp, hssp⟩, ?_⟩
  cases a.ngroup with
  | byClass => exact hclass
  | bySection =>
    rw [groupScores, List.getD_eq_getElem?_getD, hk, Option.getD_some]
    exact hmoments

/-- A property of the students of a group, by class or by section, gives one of its scores. -/
theorem groupScores_normalized {f : ℚ → ℚ} {ngroup : Ngroup} (hk : ls[k]? = some students)
    (h : ∀ k' students', ls[k']? = some students' → (ngroup = .bySection → k = k') →
      ∀ p ∈ students', Carried f i (c.student p).rawscores (normscores p)) :
    groupScores (normalized c normscores) ls i k ngroup =
      (groupScores c.student ls i k ngroup).map f := by
  cases ngroup with
  | byClass =>
    refine scoresOf_normalized fun p hp => ?_
    obtain ⟨students', hstudents, hp'⟩ := List.mem_flatten.mp hp
    obtain ⟨k', hk'⟩ := List.mem_iff_getElem?.mp hstudents
    exact h k' students' hk' (fun hne => by cases hne) p hp'
  | bySection =>
    rw [groupScores, groupScores, List.getD_eq_getElem?_getD, hk, Option.getD_some]
    exact scoresOf_normalized (h k students hk fun _ => rfl)

/-- The value of a score whose assignment has `LINEAR` normalization. -/
theorem Normalizes.linear {sqrt : ℚ → ℚ} {g : ℚ}
    (h : Normalizes ⟨assignments, stats⟩ st' (scp.link assignments.length k) g)
    (moments : MomentsOf sqrt c.student ls assignments.length stats)
    (hk : ls[k]? = some students) (ha : assignments[scp.asgt]? = some a)
    (hpolicy : a.npolicy = .linear) :
    let gs := groupScores c.student ls scp.asgt k a.ngroup
    g = Grades.linear scp.grade (mean gs) (raise (deviation sqrt gs)) a.mean a.stddev := by
  obtain ⟨csp, ssp, hlookup, hgroup⟩ := lookup_moments moments hk ha
  rw [link_of_lt (List.getElem?_eq_some_iff.mp ha).1] at h
  have hvalue := h.value ⟨k, _, rfl, hlookup⟩
  have hsame : Grading.valueOf ⟨assignments, stats⟩
      { scp with cstats := some scp.asgt, sstats := some (scp.asgt, k) } =
        some (normalValue scp.grade a csp ssp) := value_of_lookup hlookup
  rw [← Option.some.inj (hsame.symm.trans hvalue)]
  exact normalValue_linear hpolicy hgroup scp.grade

/-- The records have the moments of their groups. With `LINEAR` normalization, by class or by
section, the scores of a group that count get the mean that is declared for their assignment.
Their variance is the declared one as well, if the root of that of the raw scores is exact and
not replaced as too small. -/
theorem normalize_linear (sqrt : ℚ → ℚ) (norms : ℕ → ℕ → Norms) (assignments : List Assignment)
    (rosters : List.Forall₂ (Links c.next) c.sections ls) (disjoint : ls.flatten.Nodup)
    (declared : ∀ p ∈ ls.flatten, ∀ scp ∈ (c.student p).rawscores,
      scp.asgt < assignments.length) :
    ∃ c' stats normscores st', (∀ fuel, ls.flatten.length + 1 ≤ fuel →
        completeStatistics sqrt fuel assignments.length c = some (c', stats) ∧
        normalize norms fuel c' ⟨assignments, stats⟩ = some (normscores, st')) ∧
      MomentsOf sqrt c.student ls assignments.length stats ∧
      ∀ i a, assignments[i]? = some a → a.npolicy = .linear → ∀ k < ls.length,
        let gs := groupScores c.student ls i k a.ngroup
        let ns := groupScores (normalized c normscores) ls i k a.ngroup
        let rd := raise (deviation sqrt gs)
        ns = gs.map (fun s => linear s (mean gs) rd a.mean a.stddev) ∧
          (gs ≠ [] → mean ns = a.mean ∧
            sampleVariance ns = (a.stddev / rd) ^ 2 * sampleVariance gs ∧
            (2 ≤ gs.length → sqrt (sampleVariance gs) ^ 2 = sampleVariance gs →
              epsilon ≤ sqrt (sampleVariance gs) → sampleVariance ns = a.stddev ^ 2)) := by
  obtain ⟨c', stats, normscores, st', hrun, -, -, hplaces⟩ :=
    normalize_places sqrt norms assignments rosters disjoint declared
  have hmoments := statistics_moments rosters disjoint declared (hrun _ le_rfl).1
  refine ⟨c', stats, normscores, st', hrun, hmoments, fun i a ha hpolicy k hk => ?_⟩
  obtain ⟨-, hstudents⟩ := hplaces (List.ne_nil_of_mem (List.mem_of_getElem? ha))
  generalize hgs : groupScores c.student ls i k a.ngroup = gs
  -- the value of a score that counts, of any section whose scores are normalized together
  have hcarried : ∀ k' students', ls[k']? = some students' → (a.ngroup = .bySection → k = k') →
      ∀ p ∈ students', Carried (fun s => linear s (mean gs) (raise (deviation sqrt gs)) a.mean
        a.stddev) i (c.student p).rawscores (normscores p) := by
    intro k' students' hk' hsection p hp
    refine (hstudents k' students' hk' p hp).2.imp fun scp nscp hscore => ?_
    refine ⟨hscore.1, fun hcounts hasgt => ?_⟩
    subst hasgt
    have hgrade := (hscore.2 hcounts).linear hmoments hk' ha hpolicy
    rw [← groupScores_eq c.student ls scp.asgt hsection, hgs] at hgrade
    exact hgrade
  have hns := groupScores_normalized (List.getElem?_eq_getElem hk) hcarried
  rw [hgs] at hns
  refine ⟨hns, fun hne => ?_⟩
  rw [hns]
  obtain ⟨hmean, hvariance⟩ := moments_linear hne (raise (deviation sqrt gs)) a.mean a.stddev
  refine ⟨hmean, hvariance, fun htwo hroot hlarge => ?_⟩
  have hpos : 0 < sampleVariance gs := by
    rw [← hroot]
    exact pow_pos (epsilon_pos.trans_le hlarge) 2
  rw [hvariance, deviation, if_pos htwo, raise, if_neg (not_lt.mpr hlarge), div_pow, hroot]
  exact div_mul_cancel₀ _ hpos.ne'

/-- A course with one assignment and one section of three students, with the scores 3, 5 and 7. -/
def threeScores : Rosters where
  student := fun p => ⟨[], [], [], [⟨0, 2 * p + 1, .valid, .useRaw, none, none⟩], 0⟩
  next := fun p => if p < 3 then some (p + 1) else none
  cnext := fun _ => none
  roster := none
  sections := [some 1]

/-- An assignment with the mean 80 and the standard deviation 10 in every section. -/
def linearAssignment : Assignment :=
  ⟨[], .noWeight, 0, .linear, 0, 80, 10, 0, .bySection⟩

theorem normalize_linear_example :
    ∃ c' stats normscores st', completeStatistics Rat.sqrt 4 1 threeScores = some (c', stats) ∧
      normalize (fun _ _ => ⟨0, 0⟩) 4 c' ⟨[linearAssignment], stats⟩ = some (normscores, st') ∧
      mean (scoresOf (normalized threeScores normscores) [1, 2, 3] 0) = 80 ∧
      sampleVariance (scoresOf (normalized threeScores normscores) [1, 2, 3] 0) = 10 ^ 2 := by
  have rosters : List.Forall₂ (Links threeScores.next) threeScores.sections [[1, 2, 3]] :=
    .cons ⟨rfl, rfl, rfl, rfl⟩ .nil
  have declared : ∀ p ∈ [[1, 2, 3]].flatten, ∀ scp ∈ (threeScores.student p).rawscores,
      scp.asgt < 1 := by
    intro p _ scp hscp
    obtain rfl := List.mem_singleton.mp hscp
    exact Nat.zero_lt_one
  obtain ⟨c', stats, normscores, st', hrun, -, hlinear⟩ := normalize_linear Rat.sqrt
    (fun _ _ => ⟨0, 0⟩) [linearAssignment] rosters (by decide) declared
  obtain ⟨hstatistics, hnormalize⟩ := hrun 4 (Nat.le_refl 4)
  obtain ⟨-, hmoments⟩ := hlinear 0 linearAssignment rfl rfl 0 Nat.zero_lt_one
  have hgroup : groupScores threeScores.student [[1, 2, 3]] 0 0 linearAssignment.ngroup =
      [3, 5, 7] := by
    decide_cbv
  have hvariance : sampleVariance [(3 : ℚ), 5, 7] = 2 * 2 := by
    norm_num [sampleVariance, sumSquaredDev, mean]
  rw [hgroup, hvariance, Rat.sqrt_eq] at hmoments
  obtain ⟨hmean, -, hnormalized⟩ := hmoments (List.cons_ne_nil _ _)
  refine ⟨c', stats, normscores, st', hstatistics, hnormalize, hmean, hnormalized ?_ ?_ ?_⟩
  · decide
  · norm_num
  · norm_num [epsilon]

end CLanguage.Grades
