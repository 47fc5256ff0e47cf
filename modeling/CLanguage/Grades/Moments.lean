import CLanguage.Grades.Percentiles
import CLanguage.Lib.Moments
import Mathlib

/-!
# Means and standard deviations

What `do_moments` leaves in the records, for the class and for every section: the mean of
the scores of the group, and the square root of their sample variance if there are two at
least. The number under the root is never negative.

## Main results

* `statistics_moments` — the moments after `statistics`
-/

namespace CLanguage.Grades

open CLanguage.Lib

variable {sqrt : ℚ → ℚ} {s : Sectionstats} {c c' : Rosters} {stats : List Classrecord}
  {gs : List ℚ} {ls : List (List ℕ)} {n i k : ℕ}

/-! ### One record -/

/-- The deviation that a record has for the scores `gs`. -/
def deviation (sqrt : ℚ → ℚ) (gs : List ℚ) : ℚ :=
  if 2 ≤ gs.length then sqrt (sampleVariance gs) else 0

/-- The moments of a record are those of the scores `gs`, whose variance has a root. -/
structure Sectionrecord.HasMoments (sqrt : ℚ → ℚ) (r : Sectionrecord) (gs : List ℚ) : Prop where
  mean : r.mean = Lib.mean gs
  stddev : r.stddev = deviation sqrt gs
  variance_nonneg : 0 ≤ sampleVariance gs

theorem Counted.hasMoments (h : Counted s gs) (table : Sectionquantiles) :
    (s.moments sqrt table).HasMoments sqrt gs := by
  refine ⟨?_, ?_, sampleVariance_nonneg gs⟩
  · simp only [Sectionstats.moments, h.valid, h.sum, Lib.mean]
    split
    · rfl
    · next hzero =>
      rw [not_not.mp hzero, Nat.cast_zero, div_zero]
  · simp only [Sectionstats.moments, h.valid, h.sum, h.sumsq]
    rw [deviation, sampleVariance, sumSquaredDev_eq, stddev]
    -- the cases of no and of one score
    split
    · split
      · next hone => rw [hone, if_neg (by decide)]
      · rfl
    · next hzero => rw [not_not.mp hzero, if_neg (by decide)]

/-! ### The records of a course -/

/-- The counts and sums of assignment `i` after both loops. -/
theorem record_counted (student : ℕ → Student) (ls : List (List ℕ)) (hi : i < n) :
    ∃ csp, (foldEvents sumScore (events student 0 ls)
        (foldEvents tallyScore (events student 0 ls) (buildstats n ls.length)))[i]? = some csp ∧
      Counted csp.toSectionstats (scoresOf student ls.flatten i) ∧
      ∀ (k : ℕ) (students : List ℕ), ls[k]? = some students →
        ∃ ssp, csp.sstats[k]? = some ssp ∧ Counted ssp (scoresOf student students i) := by
  have hbuilt : (buildstats n ls.length)[i]? =
      some { Sectionstats.empty with sstats := List.replicate ls.length .empty } := by
    rw [buildstats, List.getElem?_replicate, if_pos hi]
  have hinside : ∀ e ∈ ofAssignment i (events student 0 ls), e.1 < ls.length := fun e he =>
    (lt_of_mem_events student ls i 0 e he).trans_eq (Nat.zero_add _)
  rw [getElem?_foldEvents, getElem?_foldEvents, hbuilt, Option.map_some, Option.map_some,
    ← map_snd_events student ls i 0]
  generalize hes : ofAssignment i (events student 0 ls) = es at hinside
  generalize hcsp₁ : es.foldl (fun csp e => tallyScore e.1 e.2 csp) _ = csp₁
  obtain ⟨hclass, hlength, hsection⟩ := foldl_body separate_tallyScore es _
    (fun e he => (hinside e he).trans_eq List.length_replicate.symm) hcsp₁
  rw [List.length_replicate] at hlength
  generalize hcsp₂ : es.foldl (fun csp e => sumScore e.1 e.2 csp) csp₁ = csp₂
  obtain ⟨hclass', -, hsection'⟩ := foldl_body separate_sumScore es csp₁
    (fun e he => (hinside e he).trans_eq hlength.symm) hcsp₂
  -- the loop over the frequencies leaves the sums at zero
  have hzero : ∀ gs : List ℚ, Counted (gs.foldl (fun s g => s.tally g) Sectionstats.empty) [] := by
    intro gs
    obtain ⟨freqs, htally⟩ := foldl_tally gs .empty
    rw [htally]
    exact ⟨rfl, rfl, rfl⟩
  refine ⟨csp₂, rfl, ?_, fun k students hk => ?_⟩
  · have hstart := hzero (es.map Prod.snd)
    rw [← show csp₁.toSectionstats = _ from hclass] at hstart
    exact (foldl_addClass hstart _ hclass'.symm).1
  · have hof := ofSection_events student i 0 hk
    rw [Nat.zero_add, hes] at hof
    rw [hsection' k, hsection k, List.getElem?_replicate,
      if_pos (List.getElem?_eq_some_iff.mp hk).1, Option.map_some, Option.map_some, ← hof]
    exact ⟨_, rfl, (foldl_addSection (hzero _) _ rfl).1⟩

/-- The moments of all records are those of the groups of a course. -/
def MomentsOf (sqrt : ℚ → ℚ) (student : ℕ → Student) (ls : List (List ℕ)) (n : ℕ)
    (stats : List Classrecord) : Prop :=
  ∀ i < n, ∃ csp, stats[i]? = some csp ∧
    csp.HasMoments sqrt (scoresOf student ls.flatten i) ∧
    ∀ (k : ℕ) (students : List ℕ), ls[k]? = some students →
      ∃ ssp, csp.sstats[k]? = some ssp ∧ ssp.HasMoments sqrt (scoresOf student students i)

theorem momentsOf_doMoments (sqrt : ℚ → ℚ) (student : ℕ → Student) (ls : List (List ℕ)) (n : ℕ) :
    MomentsOf sqrt student ls n (doMoments sqrt
      (doQuantiles (foldEvents tallyScore (events student 0 ls) (buildstats n ls.length)))
      (foldEvents sumScore (events student 0 ls)
        (foldEvents tallyScore (events student 0 ls) (buildstats n ls.length)))) := by
  intro i hi
  obtain ⟨table, htable, -, htables⟩ := record_tabulated student ls hi
  obtain ⟨csp, hcsp, hclass, hsection⟩ := record_counted student ls hi
  rw [doMoments, doQuantiles, List.getElem?_zipWith, List.getElem?_map, htable, hcsp]
  refine ⟨_, rfl, hclass.hasMoments _, fun k students hk => ?_⟩
  obtain ⟨table', htable', -⟩ := htables k students hk
  obtain ⟨ssp, hssp, hcounted⟩ := hsection k students hk
  dsimp only
  rw [List.getElem?_zipWith, List.getElem?_map, htable', hssp]
  exact ⟨_, rfl, hcounted.hasMoments _⟩

/-- After `statistics`, every record has the mean and the standard deviation of its group. -/
theorem statistics_moments (rosters : List.Forall₂ (Links c.next) c.sections ls)
    (disjoint : ls.flatten.Nodup)
    (declared : ∀ p ∈ ls.flatten, ∀ scp ∈ (c.student p).rawscores, scp.asgt < n)
    (run : completeStatistics sqrt (ls.flatten.length + 1) n c = some (c', stats)) :
    MomentsOf sqrt c.student ls n stats := by
  obtain ⟨c₁, hrun, hloop, -⟩ := doLinks_forScores rosters disjoint declared
  have hfreqs := hloop _ le_rfl tallyScore (buildstats n c.sections.length)
  have hsums := hloop _ le_rfl sumScore
    (foldEvents tallyScore (events c.student 0 ls) (buildstats n c.sections.length))
  rw [completeStatistics, hrun _ le_rfl, Option.bind_eq_bind, Option.bind_some, doFreqs, hfreqs,
    Option.bind_eq_bind, Option.bind_some, doSums, hsums] at run
  obtain ⟨rfl, rfl⟩ := Prod.mk.inj (Option.some.inj run)
  rw [rosters.length_eq]
  exact momentsOf_doMoments sqrt c.student ls n

end CLanguage.Grades
