import Mathlib.Data.List.Count
import CLanguage.Grades.Normalized

/-!
# Percentiles

With `QUANTILE` normalization a score becomes the percentage of the scores of its group
that are less. The table that `normal` searches is that of the scores that count
(`completeStatistics_spec`), and the score itself is one of them, so that the search ends
at its bucket.
-/

namespace CLanguage.Grades

open CLanguage.Lib

variable {c : Rosters} {ls : List (List ℕ)} {i k n : ℕ} {s g g' : ℚ} {gs : List ℚ}
  {assignments : List Assignment} {a : Assignment} {scp : Score}

/-! ### The complete statistics -/

theorem tallied_foldl_addClass (gs : List ℚ) (s : Sectionstats) :
    (gs.foldl (fun s g => s.addClass g) s).tallied = s.tallied := by
  induction gs generalizing s with
  | nil => rfl
  | cons g gs ih => rw [List.foldl_cons, ih, tallied_addClass]

theorem tallied_foldl_addSection (gs : List ℚ) (s : Sectionstats) :
    (gs.foldl (fun s g => s.addSection g) s).tallied = s.tallied := by
  induction gs generalizing s with
  | nil => rfl
  | cons g gs ih => rw [List.foldl_cons, ih, tallied_addSection]

/-- The quantiles of a record stay with it. -/
theorem Sectionstats.Tabulated.moments {s s' : Sectionstats} (h : s.Tabulated gs)
    (tallied : s'.tallied = s.tallied) (sqrt : ℚ → ℚ) :
    (s'.moments sqrt s.fill).Ranks gs := by
  have hranks := h.ranks
  exact ⟨hranks.increasing, hranks.bucket, hranks.count, hranks.sum.trans tallied.symm,
    tallied.trans h.tallied, hranks.numless, hranks.numlesseq⟩

/-- The record of assignment `i` with all its members. -/
theorem record_complete (sqrt : ℚ → ℚ) (student : ℕ → Student) (ls : List (List ℕ)) (hi : i < n) :
    ∃ csp, (doMoments sqrt
        (doQuantiles (foldEvents tallyScore (events student 0 ls) (buildstats n ls.length)))
        (foldEvents sumScore (events student 0 ls)
          (foldEvents tallyScore (events student 0 ls) (buildstats n ls.length))))[i]? = some csp ∧
      csp.Ranks (scoresOf student ls.flatten i) ∧
      Describes csp.toSectionstats (scoresOf student ls.flatten i) ∧
      ∀ (k : ℕ) (students : List ℕ), ls[k]? = some students →
        ∃ ssp, csp.sstats[k]? = some ssp ∧ ssp.Ranks (scoresOf student students i) := by
  obtain ⟨csp, hcsp, hclass, hsection⟩ := record_tabulated student ls hi
  obtain ⟨csp', hcsp', hdescribes, -⟩ := record_groups student ls n i hi
  generalize foldEvents tallyScore (events student 0 ls) (buildstats n ls.length) = stats
    at hcsp hcsp'
  have hsums : (foldEvents sumScore (events student 0 ls) stats)[i]? = _ :=
    getElem?_foldEvents (events student 0 ls) stats i
  rw [hcsp, Option.map_some, hcsp'] at hsums
  -- every event is in a section that has a record
  have hinside : ∀ e ∈ ofAssignment i (events student 0 ls), e.1 < csp.sstats.length := by
    intro e he
    have hlt := lt_of_mem_events student ls i 0 e he
    rw [Nat.zero_add] at hlt
    obtain ⟨ssp, hssp, -⟩ := hsection e.1 ls[e.1] (List.getElem?_eq_getElem hlt)
    exact (List.getElem?_eq_some_iff.mp hssp).1
  obtain ⟨hclass', -, hsection'⟩ :=
    foldl_body separate_sumScore _ csp hinside (Option.some.inj hsums).symm
  rw [doMoments, doQuantiles, List.getElem?_zipWith, List.getElem?_map, hcsp, hcsp']
  refine ⟨_, rfl, hclass.moments ?_ sqrt, hdescribes, fun k students hk => ?_⟩
  · -- the loop over the sums leaves the frequencies alone
    rw [hclass', tallied_foldl_addClass]
  · obtain ⟨ssp, hssp, htabulated⟩ := hsection k students hk
    dsimp only
    rw [List.getElem?_zipWith, List.getElem?_map, hssp, hsection' k, hssp]
    exact ⟨_, rfl, htabulated.moments (tallied_foldl_addSection _ ssp) sqrt⟩

/-- The records of the assignments are those of the scores of a course: each describes the scores
of the class, and the tables are those of the class and of the sections. -/
def RecordsOf (student : ℕ → Student) (ls : List (List ℕ)) (n : ℕ) (stats : List Classrecord) :
    Prop :=
  ∀ i < n, ∃ csp, stats[i]? = some csp ∧ csp.Ranks (scoresOf student ls.flatten i) ∧
    Describes csp.toSectionstats (scoresOf student ls.flatten i) ∧
    ∀ (k : ℕ) (students : List ℕ), ls[k]? = some students →
      ∃ ssp, csp.sstats[k]? = some ssp ∧ ssp.Ranks (scoresOf student students i)

/-- What `statistics` leaves: the links of `do_links`, and the records of the scores. -/
theorem completeStatistics_spec (sqrt : ℚ → ℚ)
    (rosters : List.Forall₂ (Links c.next) c.sections ls) (disjoint : ls.flatten.Nodup)
    (declared : ∀ p ∈ ls.flatten, ∀ scp ∈ (c.student p).rawscores, scp.asgt < n) :
    ∃ c' stats, (∀ fuel, ls.flatten.length + 1 ≤ fuel →
        completeStatistics sqrt fuel n c = some (c', stats)) ∧
      (0 < n → Links c'.cnext c'.roster ls.flatten) ∧ (n = 0 → c'.roster = none) ∧
      (∀ k students, ls[k]? = some students → ∀ p ∈ students,
        c'.student p = (c.student p).link n k) ∧
      RecordsOf c.student ls n stats := by
  obtain ⟨c', hrun, hloop, hroster, hempty, hlinked⟩ := doLinks_forScores rosters disjoint declared
  have hrecord := fun i hi => record_complete (n := n) (i := i) sqrt c.student ls hi
  rw [← rosters.length_eq] at hrecord
  refine ⟨c', _, fun fuel hfuel => ?_, hroster, hempty, hlinked, hrecord⟩
  have hfreqs := hloop fuel hfuel tallyScore (buildstats n c.sections.length)
  have hsums := hloop fuel hfuel sumScore
    (foldEvents tallyScore (events c.student 0 ls) (buildstats n c.sections.length))
  rw [completeStatistics, hrun fuel hfuel, Option.bind_eq_bind, Option.bind_some, doFreqs, hfreqs,
    Option.bind_eq_bind, Option.bind_some, doSums, hsums]
  rfl

/-- The scores of an assignment that count, in the class or in section `k`. -/
def groupScores (student : ℕ → Student) (ls : List (List ℕ)) (i k : ℕ) : Ngroup → List ℚ
  | .byClass => scoresOf student ls.flatten i
  | .bySection => scoresOf student (ls.getD k []) i

/-- What a score of section `k` finds behind its pointers. -/
theorem lookup_ranks {stats : List Classrecord} {students : List ℕ}
    (records : RecordsOf c.student ls assignments.length stats) (hk : ls[k]? = some students)
    (hi : i < assignments.length) :
    ∃ a csp ssp, Grading.lookup i k ⟨assignments, stats⟩ = some (a, csp, ssp) ∧
      (csp.group ssp a.ngroup).Ranks (groupScores c.student ls i k a.ngroup) := by
  obtain ⟨csp, hcsp, hclass, -, hsection⟩ := records i hi
  obtain ⟨ssp, hssp, hranks⟩ := hsection k students hk
  refine ⟨assignments[i], csp, ssp,
    lookup_eq_some.mpr ⟨List.getElem?_eq_getElem hi, hcsp, hssp⟩, ?_⟩
  cases assignments[i].ngroup with
  | byClass => exact hclass
  | bySection =>
    rw [groupScores, List.getD_eq_getElem?_getD, hk, Option.getD_some]
    exact hranks

/-! ### Percentages -/

/-- The percentage of the scores that are less. -/
def percentile (gs : List ℚ) (g : ℚ) : ℚ := 100 * gs.countP (· < g) / gs.length

/-- A greater score of the list has more scores below it. -/
theorem countP_lt_countP (hg : g ∈ gs) (hlt : g < g') :
    gs.countP (· < g) < gs.countP (· < g') := by
  obtain ⟨l, r, rfl⟩ := List.append_of_mem hg
  have hmono : ∀ l : List ℚ, l.countP (· < g) ≤ l.countP (· < g') := fun l =>
    List.countP_mono_left fun x _ hx => decide_eq_true ((of_decide_eq_true hx).trans hlt)
  have hl := hmono l
  have hr := hmono r
  rw [List.countP_append, List.countP_append, List.countP_cons, List.countP_cons,
    if_neg (by simp), if_pos (decide_eq_true hlt)]
  omega

theorem countP_lt_length (hg : g ∈ gs) : gs.countP (· < g) < gs.length :=
  List.countP_lt_length_iff.mpr ⟨g, hg, decide_eq_false (lt_irrefl g)⟩

theorem percentile_nonneg (gs : List ℚ) (g : ℚ) : 0 ≤ percentile gs g :=
  div_nonneg (mul_nonneg (by norm_num) (Nat.cast_nonneg _)) (Nat.cast_nonneg _)

theorem percentile_lt (hg : g ∈ gs) : percentile gs g < 100 := by
  have hlength : (0 : ℚ) < gs.length := Nat.cast_pos.mpr (List.length_pos_of_mem hg)
  have hcount : (gs.countP (· < g) : ℚ) < gs.length := Nat.cast_lt.mpr (countP_lt_length hg)
  rw [percentile, div_lt_iff₀ hlength]
  linarith

theorem percentile_strictMono (hg : g ∈ gs) (hlt : g < g') :
    percentile gs g < percentile gs g' := by
  have hlength : (0 : ℚ) < gs.length := Nat.cast_pos.mpr (List.length_pos_of_mem hg)
  have hcount : (gs.countP (· < g) : ℚ) < gs.countP (· < g') :=
    Nat.cast_lt.mpr (countP_lt_countP hg hlt)
  rw [percentile, percentile]
  gcongr

/-- The search for a score of a table ends at its bucket. -/
theorem searchQuantile_of_mem {qs : List Quantile} (h : (qs.map (·.score)).Pairwise (· < ·))
    {q : Quantile} (hq : q ∈ qs) (n : ℕ) :
    searchQuantile q.score n qs = some (q.numless * 100 / n : ℚ) := by
  induction qs with
  | nil => exact absurd hq List.not_mem_nil
  | cons fp qs ih =>
    rw [List.map_cons, List.pairwise_cons] at h
    rw [searchQuantile]
    obtain rfl | hq := List.mem_cons.mp hq
    · rw [if_neg (lt_irrefl _), if_pos rfl]
    · have hlt : fp.score < q.score := h.1 q.score (List.mem_map_of_mem hq)
      rw [if_neg hlt.not_gt, if_neg hlt.ne']
      exact ih h.2 hq

theorem searchQuantile_eq {r : Sectionquantiles} (h : r.Ranks gs) (hg : g ∈ gs) :
    searchQuantile g r.tallied r.quantiles = some (percentile gs g) := by
  obtain ⟨q, hq, rfl⟩ := (h.bucket g).mp hg
  rw [searchQuantile_of_mem h.increasing hq, h.numless q hq, h.tallied, percentile, mul_comm]

/-- The normalized value of a score of the group. -/
theorem normalValue_quantile {csp : Classrecord} {ssp : Sectionrecord}
    (hpolicy : a.npolicy = .quantile) (h : (csp.group ssp a.ngroup).Ranks gs) (hg : g ∈ gs) :
    normalValue g a csp ssp = percentile gs g := by
  have hsome : (csp.group ssp a.ngroup).tallied ≠ 0 := by
    rw [h.tallied]
    exact List.length_pos_of_mem hg |>.ne'
  rw [normalValue, hpolicy]
  dsimp only
  rw [if_neg hsome, searchQuantile_eq h hg, Option.getD_some]

/-! ### `QUANTILE` normalization -/

/-- A score that counts, at place `j` of student `p` in section `k`. -/
def ScoreAt (c : Rosters) (ls : List (List ℕ)) (k p j : ℕ) (scp : Score) : Prop :=
  ∃ students, ls[k]? = some students ∧ p ∈ students ∧ (c.student p).rawscores[j]? = some scp ∧
    scp.Counts

/-- A score that counts is one of its group. -/
theorem ScoreAt.mem {p j : ℕ} (h : ScoreAt c ls k p j scp) (ngroup : Ngroup) :
    scp.grade ∈ groupScores c.student ls scp.asgt k ngroup := by
  obtain ⟨students, hk, hp, hj, hcounts⟩ := h
  have hmem : ∀ students : List ℕ, p ∈ students →
      scp.grade ∈ scoresOf c.student students scp.asgt :=
    fun students hp => List.mem_flatMap.mpr ⟨p, hp, List.mem_map.mpr ⟨scp,
      List.mem_filter.mpr ⟨List.mem_of_getElem? hj, decide_eq_true ⟨hcounts, rfl⟩⟩, rfl⟩⟩
  cases ngroup with
  | byClass => exact hmem _ (List.mem_flatten.mpr ⟨students, List.mem_of_getElem? hk, hp⟩)
  | bySection =>
    rw [groupScores, List.getD_eq_getElem?_getD, hk, Option.getD_some]
    exact hmem students hp

/-- The scores of a course after `statistics` can be normalized. -/
theorem linked_of_statistics {c' : Rosters} {stats : List Classrecord} {p : ℕ}
    (linked : ∀ k students, ls[k]? = some students → ∀ p ∈ students,
      c'.student p = (c.student p).link assignments.length k)
    (records : RecordsOf c.student ls assignments.length stats)
    (declared : ∀ p ∈ ls.flatten, ∀ scp ∈ (c.student p).rawscores, scp.asgt < assignments.length)
    (hp : p ∈ ls.flatten) : ∀ scp ∈ (c'.student p).rawscores, scp.Linked ⟨assignments, stats⟩ := by
  obtain ⟨students, hstudents, hp'⟩ := List.mem_flatten.mp hp
  obtain ⟨k, hk⟩ := List.mem_iff_getElem?.mp hstudents
  rw [linked k students hk p hp']
  intro scp' hscp'
  obtain ⟨scp, hscp, rfl⟩ := List.mem_map.mp hscp'
  have hlt := declared p hp scp hscp
  obtain ⟨a, csp, ssp, hlookup, -⟩ := lookup_ranks records hk hlt
  rw [link_of_lt hlt]
  exact ⟨k, _, rfl, hlookup⟩

/-- After `statistics`, `normalize` gives every score that counts its value for these statistics.
The course roster has all students, unless there is no assignment. -/
theorem normalize_statistics (sqrt : ℚ → ℚ) (norms : ℕ → ℕ → Norms)
    (assignments : List Assignment)
    (rosters : List.Forall₂ (Links c.next) c.sections ls) (disjoint : ls.flatten.Nodup)
    (declared : ∀ p ∈ ls.flatten, ∀ scp ∈ (c.student p).rawscores,
      scp.asgt < assignments.length) :
    ∃ c' stats normscores st', (∀ fuel, ls.flatten.length + 1 ≤ fuel →
        completeStatistics sqrt fuel assignments.length c = some (c', stats) ∧
        normalize norms fuel c' ⟨assignments, stats⟩ = some (normscores, st')) ∧
      Links c'.cnext c'.roster (if assignments = [] then [] else ls.flatten) ∧
      RecordsOf c.student ls assignments.length stats ∧ Reaches ⟨assignments, stats⟩ st' ∧
      ∀ k p j scp, ScoreAt c ls k p j scp → ∃ nscp, (normscores p)[j]? = some nscp ∧
        nscp.asgt = scp.asgt ∧
        Normalizes ⟨assignments, stats⟩ st' (scp.link assignments.length k) nscp.grade := by
  obtain ⟨c', stats, hrun, hroster, hempty, hlinked, hrecords⟩ :=
    completeStatistics_spec sqrt rosters disjoint declared
  by_cases hnone : assignments = []
  · -- without assignments there is no course roster, and no score
    have hzero : assignments.length = 0 := List.length_eq_zero_iff.mpr hnone
    refine ⟨c', stats, fun _ => [], ⟨assignments, stats⟩, fun fuel hfuel => ⟨hrun fuel hfuel, ?_⟩,
      ?_, hrecords, .refl, ?_⟩
    · obtain ⟨fuel, rfl⟩ := Nat.exists_eq_add_of_lt (Nat.lt_of_succ_le hfuel)
      rw [normalize, hempty hzero]
      rfl
    · rw [if_pos hnone]
      exact hempty hzero
    · rintro k p j scp ⟨students, hk, hp, hj, -⟩
      have hflat : p ∈ ls.flatten := List.mem_flatten.mpr ⟨students, List.mem_of_getElem? hk, hp⟩
      have hlt := declared p hflat scp (List.mem_of_getElem? hj)
      omega
  · have hsome : 0 < assignments.length := List.length_pos_iff.mpr hnone
    obtain ⟨normscores, st', hnormalize, hreaches, hplaces⟩ := normalize_eq norms (hroster hsome)
      fun p hp => linked_of_statistics hlinked hrecords declared hp
    refine ⟨c', stats, normscores, st', fun fuel hfuel => ⟨hrun fuel hfuel, hnormalize fuel hfuel⟩,
      ?_, hrecords, hreaches, ?_⟩
    · rw [if_neg hnone]
      exact hroster hsome
    rintro k p j scp ⟨students, hk, hp, hj, hcounts⟩
    have hflat : p ∈ ls.flatten := List.mem_flatten.mpr ⟨students, List.mem_of_getElem? hk, hp⟩
    have hlt := declared p hflat scp (List.mem_of_getElem? hj)
    have hj' : (c'.student p).rawscores[j]? = some (scp.link assignments.length k) := by
      rw [hlinked k students hk p hp, Student.link, List.getElem?_map, hj, Option.map_some]
    obtain ⟨nscp, hnscp, hasgt, hnormalizes⟩ := hplaces p hflat j _ hj'
    rw [link_of_lt hlt] at hasgt hnormalizes ⊢
    exact ⟨nscp, hnscp, hasgt, hnormalizes hcounts⟩

theorem groupScores_eq (student : ℕ → Student) (ls : List (List ℕ)) (i : ℕ) {k k' : ℕ}
    {ngroup : Ngroup} (h : ngroup = .bySection → k = k') :
    groupScores student ls i k ngroup = groupScores student ls i k' ngroup := by
  cases ngroup with
  | byClass => rfl
  | bySection => rw [h rfl]

/-- With `QUANTILE` normalization, by class or by section, a score that counts is normalized to the
percentage of the scores of its group that are less. It is found in the table of its group
whenever it is searched for. Scores of one group keep their order. -/
theorem normalize_quantile (sqrt : ℚ → ℚ) (norms : ℕ → ℕ → Norms) (assignments : List Assignment)
    (rosters : List.Forall₂ (Links c.next) c.sections ls) (disjoint : ls.flatten.Nodup)
    (declared : ∀ p ∈ ls.flatten, ∀ scp ∈ (c.student p).rawscores,
      scp.asgt < assignments.length) :
    ∃ c' stats normscores st', (∀ fuel, ls.flatten.length + 1 ≤ fuel →
        completeStatistics sqrt fuel assignments.length c = some (c', stats) ∧
        normalize norms fuel c' ⟨assignments, stats⟩ = some (normscores, st')) ∧
      ∀ i a, assignments[i]? = some a → a.npolicy = .quantile →
        (∀ k p j scp, ScoreAt c ls k p j scp → scp.asgt = i →
          let gs := groupScores c.student ls i k a.ngroup
          ∃ nscp, (normscores p)[j]? = some nscp ∧ nscp.asgt = i ∧
            nscp.grade = percentile gs scp.grade ∧ 0 ≤ nscp.grade ∧ nscp.grade < 100 ∧
            ∀ st, Reaches ⟨assignments, stats⟩ st → ∃ b csp ssp,
              st.lookup i k = some (b, csp, ssp) ∧ b.npolicy = .quantile ∧
              (csp.group ssp b.ngroup).tallied = gs.length ∧
              searchQuantile scp.grade gs.length (csp.group ssp b.ngroup).quantiles =
                some nscp.grade) ∧
        ∀ k p j scp k' p' j' scp', ScoreAt c ls k p j scp → ScoreAt c ls k' p' j' scp' →
          scp.asgt = i → scp'.asgt = i → (a.ngroup = .bySection → k = k') →
          ∃ nscp nscp', (normscores p)[j]? = some nscp ∧ (normscores p')[j']? = some nscp' ∧
            (scp.grade = scp'.grade → nscp.grade = nscp'.grade) ∧
            (scp.grade < scp'.grade → nscp.grade < nscp'.grade) := by
  obtain ⟨c', stats, normscores, st', hrun, -, hrecords, -, hscores⟩ :=
    normalize_statistics sqrt norms assignments rosters disjoint declared
  refine ⟨c', stats, normscores, st', hrun, fun i a ha hpolicy => ?_⟩
  obtain ⟨hi, hai⟩ := List.getElem?_eq_some_iff.mp ha
  -- the value of a score in its group
  have hvalue : ∀ k p j scp, ScoreAt c ls k p j scp → scp.asgt = i →
      ∃ nscp csp ssp, (normscores p)[j]? = some nscp ∧ nscp.asgt = i ∧
        nscp.grade = percentile (groupScores c.student ls i k a.ngroup) scp.grade ∧
        Grading.lookup i k ⟨assignments, stats⟩ = some (a, csp, ssp) ∧
        (csp.group ssp a.ngroup).Ranks (groupScores c.student ls i k a.ngroup) := by
    rintro k p j scp hscore rfl
    obtain ⟨nscp, hnscp, hasgt, hnormalizes⟩ := hscores k p j scp hscore
    obtain ⟨students, hk, -⟩ := id hscore
    obtain ⟨b, csp, ssp, hlookup, hranks⟩ := lookup_ranks hrecords hk hi
    obtain rfl : a = b := Option.some.inj (ha.symm.trans (lookup_eq_some.mp hlookup).1)
    refine ⟨nscp, csp, ssp, hnscp, hasgt, ?_, hlookup, hranks⟩
    rw [link_of_lt hi] at hnormalizes
    have hgrade := hnormalizes.value ⟨k, _, rfl, hlookup⟩
    have hsame : Grading.valueOf ⟨assignments, stats⟩
        { scp with cstats := some scp.asgt, sstats := some (scp.asgt, k) } =
          some (normalValue scp.grade a csp ssp) := value_of_lookup hlookup
    rw [← Option.some.inj (hsame.symm.trans hgrade)]
    exact normalValue_quantile hpolicy hranks (hscore.mem a.ngroup)
  constructor
  · intro k p j scp hscore hasgt
    obtain ⟨nscp, csp, ssp, hnscp, hnasgt, hgrade, hlookup, hranks⟩ :=
      hvalue k p j scp hscore hasgt
    have hmem := hscore.mem a.ngroup
    rw [hasgt] at hmem
    refine ⟨nscp, hnscp, hnasgt, hgrade, ?_, ?_, fun st hst => ?_⟩
    · exact (percentile_nonneg _ _).trans_eq hgrade.symm
    · exact hgrade.trans_lt (percentile_lt hmem)
    · obtain ⟨b, csp', ssp', hlookup', hpolicy', htallied, hquantiles⟩ :=
        lookup_of_reaches hlookup hst
      refine ⟨b, csp', ssp', hlookup', hpolicy'.trans hpolicy, htallied.trans hranks.tallied, ?_⟩
      rw [hquantiles, ← hranks.tallied, searchQuantile_eq hranks hmem, hgrade]
  · intro k p j scp k' p' j' scp' hscore hscore' hasgt hasgt' hsection
    obtain ⟨nscp, -, -, hnscp, -, hgrade, -⟩ := hvalue k p j scp hscore hasgt
    obtain ⟨nscp', -, -, hnscp', -, hgrade', -⟩ := hvalue k' p' j' scp' hscore' hasgt'
    have hmem := hscore.mem a.ngroup
    rw [hasgt] at hmem
    rw [← groupScores_eq c.student ls i hsection] at hgrade'
    refine ⟨nscp, nscp', hnscp, hnscp', fun heq => ?_, fun hlt => ?_⟩
    · rw [hgrade, hgrade', heq]
    · rw [hgrade, hgrade']
      exact percentile_strictMono hmem hlt

/-- An assignment with percentiles of the whole class. -/
def percentileAssignment : Assignment :=
  ⟨[], .noWeight, 0, .quantile, 0, 0, 0, 0, .byClass⟩

theorem normalize_quantile_example :
    ∃ c' stats normscores st', completeStatistics id 3 1 twoScores = some (c', stats) ∧
      normalize (fun _ _ => ⟨0, 0⟩) 3 c' ⟨[percentileAssignment], stats⟩ =
        some (normscores, st') ∧
      ∃ nscp, (normscores 2)[0]? = some nscp ∧ nscp.grade = 50 := by
  obtain ⟨c', stats, normscores, st', hrun, hquantile⟩ := normalize_quantile id
    (fun _ _ => ⟨0, 0⟩) [percentileAssignment] twoScores_rosters (by decide) twoScores_declared
  obtain ⟨hstatistics, hnormalize⟩ := hrun 3 (Nat.le_refl 3)
  obtain ⟨hscores, -⟩ := hquantile 0 percentileAssignment rfl rfl
  obtain ⟨nscp, hnscp, -, hgrade, -⟩ := hscores 0 2 0 ⟨0, 5, .valid, .useRaw, none, none⟩
    ⟨[1, 2], rfl, by decide, rfl, .inl rfl⟩ rfl
  have hgroup : groupScores twoScores.student [[1, 2]] 0 0 percentileAssignment.ngroup = [3, 5] :=
    rfl
  have hcount : [(3 : ℚ), 5].countP (· < 5) = 1 := by decide
  refine ⟨c', stats, normscores, st', hstatistics, hnormalize, nscp, hnscp, ?_⟩
  rw [hgrade, hgroup, percentile, hcount]
  norm_num

end CLanguage.Grades
