import CLanguage.Lib.WeightedMean
import CLanguage.Grades.Percentiles

/-!
# The average of like scores

`studentavg` is to average the scores of a type with the weights of their assignments, or
equally if there are no weights. It gives up not only without scores, but also when the
weights add up to zero, and that is what they do when no assignment has a weight.
-/

namespace CLanguage.Grades

open CLanguage.Lib

variable {st : Grading} {stp : Student} {v : Average} {es : List (Option ℚ × ℚ)} {r : ℚ}

/-- What a score counts: its weight, if it has one, or 1. -/
def factor (e : Option ℚ × ℚ) : ℚ := e.1.getD 1

/-- What the loop of `studentavg` leaves. -/
theorem foldl_count (es : List (Option ℚ × ℚ)) (v : Average) :
    es.foldl Average.count v = ⟨v.n + es.length, v.wp || es.any (·.1.isSome),
      v.sum + (es.map fun e => e.2 * factor e).sum, v.w + (es.map fun e => e.1.getD 0).sum⟩ := by
  induction es generalizing v with
  | nil => simp
  | cons e es ih =>
    obtain ⟨weight, f⟩ := e
    rw [List.foldl_cons, ih, List.length_cons, List.any_cons, List.map_cons, List.sum_cons,
      List.map_cons, List.sum_cons]
    cases weight with
    | none =>
      simp only [Average.count, factor, Option.getD_none, Option.isSome_none, mul_one, zero_add,
        Bool.false_or, Average.mk.injEq, true_and, and_true]
      exact ⟨by omega, add_assoc _ _ _⟩
    | some weight =>
      simp only [Average.count, factor, Option.getD_some, Option.isSome_some, Bool.true_or,
        Bool.or_true, Average.mk.injEq, true_and]
      exact ⟨by omega, add_assoc _ _ _, add_assoc _ _ _⟩

/-- All scores have a weight, and it is positive. -/
def AllWeighted (es : List (Option ℚ × ℚ)) : Prop :=
  ∀ e ∈ es, ∃ weight, e.1 = some weight ∧ 0 < weight

/-- No score has a weight. -/
def Unweighted (es : List (Option ℚ × ℚ)) : Prop := ∀ e ∈ es, e.1 = none

/-- The values of the scores lie around a number. -/
def Around (es : List (Option ℚ × ℚ)) (r : ℚ) : Prop :=
  (∀ b, (∀ e ∈ es, b ≤ e.2) → b ≤ r) ∧ ∀ b, (∀ e ∈ es, e.2 ≤ b) → r ≤ b

/-- What the average of like scores is to be: 0 without scores, the mean with the weights of the
assignments, and the plain mean if there are no weights. -/
structure IsLikeAverage (es : List (Option ℚ × ℚ)) (r : ℚ) : Prop where
  none : es = [] → r = 0
  weighted : es ≠ [] → AllWeighted es →
    r = (es.map fun e => e.2 * e.1.getD 0).sum / (es.map fun e => e.1.getD 0).sum ∧ Around es r
  plain : es ≠ [] → Unweighted es → r = (es.map Prod.snd).sum / es.length ∧ Around es r

theorem around_weightedMean (hes : es ≠ []) (h : ∀ e ∈ es, 0 < factor e) :
    Around es (weightedMean factor Prod.snd es) :=
  ⟨fun _ hb => le_weightedMean hes h hb, fun _ hb => weightedMean_le hes h hb⟩

theorem factor_of_allWeighted (h : AllWeighted es) :
    (∀ e ∈ es, 0 < factor e) ∧ ∀ e ∈ es, factor e = e.1.getD 0 := by
  constructor
  · intro e he
    obtain ⟨weight, heq, hpos⟩ := h e he
    rwa [factor, heq]
  · intro e he
    obtain ⟨weight, heq, -⟩ := h e he
    rw [factor, heq]
    rfl

theorem factor_of_unweighted (h : Unweighted es) : ∀ e ∈ es, factor e = 1 := by
  intro e he
  rw [factor, h e he]
  rfl

theorem sum_weights_of_unweighted (h : Unweighted es) : (es.map fun e => e.1.getD 0).sum = 0 :=
  List.sum_eq_zero fun x hx => by
    obtain ⟨e, he, rfl⟩ := List.mem_map.mp hx
    rw [h e he]
    rfl

/-- With weights `studentavg` divides by their sum. -/
theorem likeAverage_weighted (hes : es ≠ []) (h : AllWeighted es) :
    likeAverage es = weightedMean factor Prod.snd es := by
  obtain ⟨hpos, hfactor⟩ := factor_of_allWeighted h
  have hweights : (es.map fun e => e.1.getD 0) = es.map factor :=
    List.map_congr_left fun e he => (hfactor e he).symm
  have hsum := sum_weights_pos hes hpos
  obtain ⟨e, hmem⟩ := List.exists_mem_of_ne_nil es hes
  obtain ⟨weight, heq, -⟩ := h e hmem
  have hany : es.any (·.1.isSome) = true := List.any_eq_true.mpr ⟨e, hmem, by rw [heq]; rfl⟩
  have hlength : es.length ≠ 0 := fun h => hes (List.length_eq_zero_iff.mp h)
  rw [likeAverage, foldl_count, Average.result, hweights, hany]
  simp only [zero_add, Bool.or_true, if_true]
  rw [if_neg (not_or.mpr ⟨hlength, hsum.ne'⟩), weightedMean]

/-- Without weights it returns 0. -/
theorem likeAverage_unweighted (h : Unweighted es) : likeAverage es = 0 := by
  rw [likeAverage, foldl_count, Average.result, sum_weights_of_unweighted h]
  exact if_pos (.inr (zero_add 0))

/-- `studentavg` returns the average of the like scores unless there are some, none of them has a
weight and their sum is not zero. -/
theorem isLikeAverage_iff (es : List (Option ℚ × ℚ)) :
    IsLikeAverage es (likeAverage es) ↔
      es = [] ∨ (∃ e ∈ es, e.1 ≠ none) ∨ (es.map Prod.snd).sum = 0 := by
  constructor
  · intro h
    by_contra hnone
    rw [not_or, not_or] at hnone
    obtain ⟨hes, hweights, hsum⟩ := hnone
    have hunweighted : Unweighted es := fun e he => by
      by_contra hne
      exact hweights ⟨e, he, hne⟩
    obtain ⟨hmean, -⟩ := h.plain hes hunweighted
    rw [likeAverage_unweighted hunweighted, eq_comm, div_eq_zero_iff] at hmean
    obtain hzero | hzero := hmean
    · exact hsum hzero
    · exact hes (List.length_eq_zero_iff.mp (Nat.cast_eq_zero.mp hzero))
  · intro h
    refine ⟨fun hes => ?_, fun hes hweighted => ?_, fun hes hunweighted => ?_⟩
    · subst hes
      rfl
    · obtain ⟨hpos, hfactor⟩ := factor_of_allWeighted hweighted
      rw [likeAverage_weighted hes hweighted]
      refine ⟨?_, around_weightedMean hes hpos⟩
      rw [weightedMean]
      congr 1
      · exact congrArg List.sum (List.map_congr_left fun e he => by rw [hfactor e he])
      · exact congrArg List.sum (List.map_congr_left hfactor)
    · -- the sum is zero, and so is the mean
      have hsum : (es.map Prod.snd).sum = 0 := by
        obtain h | ⟨e, he, hne⟩ | h := h
        · exact absurd h hes
        · exact absurd (hunweighted e he) hne
        · exact h
      have hfactor := factor_of_unweighted hunweighted
      have hmean : likeAverage es = weightedMean factor Prod.snd es := by
        rw [likeAverage_unweighted hunweighted, weightedMean_one hfactor, hsum, zero_div]
      refine ⟨by rw [hmean, weightedMean_one hfactor], ?_⟩
      rw [hmean]
      exact around_weightedMean hes fun e he => by
        rw [hfactor e he]
        exact one_pos

/-- For a student whose scores are linked, `studentavg` returns the average that its comment
promises if and only if the student has no score of the type that counts, one of these scores
has a weight, or they add up to zero. -/
theorem studentavg_iff (linked : ∀ scp ∈ stp.rawscores, scp.Linked st) (t : Str) :
    ∃ r st', studentavg stp t st = some (r, st') ∧ Reaches st st' ∧
      (IsLikeAverage (likeScores st t stp.rawscores) r ↔
        likeScores st t stp.rawscores = [] ∨
        (∃ e ∈ likeScores st t stp.rawscores, e.1 ≠ none) ∨
        ((likeScores st t stp.rawscores).map Prod.snd).sum = 0) := by
  obtain ⟨st', hrun, hreaches⟩ := studentavg_eq linked .refl t
  exact ⟨_, st', hrun, hreaches, isLikeAverage_iff _⟩

/-- Two assignments of one type without weights. -/
def homeworks : List Assignment :=
  List.replicate 2 ⟨[104, 119], .noWeight, 0, .raw, 0, 0, 0, 0, .byClass⟩

/-- A course with one student, who has 80 points for the first assignment and for the second what
the scores alike have on average. -/
def oneHomework : Rosters where
  student := fun _ => ⟨[], [], [],
    [⟨0, 80, .valid, .useRaw, none, none⟩, ⟨1, 0, .invalid, .useLikeAvg, none, none⟩], 0⟩
  next := fun _ => none
  cnext := fun _ => none
  roster := none
  sections := [some 1]

theorem studentavg_iff_example : ∃ c' stats r st',
    completeStatistics id 2 2 oneHomework = some (c', stats) ∧
      studentavg (c'.student 1) [104, 119] ⟨homeworks, stats⟩ = some (r, st') ∧
      (IsLikeAverage (likeScores ⟨homeworks, stats⟩ [104, 119] (c'.student 1).rawscores) r ↔
        likeScores ⟨homeworks, stats⟩ [104, 119] (c'.student 1).rawscores = [] ∨
        (∃ e ∈ likeScores ⟨homeworks, stats⟩ [104, 119] (c'.student 1).rawscores, e.1 ≠ none) ∨
        ((likeScores ⟨homeworks, stats⟩ [104, 119] (c'.student 1).rawscores).map Prod.snd).sum =
          0) := by
  have rosters : List.Forall₂ (Links oneHomework.next) oneHomework.sections [[1]] :=
    .cons ⟨rfl, rfl⟩ .nil
  have declared : ∀ p ∈ [[1]].flatten, ∀ scp ∈ (oneHomework.student p).rawscores,
      scp.asgt < homeworks.length := by
    intro p _ scp hscp
    obtain rfl | hscp := List.mem_cons.mp hscp
    · exact Nat.zero_lt_two
    · obtain rfl := List.mem_singleton.mp hscp
      exact Nat.one_lt_two
  obtain ⟨c', stats, hrun, -, -, hlinked, hrecords⟩ :=
    completeStatistics_spec id rosters (by decide) declared
  obtain ⟨r, st', havg, -, hiff⟩ := studentavg_iff
    (linked_of_statistics hlinked hrecords declared List.mem_cons_self) [104, 119]
  exact ⟨c', stats, r, st', hrun 2 (Nat.le_refl 2), havg, hiff⟩

/-- Without weights the average of one score is not this score. -/
theorem studentavg_no_weights :
    ((completeStatistics id 2 2 oneHomework).bind fun r =>
      (studentavg (r.1.student 1) [104, 119] ⟨homeworks, r.2⟩).map fun avg =>
        (likeScores ⟨homeworks, r.2⟩ [104, 119] (r.1.student 1).rawscores, avg.1)) =
      some ([(none, 80)], 0) ∧
    ((completeStatistics id 2 2 oneHomework).bind fun r =>
      (normalize (fun _ _ => ⟨0, 0⟩) 2 r.1 ⟨homeworks, r.2⟩).map fun result =>
        (result.1 1).map Score.grade) = some [80, 0] ∧
    ¬ IsLikeAverage [(none, 80)] 0 := by
  refine ⟨by decide_cbv, by decide_cbv, fun h => ?_⟩
  have hplain := h.plain (List.cons_ne_nil _ _) fun e he => by
    obtain rfl := List.mem_singleton.mp he
    rfl
  exact absurd hplain.1 (by norm_num)

end CLanguage.Grades
