import CLanguage.Lib.TruncatedDivision
import CLanguage.Grades.Percentiles

/-!
# Histograms

`reporthistos` tallies the composite scores and the scores of each assignment into 50 bins.
An index outside the bins is an invalid access. The composite scores are placed between
their least and their greatest one, and so they stay inside. The scores of an assignment
are placed by the quotient with a maximum; nothing keeps a negative score from going below
the first bin, or with a negative maximum beyond the last one.

The layout of the bins on the page is left out.
-/

namespace CLanguage.Grades

open CLanguage.Lib

variable {ι : Type} {c : Rosters} {ls : List (List ℕ)} {i k j : ℕ} {s f g m x : ℚ} {gs : List ℚ}
  {bins : List ℕ} {pct : ℤ} {idx : ι → ℤ} {cnt : ι → ℕ} {a : Assignment} {scp : Score}
  {st st' : Grading}

/-! ### `reporthistos` -/

/-- The conversion of a number to `int`. -/
def truncate (x : ℚ) : ℤ := x.num.tdiv x.den

/-- `bins[pct] += cnt` -/
def tallyBin (bins : List ℕ) (pct : ℤ) (cnt : ℕ) : Option (List ℕ) :=
  if 0 ≤ pct ∧ pct < bins.length then some (bins.modify pct.toNat (· + cnt)) else none

/-- The 50 bins before the tally. -/
def emptyBins : List ℕ := List.replicate 50 0

/-- The first loop over the composite scores. -/
def compositeRange (gs : List ℚ) : ℚ × ℚ :=
  gs.foldl (fun r g => (if g < r.1 then g else r.1, if r.2 < g then g else r.2)) (0, 0)

/-- The bin of a composite score. -/
def compositeBin (min max g : ℚ) : ℤ :=
  let diff := if max - min = 0 then 1 else max - min
  truncate (49 * (g - min) / diff)

/-- The bins of the composite scores. -/
def compositeBins (gs : List ℚ) : Option (List ℕ) :=
  let (min, max) := compositeRange gs
  gs.foldlM (fun bins g => tallyBin bins (compositeBin min max g) 1) emptyBins

/-- The maximum that the scores of an assignment are divided by. -/
def histoMax (a : Assignment) (csp : Sectionstats) : ℚ :=
  if a.max = 0 then if csp.max = 0 then 1 else csp.max else a.max

/-- The bin of a score. -/
def scoreBin (max g : ℚ) : ℤ := if max < g then 49 else truncate (49 * g / max)

/-- The bins of an assignment. -/
def assignmentBins (a : Assignment) (csp : Classrecord) : Option (List ℕ) :=
  csp.quantiles.foldlM
    (fun bins fp => tallyBin bins (scoreBin (histoMax a csp.toSectionstats) fp.score) fp.count)
    emptyBins

/-- `reporthistos`: the bins of the composite scores and those of each assignment. -/
def reporthistos (fuel : ℕ) (c : Rosters) (st : Grading) : Option (List ℕ × List (List ℕ)) := do
  let students ← follow (getcnext c) fuel c.roster
  let composite ← compositeBins (students.map fun stp => (c.student stp).composite)
  let assignments ← (st.assignments.zip st.cstats).mapM fun e => assignmentBins e.1 e.2
  return (composite, assignments)

/-! ### Bins -/

theorem sum_modify_add (bins : List ℕ) {j : ℕ} (hj : j < bins.length) (cnt : ℕ) :
    (bins.modify j (· + cnt)).sum = bins.sum + cnt := by
  induction bins generalizing j with
  | nil => exact absurd hj (Nat.not_lt_zero j)
  | cons b bins ih =>
    cases j with
    | zero =>
      rw [List.modify_zero_cons, List.sum_cons, List.sum_cons]
      omega
    | succ j =>
      rw [List.modify_succ_cons, List.sum_cons, List.sum_cons, ih (Nat.lt_of_succ_lt_succ hj),
        Nat.add_assoc]

theorem tallyBin_eq (h : 0 ≤ pct ∧ pct < bins.length) (cnt : ℕ) :
    ∃ r, tallyBin bins pct cnt = some r ∧ r.length = bins.length ∧ r.sum = bins.sum + cnt :=
  ⟨_, if_pos h, List.length_modify _ _ _, sum_modify_add bins (by omega) cnt⟩

/-- A tally loop stays inside the bins if and only if every index is one of a bin. -/
theorem foldlM_tallyBin (idx : ι → ℤ) (cnt : ι → ℕ) (l : List ι) (bins : List ℕ) :
    (∃ r, l.foldlM (fun bins e => tallyBin bins (idx e) (cnt e)) bins = some r) ↔
      ∀ e ∈ l, 0 ≤ idx e ∧ idx e < bins.length := by
  induction l generalizing bins with
  | nil => exact iff_of_true ⟨bins, rfl⟩ nofun
  | cons e l ih =>
    rw [List.forall_mem_cons, List.foldlM_cons]
    by_cases h : 0 ≤ idx e ∧ idx e < bins.length
    · obtain ⟨r, hr, hlength, -⟩ := tallyBin_eq h (cnt e)
      rw [hr, Option.bind_eq_bind, Option.bind_some, ih, hlength]
      exact (and_iff_right h).symm
    · have hnone : tallyBin bins (idx e) (cnt e) = none := if_neg h
      rw [hnone, Option.bind_eq_bind, Option.bind_none]
      exact iff_of_false nofun fun hall => h hall.1

/-- Then the bins have taken up all counts. -/
theorem sum_foldlM_tallyBin {r : List ℕ} (l : List ι)
    (h : l.foldlM (fun bins e => tallyBin bins (idx e) (cnt e)) bins = some r) :
    r.sum = bins.sum + (l.map cnt).sum := by
  induction l generalizing bins with
  | nil =>
    obtain rfl := Option.some.inj h
    rfl
  | cons e l ih =>
    rw [List.foldlM_cons] at h
    obtain ⟨bins', hbins', hrest⟩ := Option.bind_eq_some_iff.mp h
    have hin : 0 ≤ idx e ∧ idx e < bins.length := by
      by_contra hout
      exact absurd (hbins'.symm.trans (if_neg hout)) nofun
    obtain ⟨r', hr', -, hsum⟩ := tallyBin_eq hin (cnt e)
    obtain rfl := Option.some.inj (hbins'.symm.trans hr')
    rw [ih hrest, hsum, List.map_cons, List.sum_cons, Nat.add_assoc]

theorem truncate_mem_iff : 0 ≤ truncate x ∧ truncate x < 50 ↔ -1 < x ∧ x < 50 := by
  have hden : (0 : ℤ) < x.den := Int.natCast_pos.mpr x.den_pos
  have hden' : (0 : ℚ) < x.den := Nat.cast_pos.mpr x.den_pos
  have hx : x = x.num / x.den := (Rat.num_div_den x).symm
  rw [truncate, tdiv_mem_range_iff hden (by norm_num)]
  have hlow : -(x.den : ℤ) < x.num ↔ -1 < x := by
    conv_rhs => rw [hx]
    rw [lt_div_iff₀ hden', neg_one_mul]
    norm_cast
  have hhigh : x.num < x.den * 50 ↔ x < 50 := by
    conv_rhs => rw [hx]
    rw [div_lt_iff₀ hden', mul_comm]
    norm_cast
  rw [hlow, hhigh]

/-! ### The composite scores -/

/-- The first loop finds a range of all scores. -/
theorem mem_compositeRange (gs : List ℚ) :
    ∀ g ∈ gs, (compositeRange gs).1 ≤ g ∧ g ≤ (compositeRange gs).2 := by
  induction gs using List.reverseRecOn with
  | nil => exact nofun
  | append_singleton gs g ih =>
    have hsnoc : compositeRange (gs ++ [g]) =
        (if g < (compositeRange gs).1 then g else (compositeRange gs).1,
          if (compositeRange gs).2 < g then g else (compositeRange gs).2) := by
      rw [compositeRange, List.foldl_append]
      rfl
    -- the range only grows, and takes in the new score
    have hless : (compositeRange (gs ++ [g])).1 ≤ (compositeRange gs).1 ∧
        (compositeRange (gs ++ [g])).1 ≤ g := by
      rw [hsnoc]
      dsimp only
      split
      · next h => exact ⟨h.le, le_rfl⟩
      · next h => exact ⟨le_rfl, not_lt.mp h⟩
    have hgreater : (compositeRange gs).2 ≤ (compositeRange (gs ++ [g])).2 ∧
        g ≤ (compositeRange (gs ++ [g])).2 := by
      rw [hsnoc]
      dsimp only
      split
      · next h => exact ⟨h.le, le_rfl⟩
      · next h => exact ⟨le_rfl, not_lt.mp h⟩
    refine List.forall_mem_append.mpr ⟨?_, ?_⟩
    · exact fun x hx => ⟨hless.1.trans (ih x hx).1, (ih x hx).2.trans hgreater.1⟩
    · exact List.forall_mem_singleton.mpr ⟨hless.2, hgreater.2⟩

theorem compositeBin_mem {min max : ℚ} (hmin : min ≤ g) (hmax : g ≤ max) :
    0 ≤ compositeBin min max g ∧ compositeBin min max g < 50 := by
  rw [compositeBin, truncate_mem_iff]
  split
  · have hzero : g - min = 0 := by linarith
    rw [hzero]
    norm_num
  · next hne =>
    have hpos : 0 < max - min := lt_of_le_of_ne (by linarith) fun h => hne h.symm
    rw [lt_div_iff₀ hpos, div_lt_iff₀ hpos]
    constructor
    · linarith
    · linarith

/-- The composite scores stay inside the bins. -/
theorem compositeBins_eq (gs : List ℚ) :
    ∃ bins, compositeBins gs = some bins ∧ bins.sum = gs.length := by
  have hall := mem_compositeRange gs
  have hinside : ∀ g ∈ gs, 0 ≤ compositeBin (compositeRange gs).1 (compositeRange gs).2 g ∧
      compositeBin (compositeRange gs).1 (compositeRange gs).2 g < emptyBins.length :=
    fun g hg => compositeBin_mem (hall g hg).1 (hall g hg).2
  obtain ⟨bins, hrun⟩ := (foldlM_tallyBin _ (fun _ => 1) gs emptyBins).mpr hinside
  refine ⟨bins, hrun, ?_⟩
  rw [sum_foldlM_tallyBin gs hrun]
  simp [emptyBins]

/-! ### The scores of an assignment -/

/-- With the maximum `m` a score has a bin. -/
def Fits (m g : ℚ) : Prop := (0 < m → -m < 49 * g) ∧ (m < 0 → 50 * m < 49 * g)

theorem scoreBin_mem_iff (hm : m ≠ 0) : 0 ≤ scoreBin m g ∧ scoreBin m g < 50 ↔ Fits m g := by
  rw [scoreBin, Fits]
  obtain hneg | hpos := lt_or_gt_of_ne hm
  · rw [eq_true hneg, eq_false hneg.not_gt, false_imp_iff, true_and, true_imp_iff]
    split
    · next hlt => exact iff_of_true ⟨by norm_num, by norm_num⟩ (by linarith)
    · next hle =>
      rw [truncate_mem_iff, lt_div_iff_of_neg hneg, div_lt_iff_of_neg hneg]
      refine ⟨fun h => h.2, fun h => ⟨?_, h⟩⟩
      linarith
  · rw [eq_true hpos, eq_false hpos.not_gt, true_imp_iff, false_imp_iff, and_true]
    split
    · next hlt => exact iff_of_true ⟨by norm_num, by norm_num⟩ (by linarith)
    · next hle =>
      rw [truncate_mem_iff, lt_div_iff₀ hpos, div_lt_iff₀ hpos, neg_one_mul]
      refine ⟨fun h => h.1, fun h => ⟨h, ?_⟩⟩
      linarith

theorem histoMax_ne_zero (a : Assignment) (csp : Sectionstats) : histoMax a csp ≠ 0 := by
  rw [histoMax]
  split
  · split
    · exact one_ne_zero
    · assumption
  · assumption

/-- The tally loop of an assignment stays inside the bins if and only if all scores fit. -/
theorem assignmentBins_iff {csp : Classrecord} (h : csp.Ranks gs) :
    (∃ bins, assignmentBins a csp = some bins ∧ bins.sum = csp.tallied) ↔
      ∀ g ∈ gs, Fits (histoMax a csp.toSectionstats) g := by
  have hrange : (∀ fp ∈ csp.quantiles, 0 ≤ scoreBin (histoMax a csp.toSectionstats) fp.score ∧
      scoreBin (histoMax a csp.toSectionstats) fp.score < emptyBins.length) ↔
        ∀ g ∈ gs, Fits (histoMax a csp.toSectionstats) g := by
    have hne := histoMax_ne_zero a csp.toSectionstats
    constructor
    · intro hall g hg
      obtain ⟨fp, hfp, rfl⟩ := (h.bucket g).mp hg
      exact (scoreBin_mem_iff hne).mp (hall fp hfp)
    · intro hall fp hfp
      exact (scoreBin_mem_iff hne).mpr (hall fp.score ((h.bucket _).mpr ⟨fp, hfp, rfl⟩))
  rw [← hrange, ← foldlM_tallyBin _ fun fp : Quantile => fp.count]
  constructor
  · rintro ⟨bins, hrun, -⟩
    exact ⟨bins, hrun⟩
  · rintro ⟨bins, hrun⟩
    refine ⟨bins, hrun, ?_⟩
    rw [sum_foldlM_tallyBin csp.quantiles hrun, h.sum]
    simp [emptyBins]

/-! ### The assignments behind `normalize` -/

/-- An assignment after a score of it has been normalized. -/
def Assignment.normalized (a : Assignment) : Assignment :=
  if a.npolicy = .scale then a.settle else a

theorem settle_settle (a : Assignment) : a.settle.settle = a.settle := by
  rw [Assignment.settle, Assignment.settle, raise_raise]

theorem normalized_normalized (a : Assignment) : a.normalized.normalized = a.normalized := by
  by_cases h : a.npolicy = .scale
  · have ha : a.normalized = a.settle := if_pos h
    rw [ha, Assignment.normalized, npolicy_settle, if_pos h, settle_settle]
  · have ha : a.normalized = a := if_neg h
    rw [ha, ha]

/-- `normal` changes the assignment of the score. -/
theorem normal_assignments (h : normal s i k st = some (f, st'))
    (ha : st.assignments[i]? = some a) :
    st'.assignments = st.assignments.set i a.normalized := by
  obtain ⟨b, hb, h⟩ := Option.bind_eq_some_iff.mp h
  obtain rfl := Option.some.inj (ha.symm.trans hb)
  obtain ⟨csp, -, h⟩ := Option.bind_eq_some_iff.mp h
  obtain ⟨ssp, -, h⟩ := Option.bind_eq_some_iff.mp h
  -- all policies but one leave the assignment alone
  have hself : st.assignments.set i a = st.assignments := by
    obtain ⟨hi, rfl⟩ := List.getElem?_eq_some_iff.mp ha
    exact List.set_getElem_self hi
  cases hpolicy : a.npolicy with
  | raw =>
    simp only [hpolicy, Option.some.injEq, Prod.mk.injEq] at h
    obtain ⟨-, rfl⟩ := h
    rw [Assignment.normalized, hpolicy, if_neg (by decide), hself]
  | linear =>
    rw [Assignment.normalized, hpolicy, if_neg (by decide), hself]
    cases hgroup : a.ngroup with
    | byClass =>
      simp only [hpolicy, hgroup, Option.some.injEq, Prod.mk.injEq] at h
      obtain ⟨-, rfl⟩ := h
      rfl
    | bySection =>
      simp only [hpolicy, hgroup, Option.some.injEq, Prod.mk.injEq] at h
      obtain ⟨-, rfl⟩ := h
      rfl
  | scale =>
    -- the maximum is filled in from the record of the class
    rw [Assignment.normalized, hpolicy, if_pos rfl, Assignment.settle]
    simp only [hpolicy, Option.some.injEq, Prod.mk.injEq] at h
    obtain ⟨-, rfl⟩ := h
    simp only [hpolicy]
  | quantile =>
    simp only [hpolicy, Option.some.injEq, Prod.mk.injEq] at h
    obtain ⟨-, rfl⟩ := h
    rw [Assignment.normalized, hpolicy, if_neg (by decide), hself]

/-- A step changes an assignment in this way or not at all. -/
theorem Step.assignment (h : Step st st') (ha : st.assignments[j]? = some a) :
    st'.assignments[j]? = some a ∨ st'.assignments[j]? = some a.normalized := by
  obtain ⟨s, i, k, f, hrun⟩ := h
  obtain ⟨e, hlookup⟩ := lookup_of_normal hrun
  rw [normal_assignments hrun (lookup_eq_some.mp hlookup).1]
  by_cases hij : i = j
  · subst hij
    obtain rfl := Option.some.inj (ha.symm.trans (lookup_eq_some.mp hlookup).1)
    exact .inr (List.getElem?_set_self (List.getElem?_eq_some_iff.mp ha).1)
  · rw [List.getElem?_set_ne hij]
    exact .inl ha

theorem Reaches.assignment (h : Reaches st st') (ha : st.assignments[j]? = some a) :
    st'.assignments[j]? = some a ∨ st'.assignments[j]? = some a.normalized := by
  induction h with
  | refl => exact .inl ha
  | tail _ hstep ih =>
    obtain ih | ih := ih
    · exact hstep.assignment ih
    · obtain h | h := hstep.assignment ih
      · exact .inr h
      · rw [normalized_normalized] at h
        exact .inr h

/-- Behind a score of it an assignment is changed in this way. -/
theorem Normalizes.assignment (h : Normalizes st st' scp g)
    (hrecords : scp.records = some (i, k)) (ha : st.assignments[i]? = some a) :
    st'.assignments[i]? = some a.normalized := by
  obtain ⟨st₁, st₂, i', k', hrecords', hbefore, hrun, hafter⟩ := h
  obtain ⟨rfl, rfl⟩ := Prod.mk.inj (Option.some.inj (hrecords.symm.trans hrecords'))
  have hdone : st₂.assignments[i]? = some a.normalized := by
    obtain h | h := hbefore.assignment ha
    · rw [normal_assignments hrun h]
      exact List.getElem?_set_self (List.getElem?_eq_some_iff.mp h).1
    · rw [normal_assignments hrun h, normalized_normalized]
      exact List.getElem?_set_self (List.getElem?_eq_some_iff.mp h).1
  obtain h | h := hafter.assignment hdone
  · exact h
  · rwa [normalized_normalized] at h

/-- The record of an assignment behind `normalize`. -/
theorem record_of_reaches {csp : Classrecord} (h : st.cstats[i]? = some csp)
    (hst : Reaches st st') : ∃ csp', st'.cstats[i]? = some csp' ∧ csp'.settle = csp.settle := by
  have hmap := congrArg (fun st : Grading => st.cstats[i]?) hst.settle
  simp only [Grading.settle, List.getElem?_map, h, Option.map_some] at hmap
  exact Option.map_eq_some_iff.mp hmap

/-! ### All bins -/

/-- A loop that may fail, place by place. -/
theorem mapM_iff {β : Type} {f : ι → Option β} {P : ι → β → Prop} (l : List ι) :
    (∃ r, l.mapM f = some r ∧ ∀ (i : ℕ) e, l[i]? = some e → ∃ b, r[i]? = some b ∧ P e b) ↔
      ∀ (i : ℕ) e, l[i]? = some e → ∃ b, f e = some b ∧ P e b := by
  induction l with
  | nil => exact iff_of_true ⟨[], rfl, nofun⟩ nofun
  | cons e l ih =>
    constructor
    · -- the place of an element in the list is that of its result
      rintro ⟨r, hrun, hplaces⟩
      rw [List.mapM_cons] at hrun
      obtain ⟨b, hb, hrun⟩ := Option.bind_eq_some_iff.mp hrun
      obtain ⟨r', hr', hrun⟩ := Option.bind_eq_some_iff.mp hrun
      obtain rfl := Option.some.inj hrun
      intro i e' he'
      cases i with
      | zero =>
        obtain rfl := Option.some.inj he'
        obtain ⟨b', hb', hP⟩ := hplaces 0 e rfl
        obtain rfl := Option.some.inj hb'
        exact ⟨b, hb, hP⟩
      | succ i => exact ih.mp ⟨r', hr', fun i e' he' => hplaces (i + 1) e' he'⟩ i e' he'
    · intro hall
      obtain ⟨b, hb, hP⟩ := hall 0 e rfl
      obtain ⟨r, hr, hplaces⟩ := ih.mpr fun i e' he' => hall (i + 1) e' he'
      refine ⟨b :: r, ?_, fun i e' he' => ?_⟩
      · rw [List.mapM_cons, hb, hr]
        rfl
      · cases i with
        | zero =>
          obtain rfl := Option.some.inj he'
          exact ⟨b, rfl, hP⟩
        | succ i => exact hplaces i e' he'

/-- `composites` keeps the course roster. -/
theorem composites_eq {students : List ℕ} (normscores : ℕ → List Score)
    (assignments : List Assignment) {fuel : ℕ}
    (hwalk : follow (getcnext c) fuel c.roster = some students) :
    ∃ c', composites fuel normscores assignments c = some c' ∧ c'.cnext = c.cnext ∧
      c'.roster = c.roster := by
  rw [composites, hwalk]
  refine ⟨_, rfl, ?_⟩
  clear hwalk
  induction students generalizing c with
  | nil => exact ⟨rfl, rfl⟩
  | cons stp students ih => exact ih

/-- The maximum for an assignment whose greatest score is `top`: the declared one, which `normalize`
has raised with `SCALE` normalization if it is too small, or else the greatest score. -/
def maximumOf (a : Assignment) (top : ℚ) : ℚ :=
  if a.normalized.max = 0 then if top = 0 then 1 else top else a.normalized.max

/-- The scores of an assignment fit into the bins. -/
def ScoresFit (a : Assignment) (gs : List ℚ) : Prop :=
  ∀ top, IsGreatest {g | g ∈ gs} top → ∀ g ∈ gs, Fits (maximumOf a top) g

/-- The tally of an assignment behind `normalize`. -/
theorem assignmentBins_normalized {a' : Assignment} {csp : Classrecord} (hranks : csp.Ranks gs)
    (hdescribes : Describes csp.toSectionstats gs) (ha' : gs ≠ [] → a' = a.normalized) :
    (∃ bins, assignmentBins a' csp = some bins ∧ bins.sum = csp.tallied) ↔ ScoresFit a gs := by
  rw [assignmentBins_iff hranks, ScoresFit]
  by_cases hgs : gs = []
  · subst hgs
    exact iff_of_true nofun fun _ _ => nofun
  · have hgreatest : IsGreatest {g | g ∈ gs} csp.max := hdescribes.max hgs
    have hmax : histoMax a' csp.toSectionstats = maximumOf a csp.max := by
      rw [ha' hgs, histoMax, maximumOf]
    rw [hmax]
    constructor
    · intro hall top htop
      rw [htop.unique hgreatest]
      exact hall
    · exact fun hall => hall csp.max hgreatest

/-- An assignment with scores has one at some place. -/
theorem exists_scoreAt (hg : g ∈ scoresOf c.student ls.flatten i) :
    ∃ k p j scp, ScoreAt c ls k p j scp ∧ scp.asgt = i := by
  obtain ⟨p, hp, hg⟩ := List.mem_flatMap.mp hg
  obtain ⟨scp, hscp, -⟩ := List.mem_map.mp hg
  obtain ⟨hmem, hcounts⟩ := List.mem_filter.mp hscp
  obtain ⟨hcounts, hasgt⟩ := of_decide_eq_true hcounts
  obtain ⟨students, hstudents, hp⟩ := List.mem_flatten.mp hp
  obtain ⟨k, hk⟩ := List.mem_iff_getElem?.mp hstudents
  obtain ⟨j, hj⟩ := List.mem_iff_getElem?.mp hmem
  exact ⟨k, p, j, scp, ⟨students, hk, hp, hj, hcounts⟩, hasgt⟩

/-- No bin index was out of range, and the bins have taken up all students, and for every assignment
the scores that were tallied. -/
def AllTallied (number : ℕ) (st : Grading) (r : Option (List ℕ × List (List ℕ))) : Prop :=
  ∃ bins asgtBins, r = some (bins, asgtBins) ∧ bins.sum = number ∧
    ∀ i < st.assignments.length, ∃ csp b, st.cstats[i]? = some csp ∧ asgtBins[i]? = some b ∧
      b.sum = csp.tallied

/-- The tallies of `reporthistos`, one by one. -/
theorem allTallied_iff {students : List ℕ} {fuel : ℕ} (number : ℕ)
    (hwalk : follow (getcnext c) fuel c.roster = some students)
    (hrecords : ∀ i < st.assignments.length, ∃ csp, st.cstats[i]? = some csp) :
    AllTallied number st (reporthistos fuel c st) ↔ students.length = number ∧
      ∀ (i : ℕ) a csp, st.assignments[i]? = some a → st.cstats[i]? = some csp →
        ∃ b, assignmentBins a csp = some b ∧ b.sum = csp.tallied := by
  -- the histogram of the composites never loses a score
  obtain ⟨bins, hbins, hsum⟩ :=
    compositeBins_eq (students.map fun stp => (c.student stp).composite)
  rw [List.length_map] at hsum
  have hreport : reporthistos fuel c st =
      ((st.assignments.zip st.cstats).mapM fun e => assignmentBins e.1 e.2).bind
        fun asgtBins => some (bins, asgtBins) := by
    rw [reporthistos, hwalk, Option.bind_eq_bind, Option.bind_some, hbins]
    rfl
  have hplaces := mapM_iff (f := fun e => assignmentBins e.1 e.2)
    (P := fun e b => b.sum = e.2.tallied) (st.assignments.zip st.cstats)
  rw [← hsum]
  constructor
  · -- a report has been made for every assignment
    rintro ⟨bins', asgtBins, hrun, hnumber, htallied⟩
    rw [hreport] at hrun
    obtain ⟨_, hmap, hr⟩ := Option.bind_eq_some_iff.mp hrun
    obtain ⟨rfl, rfl⟩ := Prod.mk.inj (Option.some.inj hr)
    refine ⟨hnumber, fun i a csp ha hcsp => ?_⟩
    refine hplaces.mp ⟨_, hmap, fun j e he => ?_⟩ i (a, csp)
      (List.getElem?_zip_eq_some.mpr ⟨ha, hcsp⟩)
    obtain ⟨ha', hcsp'⟩ := List.getElem?_zip_eq_some.mp he
    obtain ⟨csp'', b, hcsp'', hb, hsum'⟩ := htallied j (List.getElem?_eq_some_iff.mp ha').1
    obtain rfl := Option.some.inj (hcsp'.symm.trans hcsp'')
    exact ⟨b, hb, hsum'⟩
  · rintro ⟨hnumber, hall⟩
    obtain ⟨asgtBins, hmap, htallied⟩ := hplaces.mpr fun i e he => by
      obtain ⟨ha, hcsp⟩ := List.getElem?_zip_eq_some.mp he
      exact hall i e.1 e.2 ha hcsp
    refine ⟨bins, asgtBins, by rw [hreport, hmap, Option.bind_some], hnumber, fun i hi => ?_⟩
    obtain ⟨csp, hcsp⟩ := hrecords i hi
    obtain ⟨b, hb, hsum'⟩ := htallied i (st.assignments[i], csp)
      (List.getElem?_zip_eq_some.mpr ⟨List.getElem?_eq_getElem hi, hcsp⟩)
    exact ⟨csp, b, hcsp, hb, hsum'⟩

/-- An assignment and its record behind `normalize`. -/
theorem assignmentBins_reaches {assignments : List Assignment} {stats : List Classrecord}
    {normscores : ℕ → List Score} (hrecords : RecordsOf c.student ls assignments.length stats)
    (hreaches : Reaches ⟨assignments, stats⟩ st')
    (hscores : ∀ k p j scp, ScoreAt c ls k p j scp → ∃ nscp, (normscores p)[j]? = some nscp ∧
      nscp.asgt = scp.asgt ∧
      Normalizes ⟨assignments, stats⟩ st' (scp.link assignments.length k) nscp.grade)
    (ha : assignments[i]? = some a) :
    ∃ a' csp, st'.assignments[i]? = some a' ∧ st'.cstats[i]? = some csp ∧
      ((∃ b, assignmentBins a' csp = some b ∧ b.sum = csp.tallied) ↔
        ScoresFit a (scoresOf c.student ls.flatten i)) := by
  have hi := (List.getElem?_eq_some_iff.mp ha).1
  obtain ⟨csp, hcsp, hranks, hdescribes, -⟩ := hrecords i hi
  have ha₀ : (Grading.mk assignments stats).assignments[i]? = some a := ha
  have hcsp₀ : (Grading.mk assignments stats).cstats[i]? = some csp := hcsp
  obtain ⟨a', ha', -⟩ := assignment_of_reaches ha₀ hreaches
  obtain ⟨csp', hcsp', hsettle⟩ := record_of_reaches hcsp₀ hreaches
  -- `normalize` leaves alone what the histogram is made of
  have hsame : csp'.toSectionquantiles = csp.toSectionquantiles := by
    rw [← toSectionquantiles_settle, hsettle, toSectionquantiles_settle]
  rw [← hsame] at hranks hdescribes
  refine ⟨a', csp', ha', hcsp', assignmentBins_normalized hranks hdescribes fun hgs => ?_⟩
  obtain ⟨g, hg⟩ := List.exists_mem_of_ne_nil _ hgs
  obtain ⟨k, p, j, scp, hscore, rfl⟩ := exists_scoreAt hg
  obtain ⟨nscp, -, -, hnormalizes⟩ := hscores k p j scp hscore
  rw [link_of_lt hi] at hnormalizes
  exact Option.some.inj (ha'.symm.trans (hnormalizes.assignment rfl ha))

/-- After `statistics`, `normalize` and `composites` every bin index that `reporthistos` computes is
one of a bin, and the bins add up to the number of students and to the tallied counts, if and only
if the scores of every assignment fit and a course without assignments has no students. -/
theorem reporthistos_iff (sqrt : ℚ → ℚ) (norms : ℕ → ℕ → Norms) (assignments : List Assignment)
    (rosters : List.Forall₂ (Links c.next) c.sections ls) (disjoint : ls.flatten.Nodup)
    (declared : ∀ p ∈ ls.flatten, ∀ scp ∈ (c.student p).rawscores,
      scp.asgt < assignments.length) :
    ∃ c' stats normscores st', (∀ fuel, ls.flatten.length + 1 ≤ fuel →
        completeStatistics sqrt fuel assignments.length c = some (c', stats) ∧
        normalize norms fuel c' ⟨assignments, stats⟩ = some (normscores, st')) ∧
      ∀ fuel, ls.flatten.length + 1 ≤ fuel →
        ∃ c'', composites fuel normscores st'.assignments c' = some c'' ∧
          (AllTallied ls.flatten.length st' (reporthistos fuel c'' st') ↔
            (assignments = [] → ls.flatten = []) ∧
              ∀ i a, assignments[i]? = some a →
                ScoresFit a (scoresOf c.student ls.flatten i)) := by
  obtain ⟨c', stats, normscores, st', hrun, hroster, hrecords, hreaches, hscores⟩ :=
    normalize_statistics sqrt norms assignments rosters disjoint declared
  refine ⟨c', stats, normscores, st', hrun, fun fuel hfuel => ?_⟩
  -- without an assignment `do_links` leaves the roster empty
  generalize hstudents : (if assignments = [] then [] else ls.flatten) = students at hroster
  have hlength : students.length + 1 ≤ fuel := by
    rw [← hstudents]
    split
    · exact Nat.succ_le_of_lt (Nat.lt_of_lt_of_le (Nat.succ_pos _) hfuel)
    · exact hfuel
  have hwalk : follow (getcnext c') fuel c'.roster = some students := hroster.follow_eq hlength
  obtain ⟨c'', hcomposites, hcnext, hhead⟩ := composites_eq normscores st'.assignments hwalk
  -- `composites` changes no link of the roster
  have hwalk' : follow (getcnext c'') fuel c''.roster = some students := by
    rw [hhead, ← hwalk]
    exact congrArg (fun next => follow next fuel c'.roster) hcnext
  have hnumber : students.length = ls.flatten.length ↔ (assignments = [] → ls.flatten = []) := by
    rw [← hstudents]
    by_cases hnone : assignments = []
    · rw [if_pos hnone, eq_true hnone, true_imp_iff, List.length_nil, eq_comm,
        List.length_eq_zero_iff]
    · rw [if_neg hnone]
      exact iff_of_true rfl fun h => absurd h hnone
  have hplace := fun i a => assignmentBins_reaches (i := i) (a := a) hrecords hreaches hscores
  have hassignments : st'.assignments.length = assignments.length := by
    have hmap := congrArg (fun st : Grading => st.assignments.length) hreaches.settle
    simpa only [Grading.settle, List.length_map] using hmap
  have hall : ∀ i < st'.assignments.length, ∃ csp, st'.cstats[i]? = some csp := fun i hi => by
    rw [hassignments] at hi
    obtain ⟨-, csp, -, hcsp, -⟩ := hplace i _ (List.getElem?_eq_getElem hi)
    exact ⟨csp, hcsp⟩
  refine ⟨c'', hcomposites, ?_⟩
  rw [allTallied_iff ls.flatten.length hwalk' hall, hnumber]
  refine and_congr_right fun _ => ⟨fun h i a ha => ?_, fun h i a' csp' ha' hcsp' => ?_⟩
  · obtain ⟨a', csp, ha', hcsp, hiff⟩ := hplace i a ha
    exact hiff.mp (h i a' csp ha' hcsp)
  · have hi : i < assignments.length := hassignments ▸ (List.getElem?_eq_some_iff.mp ha').1
    have ha := List.getElem?_eq_getElem hi
    obtain ⟨a'', csp, ha'', hcsp, hiff⟩ := hplace i _ ha
    obtain rfl := Option.some.inj (ha'.symm.trans ha'')
    obtain rfl := Option.some.inj (hcsp'.symm.trans hcsp)
    exact hiff.mpr (h i _ ha)

/-- An assignment with a declared maximum of 100. -/
def hundredPoints : Assignment := ⟨[], .noWeight, 0, .raw, 100, 0, 0, 0, .byClass⟩

theorem reporthistos_iff_example : ∃ c' stats normscores st' c'',
    completeStatistics id 3 1 twoScores = some (c', stats) ∧
      normalize (fun _ _ => ⟨0, 0⟩) 3 c' ⟨[hundredPoints], stats⟩ = some (normscores, st') ∧
      composites 3 normscores st'.assignments c' = some c'' ∧
      AllTallied 2 st' (reporthistos 3 c'' st') := by
  obtain ⟨c', stats, normscores, st', hrun, hreport⟩ := reporthistos_iff id (fun _ _ => ⟨0, 0⟩)
    [hundredPoints] twoScores_rosters (by decide) twoScores_declared
  obtain ⟨hstatistics, hnormalize⟩ := hrun 3 (Nat.le_refl 3)
  obtain ⟨c'', hcomposites, hiff⟩ := hreport 3 (Nat.le_refl 3)
  refine ⟨c', stats, normscores, st', c'', hstatistics, hnormalize, hcomposites,
    hiff.mpr ⟨fun h => absurd h (List.cons_ne_nil _ _), fun i a ha top _ g hg => ?_⟩⟩
  -- the maximum is the declared one
  obtain ⟨hi, rfl⟩ := List.getElem?_eq_some_iff.mp ha
  obtain rfl : i = 0 := Nat.lt_one_iff.mp hi
  have hmax : maximumOf hundredPoints top = 100 := if_neg (by decide)
  have hscores : scoresOf twoScores.student [[1, 2]].flatten 0 = [3, 5] := rfl
  rw [hscores] at hg
  rw [List.getElem_cons_zero, hmax]
  have hpos : 0 < g := by
    obtain rfl | hg := List.mem_cons.mp hg
    · norm_num
    · obtain rfl := List.mem_singleton.mp hg
      norm_num
  exact ⟨fun _ => by linarith, fun h => absurd h (by norm_num)⟩

/-- A course with one student, who has -10 points. -/
def minusTen : Rosters where
  student := fun _ => ⟨[], [], [], [⟨0, -10, .valid, .useRaw, none, none⟩], 0⟩
  next := fun _ => none
  cnext := fun _ => none
  roster := none
  sections := [some 1]

/-- The index of this score is -4, and its bin is not there. -/
theorem reporthistos_negative :
    ((completeStatistics id 2 1 minusTen).bind fun r =>
      (normalize (fun _ _ => ⟨0, 0⟩) 2 r.1 ⟨[hundredPoints], r.2⟩).bind fun q =>
        (composites 2 q.1 q.2.assignments r.1).map fun c => reporthistos 2 c q.2) = some none ∧
      scoreBin 100 (-10) = -4 := by
  decide_cbv

end CLanguage.Grades
