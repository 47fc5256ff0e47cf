import Mathlib.Logic.Relation
import Mathlib.Tactic.Linarith
import Mathlib.Tactic.NormNum
import CLanguage.Grades.Normal

/-!
# What `normalize` computes and what it keeps

`normal` replaces a small standard deviation or maximum, and does it once only. So with
all small divisors replaced (`Grading.settle`) the assignments and the statistics stay the
same along all calls of `normal` (`Reaches.settle`), and the normalized value of a score
(`Grading.valueOf`) does not depend on when it is computed.
-/

namespace CLanguage.Grades

open CLanguage.Lib

variable {i k : ℕ} {s f d : ℚ} {t : Str} {st st' st₀ : Grading} {a : Assignment} {csp : Classrecord}
  {ssp : Sectionrecord} {scp : Score} {scores : List Score} {stp : Student}

/-! ### Settled divisors -/

theorem epsilon_pos : 0 < epsilon := by norm_num [epsilon]

theorem epsilon_le_raise (d : ℚ) : epsilon ≤ raise d := by
  rw [raise]
  split
  · have := epsilon_pos
    linarith
  · next h => exact not_lt.mp h

theorem raise_raise (d : ℚ) : raise (raise d) = raise d :=
  if_neg (not_lt.mpr (epsilon_le_raise d))

/-- An assignment whose maximum is not too small. -/
def Assignment.settle (a : Assignment) : Assignment := { a with max := raise a.max }

/-- A record whose standard deviation is not too small. -/
def Sectionrecord.settle (r : Sectionrecord) : Sectionrecord := { r with stddev := raise r.stddev }

/-- A record whose standard deviations are not too small. -/
def Classrecord.settle (csp : Classrecord) : Classrecord :=
  { csp.toSectionrecord.settle with sstats := csp.sstats.map Sectionrecord.settle }

@[simp] theorem atype_settle (a : Assignment) : a.settle.atype = a.atype := rfl

@[simp] theorem npolicy_settle (a : Assignment) : a.settle.npolicy = a.npolicy := rfl

@[simp] theorem ngroup_settle (a : Assignment) : a.settle.ngroup = a.ngroup := rfl

@[simp] theorem tallied_settle (r : Sectionrecord) : r.settle.tallied = r.tallied := rfl

@[simp] theorem quantiles_settle (r : Sectionrecord) : r.settle.quantiles = r.quantiles := rfl

@[simp] theorem toSectionquantiles_settle (csp : Classrecord) :
    csp.settle.toSectionquantiles = csp.toSectionquantiles := rfl

/-- No divisor is too small. -/
def Grading.settle (st : Grading) : Grading :=
  ⟨st.assignments.map Assignment.settle, st.cstats.map Classrecord.settle⟩

/-- An assignment, its record, and in it that of a section. -/
def Grading.lookup (i k : ℕ) (st : Grading) :
    Option (Assignment × Classrecord × Sectionrecord) := do
  let a ← st.assignments[i]?
  let csp ← st.cstats[i]?
  let ssp ← csp.sstats[k]?
  return (a, csp, ssp)

theorem lookup_eq_some {e : Assignment × Classrecord × Sectionrecord} :
    st.lookup i k = some e ↔
      st.assignments[i]? = some e.1 ∧ st.cstats[i]? = some e.2.1 ∧
        e.2.1.sstats[k]? = some e.2.2 := by
  obtain ⟨a, csp, ssp⟩ := e
  simp only [Grading.lookup, Option.bind_eq_bind, Option.pure_def, Option.bind_eq_some_iff,
    Option.some.injEq, Prod.mk.injEq]
  constructor
  · rintro ⟨_, ha, _, hcsp, _, hssp, rfl, rfl, rfl⟩
    exact ⟨ha, hcsp, hssp⟩
  · rintro ⟨ha, hcsp, hssp⟩
    exact ⟨a, ha, csp, hcsp, ssp, hssp, rfl, rfl, rfl⟩

theorem lookup_settle (h : st.lookup i k = some (a, csp, ssp)) :
    st.settle.lookup i k = some (a.settle, csp.settle, ssp.settle) := by
  obtain ⟨ha, hcsp, hssp⟩ := lookup_eq_some.mp h
  refine lookup_eq_some.mpr ⟨?_, ?_, ?_⟩
  · rw [Grading.settle, List.getElem?_map, ha, Option.map_some]
  · rw [Grading.settle, List.getElem?_map, hcsp, Option.map_some]
  · rw [Classrecord.settle, List.getElem?_map, hssp, Option.map_some]

/-- What is found is also found after small divisors have been replaced. -/
theorem lookup_of_settle (h : st.lookup i k = some (a, csp, ssp)) (hst : st'.settle = st.settle) :
    ∃ a' csp' ssp', st'.lookup i k = some (a', csp', ssp') ∧ a'.settle = a.settle ∧
      csp'.settle = csp.settle ∧ ssp'.settle = ssp.settle := by
  have hsettled := lookup_settle h
  rw [← hst] at hsettled
  obtain ⟨ha, hcsp, hssp⟩ := lookup_eq_some.mp hsettled
  rw [Grading.settle, List.getElem?_map] at ha hcsp
  obtain ⟨a', ha', hsame⟩ := Option.map_eq_some_iff.mp ha
  obtain ⟨csp', hcsp', hsame'⟩ := Option.map_eq_some_iff.mp hcsp
  dsimp only at hsame hsame' hssp
  rw [← hsame', Classrecord.settle, List.getElem?_map] at hssp
  obtain ⟨ssp', hssp', hsame''⟩ := Option.map_eq_some_iff.mp hssp
  exact ⟨a', csp', ssp', lookup_eq_some.mpr ⟨ha', hcsp', hssp'⟩, hsame, hsame', hsame''⟩

/-! ### One score -/

/-- The normalized value of a score. -/
def normalValue (s : ℚ) (a : Assignment) (csp : Classrecord) (ssp : Sectionrecord) : ℚ :=
  let r := csp.group ssp a.ngroup
  match a.npolicy with
  | .raw => s
  | .linear => linear s r.mean (raise r.stddev) a.mean a.stddev
  | .scale => scale s (raise a.max) a.scale
  | .quantile => (searchQuantile s (if r.tallied = 0 then 1 else r.tallied) r.quantiles).getD s

theorem group_settle (csp : Classrecord) (ssp : Sectionrecord) (ngroup : Ngroup) :
    csp.settle.group ssp.settle ngroup = (csp.group ssp ngroup).settle := by
  cases ngroup with
  | byClass => rfl
  | bySection => rfl

theorem normalValue_settle (s : ℚ) (a : Assignment) (csp : Classrecord) (ssp : Sectionrecord) :
    normalValue s a.settle csp.settle ssp.settle = normalValue s a csp ssp := by
  rw [normalValue, normalValue, ngroup_settle, group_settle, npolicy_settle]
  cases a.npolicy with
  | raw => rfl
  | linear =>
    simp only [Sectionrecord.settle, raise_raise]
    rfl
  | scale =>
    simp only [Assignment.settle, raise_raise]
  | quantile => rfl

/-- The normalized value of a score for assignment `i` in section `k`. -/
def Grading.value (st : Grading) (s : ℚ) (i k : ℕ) : Option ℚ :=
  (st.lookup i k).map fun e => normalValue s e.1 e.2.1 e.2.2

theorem value_of_lookup (h : st.lookup i k = some (a, csp, ssp)) :
    st.value s i k = some (normalValue s a csp ssp) := by
  rw [Grading.value, h, Option.map_some]

theorem map_set_of_eq {α β : Type} {l : List α} {x y : α} (g : α → β) (h : l[i]? = some x)
    (hg : g y = g x) : (l.set i y).map g = l.map g := by
  rw [List.map_set, hg]
  refine List.ext_getElem? fun j => ?_
  rw [List.getElem?_set]
  split
  · next hij =>
    subst hij
    rw [List.getElem?_map, h, if_pos, Option.map_some]
    rw [List.length_map]
    exact (List.getElem?_eq_some_iff.mp h).1
  · rfl

/-- `normal` computes the value of a score, and what it changes is settled in the same way. -/
theorem normal_eq (s : ℚ) (h : st.lookup i k = some (a, csp, ssp)) :
    ∃ st', normal s i k st = some (normalValue s a csp ssp, st') ∧ st'.settle = st.settle := by
  obtain ⟨ha, hcsp, hssp⟩ := lookup_eq_some.mp h
  dsimp only at ha hcsp hssp
  simp only [normal, ha, hcsp, hssp, Option.bind_eq_bind, Option.bind_some, normalValue]
  -- only the standard deviation that is raised can change, and settling raises it anyway
  cases hpolicy : a.npolicy with
  | raw => exact ⟨st, rfl, rfl⟩
  | linear =>
    cases a.ngroup with
    | byClass =>
      refine ⟨_, rfl, ?_⟩
      rw [Grading.settle, Grading.settle]
      congr 1
      refine map_set_of_eq _ hcsp ?_
      simp only [Classrecord.settle, Sectionrecord.settle, raise_raise]
    | bySection =>
      refine ⟨_, rfl, ?_⟩
      rw [Grading.settle, Grading.settle]
      congr 1
      refine map_set_of_eq _ hcsp ?_
      rw [Classrecord.settle, Classrecord.settle]
      congr 1
      refine map_set_of_eq _ hssp ?_
      simp only [Sectionrecord.settle, raise_raise]
  | scale =>
    refine ⟨_, rfl, ?_⟩
    rw [Grading.settle, Grading.settle]
    congr 1
    refine map_set_of_eq _ ha ?_
    simp only [Assignment.settle, raise_raise, hpolicy]
  | quantile => exact ⟨st, rfl, rfl⟩

/-- `normal` changes the assignments and the statistics. -/
def Step (st st' : Grading) : Prop := ∃ s i k f, normal s i k st = some (f, st')

/-- Some calls of `normal` change them. -/
abbrev Reaches : Grading → Grading → Prop := Relation.ReflTransGen Step

/-- `normal` returns only where it finds the records. -/
theorem lookup_of_normal {r : ℚ × Grading} (h : normal s i k st = some r) :
    ∃ e, st.lookup i k = some e := by
  obtain ⟨a, ha, h⟩ := Option.bind_eq_some_iff.mp h
  obtain ⟨csp, hcsp, h⟩ := Option.bind_eq_some_iff.mp h
  obtain ⟨ssp, hssp, -⟩ := Option.bind_eq_some_iff.mp h
  exact ⟨(a, csp, ssp), lookup_eq_some.mpr ⟨ha, hcsp, hssp⟩⟩

theorem Step.settle (h : Step st st') : st'.settle = st.settle := by
  obtain ⟨s, i, k, f, hrun⟩ := h
  obtain ⟨e, hlookup⟩ := lookup_of_normal hrun
  obtain ⟨st'', hrun', hsettle⟩ := normal_eq s hlookup
  obtain rfl := (Prod.mk.inj (Option.some.inj (hrun.symm.trans hrun'))).2
  exact hsettle

theorem Reaches.settle (h : Reaches st st') : st'.settle = st.settle := by
  induction h with
  | refl => rfl
  | tail _ hstep ih => exact hstep.settle.trans ih

/-- The policy of an assignment and the table of its group stay the same. -/
theorem lookup_of_reaches (h : st.lookup i k = some (a, csp, ssp)) (hst : Reaches st st') :
    ∃ a' csp' ssp', st'.lookup i k = some (a', csp', ssp') ∧ a'.npolicy = a.npolicy ∧
      (csp'.group ssp' a'.ngroup).tallied = (csp.group ssp a.ngroup).tallied ∧
      (csp'.group ssp' a'.ngroup).quantiles = (csp.group ssp a.ngroup).quantiles := by
  obtain ⟨a', csp', ssp', hlookup, ha, hcsp, hssp⟩ := lookup_of_settle h hst.settle
  have hngroup : a'.ngroup = a.ngroup := by rw [← ngroup_settle a', ha, ngroup_settle]
  have hgroup : (csp'.group ssp' a'.ngroup).settle = (csp.group ssp a.ngroup).settle := by
    rw [← group_settle, ← group_settle, hcsp, hssp, hngroup]
  refine ⟨a', csp', ssp', hlookup, ?_, ?_, ?_⟩
  · rw [← npolicy_settle a', ha, npolicy_settle]
  · rw [← tallied_settle, hgroup, tallied_settle]
  · rw [← quantiles_settle, hgroup, quantiles_settle]

/-- The pointers of a score lead to the records of its assignment. -/
def Score.Linked (st : Grading) (scp : Score) : Prop :=
  ∃ k e, scp.records = some (scp.asgt, k) ∧ st.lookup scp.asgt k = some e

/-- The normalized value of a score. -/
def Grading.valueOf (st : Grading) (scp : Score) : Option ℚ := do
  let (i, k) ← scp.records
  st.value scp.grade i k

theorem Score.Linked.of_reaches (h : scp.Linked st) (hst : Reaches st st') : scp.Linked st' := by
  obtain ⟨k, ⟨a, csp, ssp⟩, hrecords, hlookup⟩ := h
  obtain ⟨a', csp', ssp', hlookup', -⟩ := lookup_of_settle hlookup hst.settle
  exact ⟨k, _, hrecords, hlookup'⟩

/-- On the way from `st` to `st'` the value `g` is computed for a score. -/
def Normalizes (st st' : Grading) (scp : Score) (g : ℚ) : Prop :=
  ∃ st₁ st₂ i k, scp.records = some (i, k) ∧ Reaches st st₁ ∧
    normal scp.grade i k st₁ = some (g, st₂) ∧ Reaches st₂ st'

theorem Normalizes.reaches {g : ℚ} (h : Normalizes st st' scp g) : Reaches st st' := by
  obtain ⟨st₁, st₂, i, k, -, hbefore, hrun, hafter⟩ := h
  exact (hbefore.tail ⟨_, _, _, _, hrun⟩).trans hafter

/-- A longer way. -/
theorem Normalizes.mono {g : ℚ} {st₁ st₂ : Grading} (h : Normalizes st₁ st₂ scp g)
    (hbefore : Reaches st st₁) (hafter : Reaches st₂ st') : Normalizes st st' scp g := by
  obtain ⟨st₃, st₄, i, k, hrecords, hbefore', hrun, hafter'⟩ := h
  exact ⟨st₃, st₄, i, k, hrecords, hbefore.trans hbefore', hrun, hafter'.trans hafter⟩

/-- It is the value of the score, whenever it is computed. -/
theorem Normalizes.value {g : ℚ} (h : Normalizes st st' scp g) (linked : scp.Linked st) :
    st.valueOf scp = some g := by
  obtain ⟨st₁, st₂, i, k, hrecords, hbefore, hrun, -⟩ := h
  obtain ⟨k', ⟨a, csp, ssp⟩, hrecords', hlookup⟩ := linked
  obtain ⟨rfl, rfl⟩ := Prod.mk.inj (Option.some.inj (hrecords.symm.trans hrecords'))
  obtain ⟨a', csp', ssp', hlookup', ha, hcsp, hssp⟩ := lookup_of_settle hlookup hbefore.settle
  obtain ⟨st', hrun', -⟩ := normal_eq scp.grade hlookup'
  obtain ⟨rfl, -⟩ := Prod.mk.inj (Option.some.inj (hrun'.symm.trans hrun))
  rw [Grading.valueOf, hrecords]
  change st.value scp.grade scp.asgt k = _
  rw [value_of_lookup hlookup, ← normalValue_settle, ← ha, ← hcsp, ← hssp, normalValue_settle]

/-- A linked score can be normalized. -/
theorem Score.Linked.normalizes (h : scp.Linked st) :
    ∃ g i k st', scp.records = some (i, k) ∧ normal scp.grade i k st = some (g, st') ∧
      Normalizes st st' scp g := by
  obtain ⟨k, ⟨a, csp, ssp⟩, hrecords, hlookup⟩ := h
  obtain ⟨st', hrun, -⟩ := normal_eq scp.grade hlookup
  exact ⟨_, _, k, st', hrecords, hrun, st, st', _, k, hrecords, .refl, hrun, .refl⟩

theorem assignment_of_reaches (h : st.assignments[i]? = some a) (hst : Reaches st st') :
    ∃ a', st'.assignments[i]? = some a' ∧ a'.settle = a.settle := by
  have hmap := congrArg (fun st : Grading => st.assignments[i]?) hst.settle
  simp only [Grading.settle, List.getElem?_map, h, Option.map_some] at hmap
  exact Option.map_eq_some_iff.mp hmap

/-! ### The scores of a student -/

/-- The weight of an assignment, if it has one. -/
def Assignment.weighting (a : Assignment) : Option ℚ :=
  if a.wpolicy = .weight then some a.weight else none

/-- The scores that `studentavg` averages: the weight of the assignment and the normalized value. -/
def likeScores (st : Grading) (t : Str) (scores : List Score) : List (Option ℚ × ℚ) :=
  scores.filterMap fun scp => do
    let a ← st.assignments[scp.asgt]?
    let f ← st.valueOf scp
    if a.atype = t ∧ scp.Counts then some (a.weighting, f) else none

/-- What `studentavg` adds for such a score. -/
def Average.count (v : Average) (e : Option ℚ × ℚ) : Average :=
  match e.1 with
  | some weight => ⟨v.n + 1, true, v.sum + e.2 * weight, v.w + weight⟩
  | none => { v with n := v.n + 1, sum := v.sum + e.2 }

theorem add_eq_count (a : Assignment) (f : ℚ) (v : Average) :
    v.add a f = v.count (a.weighting, f) := by
  rw [Average.add, Assignment.weighting]
  split
  · rfl
  · rfl

@[simp] theorem weighting_settle (a : Assignment) : a.settle.weighting = a.weighting := rfl

/-- The loop of `studentavg` counts these scores, with their values at the start. -/
theorem averageScores_eq (linked : ∀ scp ∈ scores, scp.Linked st₀) (hst : Reaches st₀ st)
    (t : Str) (v : Average) :
    ∃ st', averageScores t scores (v, st) =
      some ((likeScores st₀ t scores).foldl Average.count v, st') ∧ Reaches st st' := by
  induction scores generalizing v st with
  | nil => exact ⟨st, rfl, .refl⟩
  | cons scp scores ih =>
    obtain ⟨hscp, hscores⟩ := List.forall_mem_cons.mp linked
    obtain ⟨g, i, k, st₁, hrecords, hrun, hnormalizes⟩ := (hscp.of_reaches hst).normalizes
    have hvalue : st₀.valueOf scp = some g := (hnormalizes.mono hst .refl).value hscp
    obtain ⟨_, e, -, hlookup⟩ := hscp
    have ha := (lookup_eq_some.mp hlookup).1
    obtain ⟨a', ha', hsettle⟩ := assignment_of_reaches ha hst
    have hlike : likeScores st₀ t (scp :: scores) =
        if e.1.atype = t ∧ scp.Counts then (e.1.weighting, g) :: likeScores st₀ t scores
        else likeScores st₀ t scores := by
      rw [likeScores, List.filterMap_cons, ha, hvalue]
      by_cases hcount : e.1.atype = t ∧ scp.Counts
      · simp only [Option.bind_eq_bind, Option.bind_some, if_pos hcount]
        rfl
      · simp only [Option.bind_eq_bind, Option.bind_some, if_neg hcount]
        rfl
    -- normalizing the scores before this one may have settled its assignment, but no more
    have hatype : a'.atype = e.1.atype := by rw [← atype_settle a', hsettle, atype_settle]
    have hweighting : a'.weighting = e.1.weighting := by
      rw [← weighting_settle a', hsettle, weighting_settle]
    rw [averageScores, ha', Option.bind_eq_bind, Option.bind_some, hatype, hlike]
    by_cases hcount : e.1.atype = t ∧ scp.Counts
    · obtain ⟨st', hrest, hreaches⟩ := ih hscores (hst.trans hnormalizes.reaches)
        (v.count (e.1.weighting, g))
      refine ⟨st', ?_, hnormalizes.reaches.trans hreaches⟩
      rw [if_pos hcount, if_pos hcount, hrecords, Option.bind_eq_bind, Option.bind_some]
      dsimp only
      rw [hrun, Option.bind_eq_bind, Option.bind_some, add_eq_count, hweighting]
      exact hrest
    · rw [if_neg hcount, if_neg hcount]
      exact ih hscores hst v

/-- The average that `studentavg` computes of some scores. -/
def likeAverage (es : List (Option ℚ × ℚ)) : ℚ :=
  (es.foldl Average.count ⟨0, false, 0, 0⟩).result

/-- `studentavg` returns the average of the like scores. -/
theorem studentavg_eq (linked : ∀ scp ∈ stp.rawscores, scp.Linked st₀) (hst : Reaches st₀ st)
    (t : Str) :
    ∃ st', studentavg stp t st = some (likeAverage (likeScores st₀ t stp.rawscores), st') ∧
      Reaches st st' := by
  obtain ⟨st', hrun, hreaches⟩ := averageScores_eq linked hst t ⟨0, false, 0, 0⟩
  refine ⟨st', ?_, hreaches⟩
  rw [studentavg, hrun]
  rfl

/-- A linked score of a student whose scores are linked. -/
theorem normalizeScore_eq (norms : Norms) (hscp : scp.Linked st)
    (linked : ∀ scp ∈ stp.rawscores, scp.Linked st) :
    ∃ g st', normalizeScore norms stp scp st = some (g, st') ∧ Reaches st st' ∧
      (scp.Counts → Normalizes st st' scp g) := by
  obtain ⟨g, i, k, st', hrecords, hrun, hnormalizes⟩ := hscp.normalizes
  obtain ⟨k', e, hrecords', hlookup⟩ := hscp
  obtain ⟨rfl, rfl⟩ := Prod.mk.inj (Option.some.inj (hrecords.symm.trans hrecords'))
  have ha := (lookup_eq_some.mp hlookup).1
  cases hflag : scp.flag with
  | valid =>
    refine ⟨g, st', ?_, hnormalizes.reaches, fun _ => hnormalizes⟩
    simp only [normalizeScore, hflag, hrecords, Option.bind_eq_bind, Option.bind_some, hrun]
  | invalid =>
    cases hsubst : scp.subst with
    | useRaw =>
      refine ⟨g, st', ?_, hnormalizes.reaches, fun _ => hnormalizes⟩
      simp only [normalizeScore, hflag, hsubst, hrecords, Option.bind_eq_bind, Option.bind_some,
        hrun]
    | useNorm =>
      -- a substitute is not normalized
      have hnot : ¬ scp.Counts := by simp [Score.Counts, hflag, hsubst]
      refine ⟨if e.1.npolicy = .quantile then norms.qnorm else norms.lnorm, st, ?_, .refl,
        fun hcounts => absurd hcounts hnot⟩
      simp only [normalizeScore, hflag, hsubst, ha, Option.bind_eq_bind, Option.bind_some]
    | useLikeAvg =>
      have hnot : ¬ scp.Counts := by simp [Score.Counts, hflag, hsubst]
      obtain ⟨st'', hrun', hreaches⟩ := studentavg_eq linked .refl e.1.atype
      refine ⟨likeAverage (likeScores st e.1.atype stp.rawscores), st'', ?_, hreaches,
        fun hcounts => absurd hcounts hnot⟩
      simp only [normalizeScore, hflag, hsubst, hrecords, ha, Option.bind_eq_bind,
        Option.bind_some, hrun']
    | useClassAvg =>
      have hnot : ¬ scp.Counts := by simp [Score.Counts, hflag, hsubst]
      refine ⟨if e.1.npolicy = .quantile then 50 else e.1.mean, st, ?_, .refl,
        fun hcounts => absurd hcounts hnot⟩
      simp only [normalizeScore, hflag, hsubst, ha, Option.bind_eq_bind, Option.bind_some]

/-- The normalized scores of a student stand at the places of the scores. -/
theorem normalizeScores_eq (scores : List (Score × Norms)) (hscores : ∀ e ∈ scores, e.1.Linked st)
    (linked : ∀ scp ∈ stp.rawscores, scp.Linked st) :
    ∃ nscores st', normalizeScores stp scores st = some (nscores, st') ∧ Reaches st st' ∧
      ∀ (j : ℕ) (e : Score × Norms), scores[j]? = some e →
        ∃ nscp, nscores[j]? = some nscp ∧ nscp.asgt = e.1.asgt ∧
          (e.1.Counts → Normalizes st st' e.1 nscp.grade) := by
  induction scores generalizing st with
  | nil => exact ⟨[], st, rfl, .refl, nofun⟩
  | cons e scores ih =>
    obtain ⟨hscp, hrest⟩ := List.forall_mem_cons.mp hscores
    obtain ⟨g, st₁, hrun, hreaches, hcounts⟩ := normalizeScore_eq e.2 hscp linked
    -- the scores stay linked while the records are settled
    obtain ⟨nscores, st', hrun', hreaches', hplaces⟩ :=
      ih (fun e he => (hrest e he).of_reaches hreaches)
        fun scp h => (linked scp h).of_reaches hreaches
    refine ⟨⟨e.1.asgt, g, e.1.flag, e.1.subst, none, none⟩ :: nscores, st', ?_,
      hreaches.trans hreaches', fun j e' he' => ?_⟩
    · obtain ⟨rscp, norms⟩ := e
      simp only [normalizeScores, hrun, hrun', Option.bind_eq_bind, Option.bind_some,
        Option.pure_def]
    · cases j with
      | zero =>
        obtain rfl := Option.some.inj he'
        exact ⟨_, rfl, rfl, fun h => (hcounts h).mono .refl hreaches'⟩
      | succ j =>
        obtain ⟨nscp, hnscp, hasgt, hnormalizes⟩ := hplaces j e' he'
        exact ⟨nscp, hnscp, hasgt, fun h => (hnormalizes h).mono hreaches .refl⟩

/-! ### All students -/

variable {c : Rosters}

/-- The normalized scores of all students. -/
theorem normalizeStudents_eq (norms : ℕ → ℕ → Norms) (students : List ℕ)
    (linked : ∀ p ∈ students, ∀ scp ∈ (c.student p).rawscores, scp.Linked st)
    (nodup : students.Nodup) (normscores : ℕ → List Score) :
    ∃ normscores' st', normalizeStudents norms c students (normscores, st) =
        some (normscores', st') ∧ Reaches st st' ∧
      (∀ p ∉ students, normscores' p = normscores p) ∧
      ∀ p ∈ students, ∀ (j : ℕ) (scp : Score), (c.student p).rawscores[j]? = some scp →
        ∃ nscp, (normscores' p)[j]? = some nscp ∧ nscp.asgt = scp.asgt ∧
          (scp.Counts → Normalizes st st' scp nscp.grade) := by
  induction students generalizing st normscores with
  | nil => exact ⟨normscores, st, rfl, .refl, fun _ _ => rfl, nofun⟩
  | cons stp students ih =>
    obtain ⟨hstp, hrest⟩ := List.forall_mem_cons.mp linked
    obtain ⟨hnot, hnodup⟩ := List.nodup_cons.mp nodup
    -- the scores of the student, with the norms at their places
    generalize hscores : ((c.student stp).rawscores.zipIdx.map fun e => (e.1, norms stp e.2)) =
      scores
    have hplace : ∀ (j : ℕ) (scp : Score), (c.student stp).rawscores[j]? = some scp →
        scores[j]? = some (scp, norms stp j) := fun j scp hj => by
      rw [← hscores, List.getElem?_map, List.getElem?_zipIdx, hj, Nat.zero_add]
      rfl
    have hmem : ∀ e ∈ scores, e.1.Linked st := by
      rw [← hscores]
      intro e he
      obtain ⟨⟨scp, j⟩, hj, rfl⟩ := List.mem_map.mp he
      exact hstp scp (List.fst_mem_of_mem_zipIdx hj)
    obtain ⟨nscores, st₁, hrun, hreaches, hplaces⟩ := normalizeScores_eq scores hmem hstp
    obtain ⟨normscores', st', hrun', hreaches', hother, hstudents⟩ :=
      ih (fun p hp scp h => (hrest p hp scp h).of_reaches hreaches) hnodup
        (Function.update normscores stp nscores)
    refine ⟨normscores', st', ?_, hreaches.trans hreaches', fun p hp => ?_, fun p hp j scp hj => ?_⟩
    · simp only [normalizeStudents, hscores, hrun, Option.bind_eq_bind, Option.bind_some]
      exact hrun'
    · rw [List.mem_cons, not_or] at hp
      rw [hother p hp.2, Function.update_of_ne hp.1]
    · obtain rfl | hp := List.mem_cons.mp hp
      · obtain ⟨nscp, hnscp, hasgt, hnormalizes⟩ := hplaces j _ (hplace j scp hj)
        refine ⟨nscp, ?_, hasgt, fun h => (hnormalizes h).mono .refl hreaches'⟩
        -- no later student is this one
        rw [hother p hnot, Function.update_self]
        exact hnscp
      · obtain ⟨nscp, hnscp, hasgt, hnormalizes⟩ := hstudents p hp j scp hj
        exact ⟨nscp, hnscp, hasgt, fun h => (hnormalizes h).mono hreaches .refl⟩

/-- `normalize` for a course roster whose scores are linked. Every score that counts is normalized
on the way. -/
theorem normalize_eq (norms : ℕ → ℕ → Norms) {students : List ℕ}
    (roster : Links c.cnext c.roster students)
    (linked : ∀ p ∈ students, ∀ scp ∈ (c.student p).rawscores, scp.Linked st) :
    ∃ normscores st', (∀ fuel, students.length + 1 ≤ fuel →
        normalize norms fuel c st = some (normscores, st')) ∧ Reaches st st' ∧
      ∀ p ∈ students, ∀ (j : ℕ) (scp : Score), (c.student p).rawscores[j]? = some scp →
        ∃ nscp, (normscores p)[j]? = some nscp ∧ nscp.asgt = scp.asgt ∧
          (scp.Counts → Normalizes st st' scp nscp.grade) := by
  obtain ⟨normscores, st', hrun, hreaches, -, hplaces⟩ :=
    normalizeStudents_eq norms students linked roster.nodup fun _ => []
  refine ⟨normscores, st', fun fuel hfuel => ?_, hreaches, hplaces⟩
  have hwalk : follow (getcnext c) fuel c.roster = some students := roster.follow_eq hfuel
  rw [normalize, hwalk]
  exact hrun

end CLanguage.Grades
