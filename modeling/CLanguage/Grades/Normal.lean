import CLanguage.Grades.Quantiles

/-!
# Normalization

`statistics` with all its members, and the normalization of the scores with them. `normal`
changes what it normalizes with: a standard deviation or a declared maximum that is too
small is replaced. So the assignments and the statistics are passed along through
`normalize`. Scores are exact numbers, the square root is a parameter, and the warnings are
left out.
-/

namespace CLanguage.Grades

open CLanguage.Lib

/-! ### Assignments -/

/-- `Npolicy` -/
inductive Npolicy
  | raw
  | linear
  | quantile
  | scale
  deriving DecidableEq, Repr

/-- `Ngroup` -/
inductive Ngroup
  | byClass
  | bySection
  deriving DecidableEq, Repr

/-- `Wpolicy` -/
inductive Wpolicy
  | noWeight
  | weight
  deriving DecidableEq, Repr

/-- `Assignment` -/
structure Assignment where
  atype : Str
  wpolicy : Wpolicy
  weight : ℚ
  npolicy : Npolicy
  max : ℚ
  mean : ℚ
  stddev : ℚ
  scale : ℚ
  ngroup : Ngroup
  deriving DecidableEq, Repr

/-- `EPSILON` -/
def epsilon : ℚ := 1 / 1000000

/-! ### Moments -/

/-- `Sectionstats` with all its members. -/
structure Sectionrecord extends Sectionquantiles where
  mean : ℚ
  stddev : ℚ
  deriving DecidableEq, Repr

/-- `Classstats` with all its members. -/
structure Classrecord extends Sectionrecord where
  sstats : List Sectionrecord
  deriving DecidableEq, Repr

section Moments

variable (sqrt : ℚ → ℚ)

/-- `stddev` -/
def stddev (n : ℕ) (sum sumsq : ℚ) : ℚ :=
  if 2 ≤ n then sqrt ((sumsq - sum * sum / n) / (n - 1)) else 0

/-- What `do_moments` does to a record. The sums of the record and its table come from different
passes. -/
def Sectionstats.moments (table : Sectionquantiles) (s : Sectionstats) : Sectionrecord :=
  { s with
    quantiles := table.quantiles
    mean := if s.valid ≠ 0 then s.sum / s.valid else 0
    stddev := if s.valid ≠ 0 then
        if s.valid = 1 then 0 else stddev sqrt s.valid s.sum s.sumsq
      else 0 }

/-- `do_moments` -/
def doMoments (tables : List Classquantiles) (stats : List Classstats) : List Classrecord :=
  List.zipWith (fun table csp =>
    { csp.toSectionstats.moments sqrt table.toSectionquantiles with
      sstats := List.zipWith (Sectionstats.moments sqrt) table.sstats csp.sstats }) tables stats

/-- `statistics`, with the links that it sets. -/
def completeStatistics (fuel assignments : ℕ) (c : Rosters) :
    Option (Rosters × List Classrecord) := do
  let stats := buildstats assignments c.sections.length
  let c ← doLinks fuel assignments c
  let stats ← doFreqs fuel c stats
  let tables := doQuantiles stats
  let stats ← doSums fuel c stats
  return (c, doMoments sqrt tables stats)

end Moments

/-! ### One score -/

/-- What scores are normalized with: the assignments of the course and their statistics. -/
structure Grading where
  assignments : List Assignment
  cstats : List Classrecord
  deriving DecidableEq, Repr

/-- `linear` -/
def linear (s rm rd nm nd : ℚ) : ℚ := nd * (s - rm) / rd + nm

/-- `scale` -/
def scale (s max scale : ℚ) : ℚ := s * scale / max

/-- A divisor that is not too small. -/
def raise (d : ℚ) : ℚ := if d < epsilon then 2 * epsilon else d

/-- The loop of `normal` over a table. It may come to the end of the table. -/
def searchQuantile (s : ℚ) (n : ℕ) : List Quantile → Option ℚ
  | [] => none
  | fp :: freqs =>
    if s < fp.score then some (fp.numless * 100 / n)
    else if s = fp.score then some (fp.numless * 100 / n)
    else searchQuantile s n freqs

/-- The record of a group. -/
def Classrecord.group (csp : Classrecord) (ssp : Sectionrecord) : Ngroup → Sectionrecord
  | .byClass => csp.toSectionrecord
  | .bySection => ssp

/-- `normal`, with the record of assignment `i` and, in it, that of section `k`. The switch falls
out of its last case to the return of the raw score. -/
def normal (s : ℚ) (i k : ℕ) (st : Grading) : Option (ℚ × Grading) := do
  let a ← st.assignments[i]?
  let csp ← st.cstats[i]?
  let ssp ← csp.sstats[k]?
  match a.npolicy with
  | .raw => some (s, st)
  | .linear =>
    match a.ngroup with
    | .byClass =>
      let csp := { csp with stddev := raise csp.stddev }
      some (linear s csp.mean csp.stddev a.mean a.stddev,
        { st with cstats := st.cstats.set i csp })
    | .bySection =>
      let ssp := { ssp with stddev := raise ssp.stddev }
      some (linear s ssp.mean ssp.stddev a.mean a.stddev,
        { st with cstats := st.cstats.set i { csp with sstats := csp.sstats.set k ssp } })
  | .scale =>
    let a := { a with max := raise a.max }
    some (scale s a.max a.scale, { st with assignments := st.assignments.set i a })
  | .quantile =>
    let r := csp.group ssp a.ngroup
    let n := if r.tallied = 0 then 1 else r.tallied
    some ((searchQuantile s n r.quantiles).getD s, st)

/-- The places of the records that a score points to. A score without pointers is an invalid
access. -/
def Score.records (scp : Score) : Option (ℕ × ℕ) := do
  let i ← scp.cstats
  let (_, k) ← scp.sstats
  return (i, k)

/-! ### The average of like scores -/

/-- The variables of `studentavg`. -/
structure Average where
  n : ℕ
  wp : Bool
  sum : ℚ
  w : ℚ
  deriving DecidableEq, Repr

/-- What `studentavg` adds for a normalized score of assignment `a`. -/
def Average.add (a : Assignment) (f : ℚ) (v : Average) : Average :=
  if a.wpolicy = .weight then ⟨v.n + 1, true, v.sum + f * a.weight, v.w + a.weight⟩
  else { v with n := v.n + 1, sum := v.sum + f }

/-- The loop of `studentavg`, with the type `t`. -/
def averageScores (t : Str) : List Score → Average × Grading → Option (Average × Grading)
  | [], r => some r
  | scp :: scores, (v, st) => do
    let a ← st.assignments[scp.asgt]?
    if a.atype = t ∧ scp.Counts then
      let (i, k) ← scp.records
      let (f, st) ← normal scp.grade i k st
      averageScores t scores (v.add a f, st)
    else averageScores t scores (v, st)

/-- What `studentavg` returns. -/
def Average.result (v : Average) : ℚ :=
  if v.n = 0 ∨ v.w = 0 then 0
  else if v.wp then v.sum / v.w
  else v.sum / v.n

/-- `studentavg` -/
def studentavg (s : Student) (t : Str) (st : Grading) : Option (ℚ × Grading) := do
  let (v, st) ← averageScores t s.rawscores (⟨0, false, 0, 0⟩, st)
  return (v.result, st)

/-! ### All scores -/

/-- The members `qnorm` and `lnorm` of a score. -/
structure Norms where
  qnorm : ℚ
  lnorm : ℚ
  deriving DecidableEq, Repr

/-- The normalized version of a score of student `stp`. -/
def normalizeScore (norms : Norms) (stp : Student) (rscp : Score) (st : Grading) :
    Option (ℚ × Grading) := do
  match rscp.flag with
  | .valid =>
    let (i, k) ← rscp.records
    normal rscp.grade i k st
  | .invalid =>
    match rscp.subst with
    | .useRaw =>
      let (i, k) ← rscp.records
      normal rscp.grade i k st
    | .useNorm =>
      let a ← st.assignments[rscp.asgt]?
      some (if a.npolicy = .quantile then norms.qnorm else norms.lnorm, st)
    | .useLikeAvg =>
      let (i, _) ← rscp.records
      let a ← st.assignments[i]?
      studentavg stp a.atype st
    | .useClassAvg =>
      let a ← st.assignments[rscp.asgt]?
      some (if a.npolicy = .quantile then 50 else a.mean, st)

/-- The loop of `normalize` over the scores of a student. The members that `normalize` does not set
are without pointers here. -/
def normalizeScores (stp : Student) :
    List (Score × Norms) → Grading → Option (List Score × Grading)
  | [], st => some ([], st)
  | (rscp, norms) :: scores, st => do
    let (grade, st) ← normalizeScore norms stp rscp st
    let (nscores, st) ← normalizeScores stp scores st
    return (⟨rscp.asgt, grade, rscp.flag, rscp.subst, none, none⟩ :: nscores, st)

/-- The loop of `normalize` over students, with the member `normscores` of each. -/
def normalizeStudents (norms : ℕ → ℕ → Norms) (c : Rosters) :
    List ℕ → (ℕ → List Score) × Grading → Option ((ℕ → List Score) × Grading)
  | [], r => some r
  | stp :: students, (normscores, st) => do
    let scores := (c.student stp).rawscores.zipIdx.map fun e => (e.1, norms stp e.2)
    let (nscores, st) ← normalizeScores (c.student stp) scores st
    normalizeStudents norms c students (Function.update normscores stp nscores, st)

/-- `normalize`, where the members `qnorm` and `lnorm` of the scores of a student are given by their
places. -/
def normalize (norms : ℕ → ℕ → Norms) (fuel : ℕ) (c : Rosters) (st : Grading) :
    Option ((ℕ → List Score) × Grading) := do
  let students ← follow (getcnext c) fuel c.roster
  normalizeStudents norms c students (fun _ => [], st)

/-- What `composites` adds for the normalized scores of a student for assignment `i`. -/
def compositeOf (assignments : List Assignment) (nscores : List Score) : ℚ :=
  (assignments.zipIdx.map fun a =>
    ((nscores.filter fun scp => scp.asgt = a.2).map fun scp =>
      scp.grade * if a.1.wpolicy = .weight then a.1.weight else 1).sum).sum

/-- `composites` -/
def composites (fuel : ℕ) (normscores : ℕ → List Score) (assignments : List Assignment)
    (c : Rosters) : Option Rosters := do
  let students ← follow (getcnext c) fuel c.roster
  return students.foldl (fun c stp =>
    let student := { c.student stp with composite := compositeOf assignments (normscores stp) }
    { c with student := Function.update c.student stp student }) c

end CLanguage.Grades
