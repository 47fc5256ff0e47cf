import CLanguage.Lib.Links
import CLanguage.Grades.Students

/-!
# Statistics of the assignments

`buildstats` makes a record of statistics for each assignment, with one for each section in
it. `do_links` gives every score pointers to the two records that it counts for, and
`do_freqs` and `do_sums` follow these pointers. The loops over a roster follow its links;
they end because the rosters do, within `fuel` steps.

The members for the mean, the standard deviation and the quantiles are filled in later and
are left out.
-/

namespace CLanguage.Grades

open CLanguage.Lib

/-! ### Records -/

/-- `Freqs` -/
structure Freqs where
  score : ℚ
  count : ℕ
  deriving DecidableEq, Repr

/-- `Sectionstats`. The least and the greatest score are set with the first one. -/
structure Sectionstats where
  valid : ℕ
  tallied : ℕ
  sum : ℚ
  sumsq : ℚ
  min : ℚ
  max : ℚ
  freqs : List Freqs
  deriving DecidableEq, Repr

/-- `Classstats` -/
structure Classstats extends Sectionstats where
  sstats : List Sectionstats
  deriving DecidableEq, Repr

/-- A record before any score. -/
def Sectionstats.empty : Sectionstats := ⟨0, 0, 0, 0, 0, 0, []⟩

/-- `buildstats`, for a number of assignments and of sections. -/
def buildstats (assignments sections : ℕ) : List Classstats :=
  List.replicate assignments
    { Sectionstats.empty with sstats := List.replicate sections .empty }

/-! ### Links -/

/-- The innermost loop of `do_links`, for assignment `i` and section `k`. -/
def linkScores (i k : ℕ) (scores : List Score) : List Score :=
  scores.map fun scp =>
    if scp.asgt = i then { scp with cstats := some i, sstats := some (i, k) } else scp

/-- The body of the loop of `do_links` over students, with the last student of the course roster. -/
def linkStudent (i k : ℕ) (st : Rosters × Option ℕ) (stp : ℕ) : Rosters × Option ℕ :=
  let m := match st.2 with
    | none => { setcnext st.1 stp none with roster := some stp }
    | some rp => setcnext (setcnext st.1 rp (some stp)) stp none
  let student := { m.student stp with rawscores := linkScores i k (m.student stp).rawscores }
  ({ m with student := Function.update m.student stp student }, some stp)

/-- The loop of `do_links` over the sections from place `k` on. -/
def linkSections (fuel i : ℕ) :
    ℕ → Rosters × Option ℕ → List (Option ℕ) → Option (Rosters × Option ℕ)
  | _, st, [] => some st
  | k, st, s :: sections => do
    let students ← follow (getnext st.1) fuel s
    linkSections fuel i (k + 1) (students.foldl (linkStudent i k) st) sections

/-- `do_links`, for a course with a number of assignments. -/
def doLinks (fuel assignments : ℕ) (c : Rosters) : Option Rosters := do
  let st ← (List.range assignments).foldlM
    (fun st i => linkSections fuel i 0 st c.sections) ({ c with roster := none }, none)
  return st.1

/-! ### Counting -/

/-- The scores that are counted: valid ones and those to be used raw. -/
def Score.Counts (scp : Score) : Prop := scp.flag = .valid ∨ scp.subst = .useRaw

instance (scp : Score) : Decidable scp.Counts := inferInstanceAs (Decidable (_ ∨ _))

/-- `count_score` -/
def countScore (grade : ℚ) : List Freqs → List Freqs
  | [] => [⟨grade, 1⟩]
  | fp :: freqs =>
    if fp.score = grade then { fp with count := fp.count + 1 } :: freqs
    else if grade < fp.score then ⟨grade, 1⟩ :: fp :: freqs
    else fp :: countScore grade freqs

/-- What `do_freqs` does to either record of a score. -/
def Sectionstats.tally (grade : ℚ) (s : Sectionstats) : Sectionstats :=
  { s with freqs := countScore grade s.freqs, tallied := s.tallied + 1 }

/-- The body of the loop of `do_freqs` over scores. -/
def tallyScore (k : ℕ) (grade : ℚ) (csp : Classstats) : Classstats :=
  { csp.toSectionstats.tally grade with sstats := csp.sstats.modify k (·.tally grade) }

/-- The range of the scores, with another score. -/
def Sectionstats.spread (g : ℚ) (s : Sectionstats) : Sectionstats :=
  { s with min := if g < s.min then g else s.min, max := if s.max < g then g else s.max }

/-- The range that `do_sums` gives the record of the class for a score. -/
def Sectionstats.classRange (g : ℚ) (csp : Sectionstats) : Sectionstats :=
  if csp.valid = 0 then { csp with min := g, max := g } else csp.spread g

/-- The record of a section gets its range from the first score only: for a later score it is the
record of the class that is looked at, and changed, once more. -/
def sectionRange (g : ℚ) (csp ssp : Sectionstats) : Sectionstats × Sectionstats :=
  if ssp.valid = 0 then (csp, { ssp with min := g, max := g }) else (csp.spread g, ssp)

/-- The number and the sums of the scores, with another score. -/
def Sectionstats.add (g : ℚ) (s : Sectionstats) : Sectionstats :=
  { s with valid := s.valid + 1, sum := s.sum + g, sumsq := s.sumsq + g * g }

/-- The body of the loop of `do_sums` over scores. -/
def sumScore (k : ℕ) (g : ℚ) (csp : Classstats) : Classstats :=
  match csp.sstats[k]? with
  | none => csp
  | some ssp =>
    let (c, s) := sectionRange g (csp.toSectionstats.classRange g) ssp
    { c.add g with sstats := csp.sstats.set k (s.add g) }

/-- What a loop does at a score: if the score counts, the body changes the record of the class that
it points to. A score without pointers is an invalid access. -/
def atScore (body : ℕ → ℚ → Classstats → Classstats) (stats : List Classstats) (scp : Score) :
    Option (List Classstats) :=
  if scp.Counts then
    match scp.cstats, scp.sstats with
    | some i, some (_, k) => some (stats.modify i (body k scp.grade))
    | _, _ => none
  else some stats

/-- A loop over the course roster and the scores of each student. -/
def forScores (body : ℕ → ℚ → Classstats → Classstats) (fuel : ℕ) (c : Rosters)
    (stats : List Classstats) : Option (List Classstats) := do
  let students ← follow (getcnext c) fuel c.roster
  students.foldlM (fun stats stp => (c.student stp).rawscores.foldlM (atScore body) stats) stats

/-- `do_freqs` -/
def doFreqs : ℕ → Rosters → List Classstats → Option (List Classstats) := forScores tallyScore

/-- `do_sums` -/
def doSums : ℕ → Rosters → List Classstats → Option (List Classstats) := forScores sumScore

/-- `statistics`, up to the quantiles and the moments. -/
def statistics (fuel assignments : ℕ) (c : Rosters) : Option (List Classstats) := do
  let stats := buildstats assignments c.sections.length
  let c ← doLinks fuel assignments c
  let stats ← doFreqs fuel c stats
  doSums fuel c stats

end CLanguage.Grades
