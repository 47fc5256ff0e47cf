import CLanguage.Lib.FrequencyTable
import CLanguage.Grades.Sums

/-!
# Quantiles

`do_quantiles` walks along the tables that `do_freqs` has built and adds up their counts.
The tables are frequency tables of the scores of their group (`Sectionstats.Tabulated`),
whatever the order in which `do_freqs` meets the scores, so that the sums up to a bucket
are the numbers of scores that are less, or less or equal.
-/

namespace CLanguage.Grades

open CLanguage.Lib

variable {c : Rosters} {ls : List (List ℕ)} {i k n sum : ℕ} {g : ℚ} {gs : List ℚ}
  {fp : Freqs} {freqs : List Freqs} {s : Sectionstats} {csp : Classstats}

/-! ### `do_quantiles` -/

/-- `Freqs` with the members `numless` and `numlesseq`. -/
structure Quantile extends Freqs where
  numless : ℕ
  numlesseq : ℕ
  deriving DecidableEq, Repr

/-- `Sectionstats` with the members of its table that `do_quantiles` fills in. -/
structure Sectionquantiles extends Sectionstats where
  quantiles : List Quantile
  deriving DecidableEq, Repr

/-- `Classstats` with the members of its tables that `do_quantiles` fills in. -/
structure Classquantiles extends Sectionquantiles where
  sstats : List Sectionquantiles
  deriving DecidableEq, Repr

/-- The loop of `do_quantiles` over a table. -/
def fillQuantiles : ℕ → List Freqs → List Quantile
  | _, [] => []
  | sum, fp :: freqs =>
    { fp with numless := sum, numlesseq := sum + fp.count } :: fillQuantiles (sum + fp.count) freqs

/-- What `do_quantiles` does to a record. -/
def Sectionstats.fill (s : Sectionstats) : Sectionquantiles :=
  { s with quantiles := fillQuantiles 0 s.freqs }

/-- `do_quantiles` -/
def doQuantiles (stats : List Classstats) : List Classquantiles :=
  stats.map fun csp => { csp.toSectionstats.fill with sstats := csp.sstats.map Sectionstats.fill }

theorem map_fillQuantiles (sum : ℕ) (freqs : List Freqs) :
    (fillQuantiles sum freqs).map Quantile.toFreqs = freqs := by
  induction freqs generalizing sum with
  | nil => rfl
  | cons fp freqs ih => rw [fillQuantiles, List.map_cons, ih]

/-- A bucket of a table knows the sum of the counts before it. -/
theorem mem_fillQuantiles {q : Quantile} (h : q ∈ fillQuantiles sum freqs) :
    ∃ l r, freqs = l ++ q.toFreqs :: r ∧ q.numless = sum + (l.map Freqs.count).sum ∧
      q.numlesseq = q.numless + q.count := by
  induction freqs generalizing sum with
  | nil => exact absurd h List.not_mem_nil
  | cons fp freqs ih =>
    obtain rfl | h := List.mem_cons.mp h
    · exact ⟨[], freqs, rfl, rfl, rfl⟩
    · obtain ⟨l, r, rfl, hless, hlesseq⟩ := ih h
      refine ⟨fp :: l, r, rfl, ?_, hlesseq⟩
      rw [hless, List.map_cons, List.sum_cons, Nat.add_assoc]

/-! ### Tables -/

/-- A bucket of a table, as one of a frequency table. -/
def Freqs.bucket (fp : Freqs) : ℚ × ℕ := (fp.score, fp.count)

/-- `count_score` counts a value in a frequency table. -/
theorem map_countScore (g : ℚ) (freqs : List Freqs) :
    (countScore g freqs).map Freqs.bucket = countValue g (freqs.map Freqs.bucket) := by
  induction freqs with
  | nil => rfl
  | cons fp freqs ih =>
    rw [countScore, List.map_cons, countValue]
    by_cases heq : fp.score = g
    · rw [if_pos heq, if_pos (show fp.bucket.1 = g from heq)]
      rfl
    · rw [if_neg heq, if_neg (show ¬ fp.bucket.1 = g from heq)]
      by_cases hlt : g < fp.score
      · rw [if_pos hlt, if_pos (show g < fp.bucket.1 from hlt)]
        rfl
      · rw [if_neg hlt, if_neg (show ¬ g < fp.bucket.1 from hlt), List.map_cons, ih]

/-- The table of a record is that of the scores `gs`. -/
structure Sectionstats.Tabulated (s : Sectionstats) (gs : List ℚ) : Prop where
  table : IsTable (s.freqs.map Freqs.bucket) gs
  tallied : s.tallied = gs.length

theorem Sectionstats.Tabulated.empty : Sectionstats.empty.Tabulated [] := ⟨.nil, rfl⟩

theorem Sectionstats.Tabulated.tally (h : s.Tabulated gs) (g : ℚ) :
    (s.tally g).Tabulated (gs ++ [g]) := by
  constructor
  · rw [Sectionstats.tally, map_countScore]
    exact h.table.countValue g
  · rw [Sectionstats.tally, h.tallied, List.length_append, List.length_singleton]

/-- The record of some scores, in any order. -/
theorem Sectionstats.Tabulated.foldl (gs : List ℚ) :
    (gs.foldl (fun s g => s.tally g) Sectionstats.empty).Tabulated gs := by
  induction gs using List.reverseRecOn with
  | nil => exact .empty
  | append_singleton gs g ih =>
    rw [List.foldl_append]
    exact ih.tally g

/-- The record of assignment `i` after `do_freqs`. -/
theorem record_tabulated (student : ℕ → Student) (ls : List (List ℕ)) (hi : i < n) :
    ∃ csp, (foldEvents tallyScore (events student 0 ls) (buildstats n ls.length))[i]? = some csp ∧
      csp.toSectionstats.Tabulated (scoresOf student ls.flatten i) ∧
      ∀ (k : ℕ) (students : List ℕ), ls[k]? = some students →
        ∃ ssp, csp.sstats[k]? = some ssp ∧ ssp.Tabulated (scoresOf student students i) := by
  have hbuilt : (buildstats n ls.length)[i]? =
      some { Sectionstats.empty with sstats := List.replicate ls.length .empty } := by
    rw [buildstats, List.getElem?_replicate, if_pos hi]
  have hinside : ∀ e ∈ ofAssignment i (events student 0 ls),
      e.1 < (List.replicate ls.length Sectionstats.empty).length := fun e he => by
    rw [List.length_replicate, ← Nat.zero_add ls.length]
    exact lt_of_mem_events student ls i 0 e he
  rw [getElem?_foldEvents, hbuilt, Option.map_some]
  generalize hcsp : List.foldl _ _ _ = csp
  obtain ⟨hclass, -, hsection⟩ := foldl_body separate_tallyScore _ _ hinside hcsp
  refine ⟨csp, rfl, ?_, fun k students hk => ?_⟩
  · rw [hclass, map_snd_events]
    exact .foldl _
  · have hof := ofSection_events student i 0 hk
    rw [Nat.zero_add] at hof
    rw [hsection k, List.getElem?_replicate, if_pos (List.getElem?_eq_some_iff.mp hk).1,
      Option.map_some, hof]
    exact ⟨_, rfl, .foldl _⟩

/-! ### Quantiles -/

/-- The quantiles of a record are those of the scores `gs`. -/
structure Sectionquantiles.Ranks (s : Sectionquantiles) (gs : List ℚ) : Prop where
  increasing : (s.quantiles.map (·.score)).Pairwise (· < ·)
  bucket : ∀ g, g ∈ gs ↔ ∃ q ∈ s.quantiles, q.score = g
  count : ∀ q ∈ s.quantiles, q.count = gs.count q.score
  sum : (s.quantiles.map (·.count)).sum = s.tallied
  tallied : s.tallied = gs.length
  numless : ∀ q ∈ s.quantiles, q.numless = gs.countP (· < q.score)
  numlesseq : ∀ q ∈ s.quantiles, q.numlesseq = gs.countP (· ≤ q.score)

theorem Sectionstats.Tabulated.ranks (h : s.Tabulated gs) : s.fill.Ranks gs := by
  have hmap : s.fill.quantiles.map (fun q => q.toFreqs) = s.freqs := map_fillQuantiles 0 s.freqs
  have hmem : ∀ q ∈ s.fill.quantiles, q.toFreqs ∈ s.freqs := fun q hq => by
    rw [← hmap]
    exact List.mem_map_of_mem hq
  -- a bucket between the others
  have hsplit : ∀ q ∈ s.fill.quantiles, ∃ l r : List Freqs,
      IsTable (l.map Freqs.bucket ++ q.toFreqs.bucket :: r.map Freqs.bucket) gs ∧
        q.numless = ((l.map Freqs.bucket).map Prod.snd).sum ∧
        q.numlesseq = q.numless + q.count := by
    intro q hq
    obtain ⟨l, r, hfreqs, hless, hlesseq⟩ := mem_fillQuantiles hq
    refine ⟨l, r, ?_, ?_, hlesseq⟩
    · have htable := h.table
      rwa [hfreqs, List.map_append, List.map_cons] at htable
    · rw [hless, Nat.zero_add, List.map_map]
      rfl
  refine ⟨?_, fun g => ⟨fun hg => ?_, ?_⟩, fun q hq => ?_, ?_, h.tallied, fun q hq => ?_,
    fun q hq => ?_⟩
  · have hincreasing := h.table.increasing
    rw [Increasing, ← hmap, List.map_map, List.pairwise_map] at hincreasing
    exact List.pairwise_map.mpr hincreasing
  · obtain ⟨b, hb, rfl⟩ := h.table.exists_of_mem hg
    obtain ⟨fp, hfp, rfl⟩ := List.mem_map.mp hb
    rw [← hmap] at hfp
    obtain ⟨q, hq, rfl⟩ := List.mem_map.mp hfp
    exact ⟨q, hq, rfl⟩
  · rintro ⟨q, hq, rfl⟩
    exact h.table.mem_of_mem (List.mem_map_of_mem (hmem q hq))
  · obtain ⟨l, r, htable, -⟩ := hsplit q hq
    exact htable.count
  · have htotal := h.table.total
    rw [← hmap, List.map_map, List.map_map] at htotal
    rw [show s.fill.tallied = s.tallied from rfl, h.tallied, ← htotal]
    rfl
  · obtain ⟨l, r, htable, hless, -⟩ := hsplit q hq
    rw [hless, htable.sum_before]
    rfl
  · obtain ⟨l, r, htable, hless, hlesseq⟩ := hsplit q hq
    rw [hlesseq, hless]
    exact htable.sum_upto

/-- The tables of a course after `do_freqs` and `do_quantiles`: those of every assignment, for the
class and for each section. -/
theorem doQuantiles_ranks (rosters : List.Forall₂ (Links c.next) c.sections ls)
    (disjoint : ls.flatten.Nodup)
    (declared : ∀ p ∈ ls.flatten, ∀ scp ∈ (c.student p).rawscores, scp.asgt < n) :
    ∃ stats, (∀ fuel, ls.flatten.length + 1 ≤ fuel → ∃ c', doLinks fuel n c = some c' ∧
        doFreqs fuel c' (buildstats n c.sections.length) = some stats) ∧
      ∀ i < n, ∃ csp, (doQuantiles stats)[i]? = some csp ∧
        csp.Ranks (scoresOf c.student ls.flatten i) ∧
        ∀ (k : ℕ) (students : List ℕ), ls[k]? = some students →
          ∃ ssp, csp.sstats[k]? = some ssp ∧ ssp.Ranks (scoresOf c.student students i) := by
  obtain ⟨c', hrun, hloop, -⟩ := doLinks_forScores rosters disjoint declared
  refine ⟨foldEvents tallyScore (events c.student 0 ls) (buildstats n c.sections.length),
    fun fuel hfuel => ⟨c', hrun fuel hfuel, hloop fuel hfuel tallyScore _⟩, fun i hi => ?_⟩
  obtain ⟨csp, hcsp, hclass, hsection⟩ := record_tabulated c.student ls hi
  rw [rosters.length_eq, doQuantiles, List.getElem?_map, hcsp]
  refine ⟨_, rfl, hclass.ranks, fun k students hk => ?_⟩
  obtain ⟨ssp, hssp, htabulated⟩ := hsection k students hk
  refine ⟨ssp.fill, ?_, htabulated.ranks⟩
  rw [List.getElem?_map, hssp]
  rfl

theorem doQuantiles_ranks_example :
    ∃ c' stats, doLinks 3 1 twoScores = some c' ∧
      doFreqs 3 c' (buildstats 1 twoScores.sections.length) = some stats ∧
      ∃ csp, (doQuantiles stats)[0]? = some csp ∧
        csp.Ranks (scoresOf twoScores.student [1, 2] 0) := by
  obtain ⟨stats, hrun, hranks⟩ := doQuantiles_ranks twoScores_rosters (by decide) twoScores_declared
  obtain ⟨c', hlinks, hfreqs⟩ := hrun 3 (Nat.le_refl 3)
  obtain ⟨csp, hcsp, hclass, -⟩ := hranks 0 Nat.zero_lt_one
  exact ⟨c', stats, hlinks, hfreqs, csp, hcsp, hclass⟩

end CLanguage.Grades
