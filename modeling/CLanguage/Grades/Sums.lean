import Mathlib
import CLanguage.Grades.ScoreLinks

/-!
# The statistics describe their scores

What `do_freqs` and `do_sums` leave in the records. The loops over students and scores are
folds over the scores that count (`forScores_eq`), and such a fold is, for each record, a
fold over the scores of its own group (`getElem?_foldl_modify`, `foldl_body`).

The records of the class come out right. Those of a section have the right counts and sums,
but their least and greatest score are both the first score of the section.
-/

namespace CLanguage.Grades

open CLanguage.Lib

variable {c c' : Rosters} {ls : List (List ℕ)} {i k n p : ℕ} {g : ℚ} {s : Sectionstats}
  {csp : Classstats} {body : ℕ → ℚ → Classstats → Classstats} {fc fs : ℚ → Sectionstats → Sectionstats}

/-! ### Groups of scores -/

/-- The scores of some students for assignment `i` that count. -/
def scoresOf (student : ℕ → Student) (students : List ℕ) (i : ℕ) : List ℚ :=
  students.flatMap fun p =>
    ((student p).rawscores.filter fun scp => scp.Counts ∧ scp.asgt = i).map Score.grade

/-- A score that counts: its assignment, its section and its value. -/
abbrev Event := ℕ × ℕ × ℚ

/-- The scores of a student in section `k` that count. -/
def scoreEvents (k : ℕ) (stp : Student) : List Event :=
  (stp.rawscores.filter fun scp => scp.Counts).map fun scp => (scp.asgt, k, scp.grade)

/-- The scores that count in the sections from place `k` on, in the order of the course roster. -/
def events (student : ℕ → Student) : ℕ → List (List ℕ) → List Event
  | _, [] => []
  | k, students :: ls =>
    (students.flatMap fun p => scoreEvents k (student p)) ++ events student (k + 1) ls

/-- The scores of an assignment, with their sections. -/
def ofAssignment (i : ℕ) (es : List Event) : List (ℕ × ℚ) :=
  (es.filter fun e => e.1 = i).map Prod.snd

/-- The values in one section. -/
def ofSection (k : ℕ) (es : List (ℕ × ℚ)) : List ℚ :=
  (es.filter fun e => e.1 = k).map Prod.snd

theorem ofAssignment_append (es es' : List Event) :
    ofAssignment i (es ++ es') = ofAssignment i es ++ ofAssignment i es' := by
  simp only [ofAssignment, List.filter_append, List.map_append]

theorem ofSection_append (es es' : List (ℕ × ℚ)) :
    ofSection k (es ++ es') = ofSection k es ++ ofSection k es' := by
  simp only [ofSection, List.filter_append, List.map_append]

theorem scoresOf_cons (student : ℕ → Student) (p : ℕ) (students : List ℕ) (i : ℕ) :
    scoresOf student (p :: students) i =
      ((student p).rawscores.filter fun scp => scp.Counts ∧ scp.asgt = i).map Score.grade ++
        scoresOf student students i :=
  List.flatMap_cons

theorem scoresOf_append (student : ℕ → Student) (students students' : List ℕ) (i : ℕ) :
    scoresOf student (students ++ students') i =
      scoresOf student students i ++ scoresOf student students' i :=
  List.flatMap_append

/-- The scores of a student for an assignment, as events. -/
theorem ofAssignment_scoreEvents (stp : Student) (i k : ℕ) :
    ofAssignment i (scoreEvents k stp) =
      ((stp.rawscores.filter fun scp => scp.Counts ∧ scp.asgt = i).map Score.grade).map
        fun g => (k, g) := by
  rw [ofAssignment, scoreEvents, List.filter_map, List.filter_filter, List.map_map, List.map_map]
  refine congrArg (List.map _) (List.filter_congr fun scp _ => ?_)
  simp only [Function.comp_apply, Bool.decide_and, Bool.and_comm]

theorem ofAssignment_section (student : ℕ → Student) (students : List ℕ) (i k : ℕ) :
    ofAssignment i (students.flatMap fun p => scoreEvents k (student p)) =
      (scoresOf student students i).map fun g => (k, g) := by
  induction students with
  | nil => rfl
  | cons p students ih =>
    rw [List.flatMap_cons, ofAssignment_append, ih, ofAssignment_scoreEvents, scoresOf_cons,
      List.map_append]

/-- The values of an assignment in the whole class. -/
theorem map_snd_events (student : ℕ → Student) (ls : List (List ℕ)) (i k : ℕ) :
    (ofAssignment i (events student k ls)).map Prod.snd = scoresOf student ls.flatten i := by
  induction ls generalizing k with
  | nil => rfl
  | cons students ls ih =>
    rw [events, ofAssignment_append, ofAssignment_section, List.map_append, ih, List.map_map,
      List.flatten_cons, scoresOf_append]
    exact congrArg (· ++ _) (List.map_id _)

theorem ofSection_map (j k : ℕ) (gs : List ℚ) :
    ofSection j (gs.map fun g => (k, g)) = if k = j then gs else [] := by
  rw [ofSection, List.filter_map, List.map_map]
  split
  · next h =>
    have hall : gs.filter ((fun e : ℕ × ℚ => decide (e.1 = j)) ∘ fun g => (k, g)) = gs :=
      List.filter_eq_self.mpr fun g _ => decide_eq_true h
    rw [hall]
    exact List.map_id gs
  · next h =>
    have hnone : gs.filter ((fun e : ℕ × ℚ => decide (e.1 = j)) ∘ fun g => (k, g)) = [] :=
      List.filter_eq_nil_iff.mpr fun g _ => by simpa using h
    rw [hnone]
    rfl

/-- Later sections have other places. -/
theorem ofSection_of_lt (student : ℕ → Student) (ls : List (List ℕ)) {i j k : ℕ} (h : j < k) :
    ofSection j (ofAssignment i (events student k ls)) = [] := by
  induction ls generalizing k with
  | nil => rfl
  | cons students ls ih =>
    rw [events, ofAssignment_append, ofAssignment_section, ofSection_append, ofSection_map,
      if_neg (Nat.ne_of_gt h), ih (Nat.lt_succ_of_lt h)]
    rfl

/-- The values of an assignment in one section. -/
theorem ofSection_events (student : ℕ → Student) {students : List ℕ} {j : ℕ} (i k : ℕ)
    (h : ls[j]? = some students) :
    ofSection (k + j) (ofAssignment i (events student k ls)) = scoresOf student students i := by
  induction ls generalizing j k with
  | nil => exact absurd h nofun
  | cons students' ls ih =>
    rw [events, ofAssignment_append, ofAssignment_section, ofSection_append, ofSection_map]
    cases j with
    | zero =>
      cases h
      rw [if_pos (Nat.add_zero k).symm, Nat.add_zero, ofSection_of_lt student ls (Nat.lt_succ_self k),
        List.append_nil]
    | succ j =>
      rw [if_neg (by omega), List.nil_append, ← ih (k + 1) h]
      congr 1
      omega

/-! ### The loops as folds -/

/-- A loop over the scores, without pointers. -/
def foldEvents (body : ℕ → ℚ → Classstats → Classstats) (es : List Event)
    (stats : List Classstats) : List Classstats :=
  es.foldl (fun stats e => stats.modify e.1 (body e.2.1 e.2.2)) stats

theorem foldEvents_append (es es' : List Event) (stats : List Classstats) :
    foldEvents body (es ++ es') stats = foldEvents body es' (foldEvents body es stats) :=
  List.foldl_append

/-- The scores of a student whose pointers are set. -/
theorem foldlM_scores (scores : List Score) (k : ℕ) (stats : List Classstats)
    (declared : ∀ scp ∈ scores, scp.Counts → scp.asgt < n) :
    (scores.map (Score.link n k)).foldlM (atScore body) stats =
    some (foldEvents body ((scores.filter fun scp => scp.Counts).map fun scp =>
      (scp.asgt, k, scp.grade)) stats) := by
  induction scores generalizing stats with
  | nil => rfl
  | cons scp scores ih =>
    have hrest := fun stats => ih stats fun scp' h => declared scp' (List.mem_cons_of_mem scp h)
    have hcounts : (scp.link n k).Counts ↔ scp.Counts := by
      rw [Score.link]
      split
      · exact Iff.rfl
      · exact Iff.rfl
    rw [List.map_cons, List.foldlM_cons]
    -- a score that does not count is passed over, with or without its pointers
    by_cases h : scp.Counts
    · have hvisit : atScore body stats (scp.link n k) =
          some (stats.modify scp.asgt (body k scp.grade)) := by
        rw [atScore, if_pos (hcounts.mpr h), Score.link, if_pos (declared scp List.mem_cons_self h)]
      rw [hvisit, List.filter_cons, if_pos (decide_eq_true h)]
      exact hrest _
    · have hvisit : atScore body stats (scp.link n k) = some stats :=
        if_neg (mt hcounts.mp h)
      rw [hvisit, List.filter_cons, if_neg (by simpa using h)]
      exact hrest stats

theorem foldlM_students (students : List ℕ) (k : ℕ) (stats : List Classstats)
    (linked : ∀ p ∈ students, c'.student p = (c.student p).link n k)
    (declared : ∀ p ∈ students, ∀ scp ∈ (c.student p).rawscores, scp.Counts → scp.asgt < n) :
    students.foldlM (fun stats stp => (c'.student stp).rawscores.foldlM (atScore body) stats) stats =
      some (foldEvents body (students.flatMap fun p => scoreEvents k (c.student p)) stats) := by
  induction students generalizing stats with
  | nil => rfl
  | cons p students ih =>
    rw [List.foldlM_cons, linked p List.mem_cons_self, List.flatMap_cons, foldEvents_append]
    rw [Student.link, foldlM_scores _ k stats (declared p List.mem_cons_self), Option.bind_eq_bind,
      Option.bind_some]
    exact ih _ (fun q hq => linked q (List.mem_cons_of_mem p hq))
      fun q hq => declared q (List.mem_cons_of_mem p hq)

theorem foldlM_sections (ls : List (List ℕ)) (k : ℕ) (stats : List Classstats)
    (linked : ∀ j students, ls[j]? = some students → ∀ p ∈ students,
      c'.student p = (c.student p).link n (k + j))
    (declared : ∀ p ∈ ls.flatten, ∀ scp ∈ (c.student p).rawscores, scp.Counts → scp.asgt < n) :
    ls.flatten.foldlM (fun stats stp => (c'.student stp).rawscores.foldlM (atScore body) stats)
      stats = some (foldEvents body (events c.student k ls) stats) := by
  induction ls generalizing k stats with
  | nil => rfl
  | cons students ls ih =>
    rw [List.flatten_cons] at declared ⊢
    rw [List.foldlM_append, events, foldEvents_append,
      foldlM_students students k stats (linked 0 students rfl)
        fun p hp => declared p (List.mem_append_left _ hp),
      Option.bind_eq_bind, Option.bind_some]
    refine ih (k + 1) _ (fun j students' hj p hp => ?_)
      fun p hp => declared p (List.mem_append_right _ hp)
    rw [show k + 1 + j = k + (j + 1) by omega]
    exact linked (j + 1) students' hj p hp

/-- A loop over the course roster is a fold over the scores that count. -/
theorem forScores_eq (stats : List Classstats)
    (hroster : Links c'.cnext c'.roster ls.flatten)
    (linked : ∀ k students, ls[k]? = some students → ∀ p ∈ students,
      c'.student p = (c.student p).link n k)
    (declared : ∀ p ∈ ls.flatten, ∀ scp ∈ (c.student p).rawscores, scp.Counts → scp.asgt < n)
    {fuel : ℕ} (hfuel : ls.flatten.length + 1 ≤ fuel) :
    forScores body fuel c' stats = some (foldEvents body (events c.student 0 ls) stats) := by
  have hwalk : follow (getcnext c') fuel c'.roster = some ls.flatten := hroster.follow_eq hfuel
  rw [forScores, hwalk, Option.bind_eq_bind, Option.bind_some]
  refine foldlM_sections ls 0 stats (fun j students hj p hp => ?_) declared
  rw [Nat.zero_add]
  exact linked j students hj p hp

/-- Without scores there are no events. -/
theorem events_eq_nil (student : ℕ → Student) (ls : List (List ℕ)) (k : ℕ)
    (h : ∀ p ∈ ls.flatten, (student p).rawscores = []) : events student k ls = [] := by
  induction ls generalizing k with
  | nil => rfl
  | cons students ls ih =>
    rw [List.flatten_cons] at h
    rw [events, ih (k + 1) fun p hp => h p (List.mem_append_right _ hp), List.append_nil,
      List.flatMap_eq_nil_iff]
    intro p hp
    rw [scoreEvents, h p (List.mem_append_left _ hp)]
    rfl

/-- What `do_links` leaves for the loops over the course roster. A course without assignments has no
course roster, but no scores either. -/
theorem doLinks_forScores (rosters : List.Forall₂ (Links c.next) c.sections ls)
    (disjoint : ls.flatten.Nodup)
    (declared : ∀ p ∈ ls.flatten, ∀ scp ∈ (c.student p).rawscores, scp.asgt < n) :
    ∃ c', (∀ fuel, ls.flatten.length + 1 ≤ fuel → doLinks fuel n c = some c') ∧
      (∀ fuel, ls.flatten.length + 1 ≤ fuel → ∀ body stats,
        forScores body fuel c' stats = some (foldEvents body (events c.student 0 ls) stats)) ∧
      (0 < n → Links c'.cnext c'.roster ls.flatten) ∧ (n = 0 → c'.roster = none) ∧
      ∀ k students, ls[k]? = some students → ∀ p ∈ students,
        c'.student p = (c.student p).link n k := by
  obtain ⟨c', hrun, hroster, hempty, hlinked⟩ := doLinks_spec rosters disjoint n
  refine ⟨c', hrun, fun fuel hfuel body stats => ?_, hroster, hempty, hlinked⟩
  obtain rfl | hn := Nat.eq_zero_or_pos n
  · have hnone : ∀ p ∈ ls.flatten, (c.student p).rawscores = [] := fun p hp =>
      List.eq_nil_iff_forall_not_mem.mpr fun scp hscp =>
        Nat.not_lt_zero _ (declared p hp scp hscp)
    obtain ⟨fuel, rfl⟩ := Nat.exists_eq_add_of_lt (Nat.lt_of_succ_le hfuel)
    rw [events_eq_nil c.student ls 0 hnone, forScores, hempty rfl]
    rfl
  · exact forScores_eq stats (hroster hn) hlinked
      (fun p hp scp hscp _ => declared p hp scp hscp) hfuel

/-! ### One record -/

/-- The scores of an assignment are counted in its record. -/
theorem getElem?_foldEvents (es : List Event) (stats : List Classstats) (i : ℕ) :
    (foldEvents body es stats)[i]? = stats[i]?.map fun csp =>
      (ofAssignment i es).foldl (fun csp e => body e.1 e.2 csp) csp := by
  induction es generalizing stats with
  | nil => exact (Option.map_id' (x := stats[i]?)).symm
  | cons e es ih =>
    have hcons : foldEvents body (e :: es) stats =
        foldEvents body es (stats.modify e.1 (body e.2.1 e.2.2)) := rfl
    rw [hcons, ih, List.getElem?_modify]
    by_cases h : e.1 = i
    · have hof : ofAssignment i (e :: es) = e.2 :: ofAssignment i es := by
        simp only [ofAssignment, List.filter_cons, h, decide_true, if_true, List.map_cons]
      rw [hof]
      simp only [if_pos h, Option.map_eq_map, Option.map_map]
      rfl
    · have hof : ofAssignment i (e :: es) = ofAssignment i es := by
        simp only [ofAssignment, List.filter_cons, h, decide_false, Bool.false_eq_true, if_false]
      rw [hof]
      simp only [if_neg h, Option.map_eq_map, Option.map_id']

/-- The body of a loop changes the record of the class by `fc` and that of the section by `fs`. -/
def Separate (body : ℕ → ℚ → Classstats → Classstats) (fc fs : ℚ → Sectionstats → Sectionstats) :
    Prop :=
  ∀ k g csp, k < csp.sstats.length → (body k g csp).toSectionstats = fc g csp.toSectionstats ∧
    (body k g csp).sstats = csp.sstats.modify k (fs g)

/-- Then a fold over scores is a fold over all of them for the class, and one over those of a
section for each section. -/
theorem foldl_body (separate : Separate body fc fs) (es : List (ℕ × ℚ)) (csp : Classstats)
    (inside : ∀ e ∈ es, e.1 < csp.sstats.length) {r : Classstats}
    (hr : es.foldl (fun csp e => body e.1 e.2 csp) csp = r) :
    r.toSectionstats = (es.map Prod.snd).foldl (fun s g => fc g s) csp.toSectionstats ∧
      r.sstats.length = csp.sstats.length ∧
      ∀ k, r.sstats[k]? = csp.sstats[k]?.map fun s =>
        (ofSection k es).foldl (fun s g => fs g s) s := by
  induction es generalizing csp with
  | nil =>
    subst hr
    exact ⟨rfl, rfl, fun k => (Option.map_id' (x := csp.sstats[k]?)).symm⟩
  | cons e es ih =>
    obtain ⟨hclass, hsection⟩ := separate e.1 e.2 csp (inside e List.mem_cons_self)
    have hlength : (body e.1 e.2 csp).sstats.length = csp.sstats.length := by
      rw [hsection, List.length_modify]
    obtain ⟨hrest, hrestLength, hrest'⟩ := ih (body e.1 e.2 csp)
      (fun e' he' => hlength ▸ inside e' (List.mem_cons_of_mem e he')) hr
    refine ⟨?_, hrestLength.trans hlength, fun k => ?_⟩
    · rw [hrest, hclass]
      rfl
    · -- the section of the event, and the other ones
      rw [hrest' k, hsection, List.getElem?_modify]
      by_cases h : e.1 = k
      · have hof : ofSection k (e :: es) = e.2 :: ofSection k es := by
          simp only [ofSection, List.filter_cons, h, decide_true, if_true, List.map_cons]
        rw [hof]
        simp only [if_pos h, Option.map_eq_map, Option.map_map]
        rfl
      · have hof : ofSection k (e :: es) = ofSection k es := by
          simp only [ofSection, List.filter_cons, h, decide_false, Bool.false_eq_true, if_false]
        rw [hof]
        simp only [if_neg h, Option.map_eq_map, Option.map_id']

theorem separate_tallyScore : Separate tallyScore Sectionstats.tally Sectionstats.tally :=
  fun _ _ _ _ => ⟨rfl, rfl⟩

/-- A score within the range of the class does not change it. -/
theorem spread_classRange (g : ℚ) (s : Sectionstats) :
    (s.classRange g).spread g = s.classRange g := by
  rw [Sectionstats.classRange]
  split
  · simp only [Sectionstats.spread, lt_irrefl, if_false]
  · simp only [Sectionstats.spread]
    congr 1
    · split
      · exact if_neg (lt_irrefl g)
      · rfl
    · split
      · exact if_neg (lt_irrefl g)
      · rfl

/-- What `do_sums` does to the record of the class. -/
def Sectionstats.addClass (g : ℚ) (s : Sectionstats) : Sectionstats := (s.classRange g).add g

/-- What `do_sums` does to the record of the section. -/
def Sectionstats.addSection (g : ℚ) (s : Sectionstats) : Sectionstats :=
  Sectionstats.add g (if s.valid = 0 then { s with min := g, max := g } else s)

theorem sectionRange_eq (g : ℚ) (csp ssp : Sectionstats) :
    sectionRange g (csp.classRange g) ssp =
      (csp.classRange g, if ssp.valid = 0 then { ssp with min := g, max := g } else ssp) := by
  rw [sectionRange]
  split
  · rfl
  · rw [spread_classRange]

theorem separate_sumScore :
    Separate sumScore Sectionstats.addClass Sectionstats.addSection := by
  intro k g csp hk
  have hssp : csp.sstats[k]? = some csp.sstats[k] := List.getElem?_eq_getElem hk
  rw [sumScore, hssp]
  dsimp only
  rw [sectionRange_eq]
  refine ⟨rfl, List.ext_getElem? fun j => ?_⟩
  rw [List.getElem?_modify, List.getElem?_set]
  by_cases h : k = j
  · subst h
    simp only [if_true, if_pos hk, hssp, Option.map_eq_map, Option.map_some]
    rfl
  · simp only [if_neg h, Option.map_eq_map, Option.map_id']

/-! ### Folds over a group -/

/-- What a record says about a group of scores. -/
structure Describes (s : Sectionstats) (gs : List ℚ) : Prop where
  valid : s.valid = gs.length
  tallied : s.tallied = gs.length
  sum : s.sum = gs.sum
  sumsq : s.sumsq = (gs.map fun g => g * g).sum
  min : gs ≠ [] → s.min ∈ gs ∧ ∀ g ∈ gs, s.min ≤ g
  max : gs ≠ [] → s.max ∈ gs ∧ ∀ g ∈ gs, g ≤ s.max

/-- The number of the scores and their sums. -/
structure Counted (s : Sectionstats) (gs : List ℚ) : Prop where
  valid : s.valid = gs.length
  sum : s.sum = gs.sum
  sumsq : s.sumsq = (gs.map fun g => g * g).sum

theorem Counted.add {gs : List ℚ} (h : Counted s gs) (g : ℚ) : Counted (s.add g) (gs ++ [g]) := by
  refine ⟨?_, ?_, ?_⟩
  · rw [List.length_append, Sectionstats.add, h.valid]
    rfl
  · rw [List.sum_append, List.sum_singleton, Sectionstats.add, h.sum]
  · rw [List.map_append, List.sum_append, List.map_singleton, List.sum_singleton,
      Sectionstats.add, h.sumsq]

/-- The first loop counts the scores and changes nothing that the second one uses. -/
theorem foldl_tally (gs : List ℚ) (s : Sectionstats) :
    ∃ freqs, gs.foldl (fun s g => s.tally g) s =
      { s with freqs := freqs, tallied := s.tallied + gs.length } := by
  induction gs generalizing s with
  | nil => exact ⟨s.freqs, rfl⟩
  | cons g gs ih =>
    obtain ⟨freqs, h⟩ := ih (s.tally g)
    refine ⟨freqs, ?_⟩
    rw [List.foldl_cons, h, Sectionstats.tally, List.length_cons, Nat.add_right_comm,
      Nat.add_assoc]

theorem tallied_addClass (g : ℚ) (s : Sectionstats) : (s.addClass g).tallied = s.tallied := by
  simp only [Sectionstats.addClass, Sectionstats.add, Sectionstats.classRange, Sectionstats.spread]
  split
  · rfl
  · rfl

theorem tallied_addSection (g : ℚ) (s : Sectionstats) : (s.addSection g).tallied = s.tallied := by
  simp only [Sectionstats.addSection, Sectionstats.add]
  split
  · rfl
  · rfl

theorem Counted.classRange {gs : List ℚ} (h : Counted s gs) (g : ℚ) :
    Counted (s.classRange g) gs := by
  rw [Sectionstats.classRange]
  split
  · exact ⟨h.valid, h.sum, h.sumsq⟩
  · exact ⟨h.valid, h.sum, h.sumsq⟩

/-- The least score, with another score. -/
theorem least_append {gs : List ℚ} {m : ℚ} (h : m ∈ gs ∧ ∀ a ∈ gs, m ≤ a) (g : ℚ) :
    (if g < m then g else m) ∈ gs ++ [g] ∧ ∀ a ∈ gs ++ [g], (if g < m then g else m) ≤ a := by
  obtain ⟨hmem, hle⟩ := h
  rw [List.forall_mem_append, List.forall_mem_singleton]
  split
  · next hlt =>
    exact ⟨List.mem_append_right _ (List.mem_singleton_self g),
      fun a ha => hlt.le.trans (hle a ha), le_refl g⟩
  · next hlt => exact ⟨List.mem_append_left _ hmem, hle, not_lt.mp hlt⟩

/-- The greatest score, with another score. -/
theorem greatest_append {gs : List ℚ} {m : ℚ} (h : m ∈ gs ∧ ∀ a ∈ gs, a ≤ m) (g : ℚ) :
    (if m < g then g else m) ∈ gs ++ [g] ∧ ∀ a ∈ gs ++ [g], a ≤ if m < g then g else m := by
  obtain ⟨hmem, hle⟩ := h
  rw [List.forall_mem_append, List.forall_mem_singleton]
  split
  · next hlt =>
    exact ⟨List.mem_append_right _ (List.mem_singleton_self g),
      fun a ha => (hle a ha).trans hlt.le, le_refl g⟩
  · next hlt => exact ⟨List.mem_append_left _ hmem, hle, not_lt.mp hlt⟩

/-- The record of the class: its range is that of the scores. -/
theorem foldl_addClass (h : Counted s []) (gs : List ℚ) {r : Sectionstats}
    (hr : gs.foldl (fun s g => s.addClass g) s = r) :
    Counted r gs ∧ r.tallied = s.tallied ∧
      (gs ≠ [] → r.min ∈ gs ∧ ∀ g ∈ gs, r.min ≤ g) ∧
      (gs ≠ [] → r.max ∈ gs ∧ ∀ g ∈ gs, g ≤ r.max) := by
  induction gs using List.reverseRecOn generalizing r with
  | nil =>
    subst hr
    exact ⟨h, rfl, fun h => absurd rfl h, fun h => absurd rfl h⟩
  | append_singleton gs g ih =>
    obtain ⟨hcounted, htallied, hmin, hmax⟩ := ih rfl
    rw [List.foldl_append, List.foldl_cons, List.foldl_nil] at hr
    generalize gs.foldl (fun s g => s.addClass g) s = t at hr hcounted htallied hmin hmax
    subst hr
    have hrange : t.addClass g = (t.classRange g).add g := rfl
    refine ⟨(hcounted.classRange g).add g, (tallied_addClass g t).trans htallied, ?_⟩
    rw [hrange, Sectionstats.classRange]
    by_cases hgs : gs = []
    · -- the first score
      subst hgs
      have hvalid : t.valid = 0 := hcounted.valid
      rw [if_pos hvalid]
      simp [Sectionstats.add]
    · have hvalid : t.valid ≠ 0 := by
        rw [hcounted.valid]
        exact fun h => hgs (List.length_eq_zero_iff.mp h)
      rw [if_neg hvalid]
      exact ⟨fun _ => least_append (hmin hgs) g, fun _ => greatest_append (hmax hgs) g⟩

/-- The record of a section: its range is the first score alone. -/
theorem foldl_addSection (h : Counted s []) (gs : List ℚ) {r : Sectionstats}
    (hr : gs.foldl (fun s g => s.addSection g) s = r) :
    Counted r gs ∧ r.tallied = s.tallied ∧ ∀ g ∈ gs.head?, r.min = g ∧ r.max = g := by
  induction gs using List.reverseRecOn generalizing r with
  | nil =>
    subst hr
    exact ⟨h, rfl, nofun⟩
  | append_singleton gs g ih =>
    obtain ⟨hcounted, htallied, hfirst⟩ := ih rfl
    rw [List.foldl_append, List.foldl_cons, List.foldl_nil] at hr
    generalize gs.foldl (fun s g => s.addSection g) s = t at hr hcounted htallied hfirst
    subst hr
    refine ⟨?_, (tallied_addSection g t).trans htallied, ?_⟩
    · -- the range is set only while no score has been counted
      refine Counted.add ?_ g
      split
      · exact ⟨hcounted.valid, hcounted.sum, hcounted.sumsq⟩
      · exact hcounted
    · cases gs with
      | nil =>
        have hvalid : t.valid = 0 := hcounted.valid
        rintro _ ⟨⟩
        simp [Sectionstats.addSection, Sectionstats.add, hvalid]
      | cons a gs =>
        rintro _ ⟨⟩
        have hvalid : t.valid ≠ 0 := by
          rw [hcounted.valid]
          exact Nat.succ_ne_zero _
        simp only [Sectionstats.addSection, if_neg hvalid]
        exact hfirst a rfl

/-! ### The statistics of a course -/

/-- All scores are equal. -/
def AllEqual (gs : List ℚ) : Prop := ∀ a ∈ gs, ∀ b ∈ gs, a = b

/-- A record whose range is the first score describes scores that are all equal, and no others. -/
theorem describes_iff_allEqual {gs : List ℚ} (h : Counted s gs) (tallied : s.tallied = gs.length)
    (hfirst : ∀ g ∈ gs.head?, s.min = g ∧ s.max = g) : Describes s gs ↔ AllEqual gs := by
  cases gs with
  | nil =>
    refine ⟨fun _ => nofun, fun _ => ⟨h.valid, tallied, h.sum, h.sumsq, ?_, ?_⟩⟩
    · exact fun h => absurd rfl h
    · exact fun h => absurd rfl h
  | cons g gs =>
    obtain ⟨hmin, hmax⟩ := hfirst g rfl
    refine ⟨fun hd a ha b hb => ?_, fun heq => ⟨h.valid, tallied, h.sum, h.sumsq, fun _ => ?_,
      fun _ => ?_⟩⟩
    · obtain ⟨-, hle⟩ := hd.min (List.cons_ne_nil g gs)
      obtain ⟨-, hge⟩ := hd.max (List.cons_ne_nil g gs)
      have hall : ∀ a ∈ g :: gs, a = g := fun a ha =>
        le_antisymm ((hge a ha).trans_eq hmax) (hmin.symm.trans_le (hle a ha))
      rw [hall a ha, hall b hb]
    · rw [hmin]
      exact ⟨List.mem_cons_self, fun a ha => (heq g List.mem_cons_self a ha).le⟩
    · rw [hmax]
      exact ⟨List.mem_cons_self, fun a ha => (heq a ha g List.mem_cons_self).le⟩

/-- The record of assignment `i` after both loops. -/
theorem record_spec (es : List Event) (assignments sections : ℕ) (hi : i < assignments)
    (inside : ∀ e ∈ ofAssignment i es, e.1 < sections) :
    ∃ csp, (foldEvents sumScore es (foldEvents tallyScore es
        (buildstats assignments sections)))[i]? = some csp ∧
      Describes csp.toSectionstats ((ofAssignment i es).map Prod.snd) ∧
      ∀ k < sections, ∃ ssp, csp.sstats[k]? = some ssp ∧
        (Describes ssp (ofSection k (ofAssignment i es)) ↔
          AllEqual (ofSection k (ofAssignment i es))) := by
  have hbuilt : (buildstats assignments sections)[i]? =
      some { Sectionstats.empty with sstats := List.replicate sections .empty } := by
    rw [buildstats, List.getElem?_replicate, if_pos hi]
  rw [getElem?_foldEvents, getElem?_foldEvents, hbuilt, Option.map_some, Option.map_some]
  generalize hgs : ofAssignment i es = gs at inside
  -- the loop over the frequencies, then the one over the sums
  generalize hcsp₁ : gs.foldl (fun csp e => tallyScore e.1 e.2 csp) _ = csp₁
  obtain ⟨hclass, hlength, hsection⟩ := foldl_body separate_tallyScore gs _
    (fun e he => (inside e he).trans_eq List.length_replicate.symm) hcsp₁
  rw [List.length_replicate] at hlength
  generalize hcsp₂ : gs.foldl (fun csp e => sumScore e.1 e.2 csp) csp₁ = csp₂
  obtain ⟨hclass', -, hsection'⟩ := foldl_body separate_sumScore gs csp₁
    (fun e he => (inside e he).trans_eq hlength.symm) hcsp₂
  refine ⟨csp₂, rfl, ?_, fun k hk => ?_⟩
  · -- what the first loop leaves is no score counted yet
    obtain ⟨freqs, htally⟩ := foldl_tally (gs.map Prod.snd) .empty
    rw [htally] at hclass
    have hstart : Counted csp₁.toSectionstats [] := by
      rw [hclass]
      exact ⟨rfl, rfl, rfl⟩
    obtain ⟨hcounted, htallied, hmin, hmax⟩ := foldl_addClass hstart _ hclass'.symm
    refine ⟨hcounted.valid, ?_, hcounted.sum, hcounted.sumsq, hmin, hmax⟩
    rw [htallied, hclass]
    exact Nat.zero_add _
  · obtain ⟨freqs, htally⟩ := foldl_tally (ofSection k gs) .empty
    rw [hsection' k, hsection k, List.getElem?_replicate, if_pos hk, Option.map_some,
      Option.map_some, htally]
    obtain ⟨hcounted, htallied, hfirst⟩ := foldl_addSection
      (s := { Sectionstats.empty with
        freqs := freqs, tallied := Sectionstats.empty.tallied + (ofSection k gs).length })
      ⟨rfl, rfl, rfl⟩ (ofSection k gs) rfl
    exact ⟨_, rfl, describes_iff_allEqual hcounted (htallied.trans (Nat.zero_add _)) hfirst⟩

/-- The events of the sections belong to them. -/
theorem lt_of_mem_events (student : ℕ → Student) (ls : List (List ℕ)) (i k : ℕ) :
    ∀ e ∈ ofAssignment i (events student k ls), e.1 < k + ls.length := by
  induction ls generalizing k with
  | nil => exact fun e he => absurd he List.not_mem_nil
  | cons students ls ih =>
    rw [events, ofAssignment_append, ofAssignment_section]
    intro e he
    rw [List.length_cons]
    obtain he | he := List.mem_append.mp he
    · obtain ⟨g, -, rfl⟩ := List.mem_map.mp he
      omega
    · have := ih (k + 1) e he
      omega

/-- The records of a course, by groups. -/
theorem record_groups (student : ℕ → Student) (ls : List (List ℕ)) (n : ℕ) :
    ∀ i < n, ∃ csp, (foldEvents sumScore (events student 0 ls)
          (foldEvents tallyScore (events student 0 ls) (buildstats n ls.length)))[i]? = some csp ∧
        Describes csp.toSectionstats (scoresOf student ls.flatten i) ∧
        ∀ (k : ℕ) (students : List ℕ), ls[k]? = some students →
          ∃ ssp, csp.sstats[k]? = some ssp ∧
            (Describes ssp (scoresOf student students i) ↔
              AllEqual (scoresOf student students i)) := by
  intro i hi
  obtain ⟨csp, hcsp, hclass, hsection⟩ := record_spec (events student 0 ls) n ls.length hi
    fun e he => by
      have := lt_of_mem_events student ls i 0 e he
      omega
  rw [map_snd_events] at hclass
  refine ⟨csp, hcsp, hclass, fun k students hk => ?_⟩
  obtain ⟨ssp, hssp, hiff⟩ := hsection k (List.getElem?_eq_some_iff.mp hk).1
  have hof := ofSection_events student i 0 hk
  rw [Nat.zero_add] at hof
  rw [hof] at hiff
  exact ⟨ssp, hssp, hiff⟩

/-- The statistics of a course: the record of an assignment describes the scores of the class that
count, and the record for a section in it has the right counts and sums. The records describe
all groups, with their least and greatest scores, if and only if the scores that count are equal
within each section. -/
theorem statistics_describe_iff {c : Rosters} {ls : List (List ℕ)} {n : ℕ}
    (rosters : List.Forall₂ (Links c.next) c.sections ls) (disjoint : ls.flatten.Nodup)
    (declared : ∀ p ∈ ls.flatten, ∀ scp ∈ (c.student p).rawscores, scp.asgt < n) :
    ∃ stats, (∀ fuel, ls.flatten.length + 1 ≤ fuel → statistics fuel n c = some stats) ∧
      (∀ i < n, ∃ csp, stats[i]? = some csp ∧
        Describes csp.toSectionstats (scoresOf c.student ls.flatten i)) ∧
      ((∀ i < n, ∃ csp, stats[i]? = some csp ∧
          Describes csp.toSectionstats (scoresOf c.student ls.flatten i) ∧
          ∀ (k : ℕ) (students : List ℕ), ls[k]? = some students →
            ∃ ssp, csp.sstats[k]? = some ssp ∧ Describes ssp (scoresOf c.student students i)) ↔
        ∀ i < n, ∀ students ∈ ls, AllEqual (scoresOf c.student students i)) := by
  have hsections : c.sections.length = ls.length := rosters.length_eq
  obtain ⟨c', hrun, hloop, -⟩ := doLinks_forScores rosters disjoint declared
  have hrecord := record_groups c.student ls n
  rw [← hsections] at hrecord
  generalize hstats : foldEvents sumScore (events c.student 0 ls)
    (foldEvents tallyScore (events c.student 0 ls) (buildstats n c.sections.length)) = stats
    at hrecord
  refine ⟨stats, fun fuel hfuel => ?_, fun i hi => ?_, ?_⟩
  · -- both loops walk over the same scores
    have hfreqs := hloop fuel hfuel tallyScore (buildstats n c.sections.length)
    have hsums := hloop fuel hfuel sumScore
      (foldEvents tallyScore (events c.student 0 ls) (buildstats n c.sections.length))
    rw [hstats] at hsums
    rw [statistics, hrun fuel hfuel]
    exact Option.bind_eq_some_iff.mpr ⟨c', rfl, Option.bind_eq_some_iff.mpr ⟨_, hfreqs, hsums⟩⟩
  · obtain ⟨csp, hcsp, hclass, -⟩ := hrecord i hi
    exact ⟨csp, hcsp, hclass⟩
  · constructor
    · intro h i hi students hstudents
      obtain ⟨k, hk⟩ := List.mem_iff_getElem?.mp hstudents
      obtain ⟨csp, hcsp, -, hsection⟩ := h i hi
      obtain ⟨csp', hcsp', -, hsection'⟩ := hrecord i hi
      obtain rfl := Option.some.inj (hcsp.symm.trans hcsp')
      obtain ⟨ssp, hssp, hdescribes⟩ := hsection k students hk
      obtain ⟨ssp', hssp', hiff⟩ := hsection' k students hk
      obtain rfl := Option.some.inj (hssp.symm.trans hssp')
      exact hiff.mp hdescribes
    · intro h i hi
      obtain ⟨csp, hcsp, hclass, hsection⟩ := hrecord i hi
      refine ⟨csp, hcsp, hclass, fun k students hk => ?_⟩
      obtain ⟨ssp, hssp, hiff⟩ := hsection k students hk
      exact ⟨ssp, hssp, hiff.mpr (h i hi students (List.mem_of_getElem? hk))⟩

/-- A course with one assignment and one section of two students, with the scores 3 and 5. -/
def twoScores : Rosters where
  student := fun p => ⟨[], [], [], [⟨0, if p = 1 then 3 else 5, .valid, .useRaw, none, none⟩], 0⟩
  next := fun p => if p = 1 then some 2 else none
  cnext := fun _ => none
  roster := none
  sections := [some 1]

theorem twoScores_rosters :
    List.Forall₂ (Links twoScores.next) twoScores.sections [[1, 2]] :=
  .cons ⟨rfl, rfl, rfl⟩ .nil

theorem twoScores_declared :
    ∀ p ∈ [[1, 2]].flatten, ∀ scp ∈ (twoScores.student p).rawscores, scp.asgt < 1 := by
  intro p _ scp hscp
  obtain rfl := List.mem_singleton.mp hscp
  exact Nat.zero_lt_one

theorem statistics_describe_iff_example :
    ∃ stats, statistics 3 1 twoScores = some stats ∧ ∃ csp, stats[0]? = some csp ∧
      Describes csp.toSectionstats (scoresOf twoScores.student [1, 2] 0) := by
  obtain ⟨stats, hrun, hclass, -⟩ := statistics_describe_iff twoScores_rosters (by decide)
    twoScores_declared
  obtain ⟨csp, hcsp, hdescribes⟩ := hclass 0 Nat.zero_lt_one
  exact ⟨stats, hrun 3 (Nat.le_refl 3), csp, hcsp, hdescribes⟩

/-- The greatest score of the section is 3 in its record. -/
theorem section_max_wrong :
    ((statistics 3 1 twoScores).bind fun stats => stats[0]?.bind fun csp =>
      csp.sstats[0]?.map fun ssp => (ssp.valid, ssp.max)) = some (2, 3) ∧
    (5 : ℚ) ∈ scoresOf twoScores.student [1, 2] 0 := by
  decide_cbv

end CLanguage.Grades
