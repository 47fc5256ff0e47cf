import CLanguage.Grades.Stats

/-!
# What `do_links` leaves

Every pass of `do_links` links all students once more into the course roster, starting
behind the last student of the pass before. `Chained` is the invariant of a pass. In the
end the course roster is the rosters of the sections one after the other, and every score
of an assignment of the course points to its records.
-/

namespace CLanguage.Grades

open CLanguage.Lib

variable {c : Rosters} {st : Rosters × Option ℕ} {heads : List (Option ℕ)} {l done : List ℕ}
  {ls : List (List ℕ)} {i k n p s : ℕ} {first : Option ℕ}

/-- A score with its pointers, in section `k` of a course with `n` assignments. -/
def Score.link (n k : ℕ) (scp : Score) : Score :=
  if scp.asgt < n then { scp with cstats := some scp.asgt, sstats := some (scp.asgt, k) } else scp

/-- A student whose scores have their pointers. -/
def Student.link (n k : ℕ) (stp : Student) : Student :=
  { stp with rawscores := stp.rawscores.map (Score.link n k) }

/-- A student after the pass for assignment `i`. -/
def Student.linkPass (i k : ℕ) (stp : Student) : Student :=
  { stp with rawscores := linkScores i k stp.rawscores }

theorem link_zero (k : ℕ) (stp : Student) : stp.link 0 k = stp := by
  have hid : Score.link 0 k = id := funext fun scp => if_neg (Nat.not_lt_zero scp.asgt)
  rw [Student.link, hid, List.map_id]

theorem linkPass_link (n k : ℕ) (stp : Student) :
    (stp.link n k).linkPass n k = stp.link (n + 1) k := by
  simp only [Student.linkPass, Student.link, linkScores, List.map_map]
  congr 1
  refine List.map_congr_left fun scp _ => ?_
  rw [Function.comp_apply, Score.link, Score.link]
  by_cases hlt : scp.asgt < n
  · rw [if_pos hlt, if_pos (Nat.lt_succ_of_lt hlt)]
    exact if_neg (Nat.ne_of_lt hlt)
  · rw [if_neg hlt]
    by_cases heq : scp.asgt = n
    · rw [if_pos heq, if_pos (heq ▸ Nat.lt_succ_self n), heq]
    · rw [if_neg heq, if_neg (by omega)]

/-! ### One student -/

@[simp] theorem next_linkStudent : (linkStudent i k st s).1.next = st.1.next := by
  obtain ⟨m, rp⟩ := st
  cases rp with
  | none => rfl
  | some rp => rfl

theorem student_linkStudent : (linkStudent i k st s).1.student =
    Function.update st.1.student s ((st.1.student s).linkPass i k) := by
  obtain ⟨m, rp⟩ := st
  cases rp with
  | none => rfl
  | some rp => rfl

/-- The course roster in the middle of a pass that ends with the roster from `first` on. Before the
first student of a later pass the roster is still that of the pass before. -/
inductive Chained (first : Option ℕ) : Rosters × Option ℕ → List ℕ → Prop
  | start {m : Rosters} (roster : m.roster = none) : Chained first (m, none) []
  | again {m : Rosters} {rp : ℕ} (roster : m.roster = first) : Chained first (m, some rp) []
  | linked {m : Rosters} {rp : ℕ} (done : List ℕ) (roster : m.roster = first)
      (links : Links m.cnext first (done ++ [rp])) : Chained first (m, some rp) (done ++ [rp])

/-- Behind a pass there can be another one. -/
theorem Chained.restart (h : Chained first st done) : Chained first st [] := by
  cases h with
  | start roster => exact .start roster
  | again roster => exact .again roster
  | linked done roster => exact .again roster

/-- At the end of a pass. -/
theorem Chained.links (h : Chained l.head? st l) : Links st.1.cnext st.1.roster l := by
  cases h with
  | start roster => exact roster
  | again roster => exact roster
  | linked done roster links =>
    rw [roster]
    exact links

theorem cnext_linkStudent_none (m : Rosters) :
    (linkStudent i k (m, none) s).1.cnext = Function.update m.cnext s none := rfl

theorem cnext_linkStudent_some (m : Rosters) (rp : ℕ) :
    (linkStudent i k (m, some rp) s).1.cnext =
      Function.update (Function.update m.cnext rp (some s)) s none := rfl

theorem Chained.linkStudent (h : Chained first st done) (hfirst : first = (done ++ [s]).head?)
    (fresh : s ∉ done) (i k : ℕ) : Chained first (linkStudent i k st s) (done ++ [s]) := by
  cases h with
  | @start m roster =>
    refine .linked (m := (Grades.linkStudent i k (m, none) s).1) [] hfirst.symm ⟨hfirst, ?_⟩
    rw [cnext_linkStudent_none]
    exact Function.update_self s _ _
  | @again m rp roster =>
    refine .linked (m := (Grades.linkStudent i k (m, some rp) s).1) [] roster ⟨hfirst, ?_⟩
    rw [cnext_linkStudent_some]
    exact Function.update_self s _ _
  | @linked m rp done roster links =>
    refine .linked (m := (Grades.linkStudent i k (m, some rp) s).1) (done ++ [rp]) roster
      (links.snoc ?_ ?_ fun r hr => ?_)
    · -- the last student points to the new one
      have hne : rp ≠ s := by
        rintro rfl
        exact fresh (List.mem_append_right _ (List.mem_singleton_self rp))
      rw [cnext_linkStudent_some, Function.update_of_ne hne, Function.update_self]
    · rw [cnext_linkStudent_some, Function.update_self]
    · have hs : r ≠ s := by
        rintro rfl
        exact fresh (List.mem_append_left _ hr)
      have hrp : r ≠ rp := by
        rintro rfl
        exact (List.nodup_append'.mp links.nodup).2.2 hr (List.mem_singleton_self r)
      rw [cnext_linkStudent_some, Function.update_of_ne hs, Function.update_of_ne hrp]

/-! ### The students of a section -/

theorem next_linkRoster (students : List ℕ) (st : Rosters × Option ℕ) :
    (students.foldl (linkStudent i k) st).1.next = st.1.next := by
  induction students generalizing st with
  | nil => rfl
  | cons s students ih => rw [List.foldl_cons, ih, next_linkStudent]

theorem student_linkRoster (students : List ℕ) (nodup : students.Nodup)
    (st : Rosters × Option ℕ) (p : ℕ) :
    (students.foldl (linkStudent i k) st).1.student p =
      if p ∈ students then (st.1.student p).linkPass i k else st.1.student p := by
  induction students generalizing st with
  | nil => rfl
  | cons s students ih =>
    obtain ⟨hs, hnodup⟩ := List.nodup_cons.mp nodup
    rw [List.foldl_cons, ih hnodup, student_linkStudent]
    by_cases hps : p = s
    · subst hps
      rw [if_neg hs, if_pos List.mem_cons_self, Function.update_self]
    · simp only [Function.update_of_ne hps, List.mem_cons, hps, false_or]

theorem Chained.linkRoster (students rest : List ℕ) (h : Chained l.head? st done)
    (hl : done ++ students ++ rest = l) (nodup : l.Nodup) (i k : ℕ) :
    Chained l.head? (students.foldl (Grades.linkStudent i k) st) (done ++ students) := by
  induction students generalizing done st with
  | nil =>
    rw [List.append_nil]
    exact h
  | cons s students ih =>
    have hsplit : done ++ [s] ++ students ++ rest = l := by
      rw [← hl]
      simp only [List.append_assoc, List.cons_append, List.nil_append]
    have hfirst : l.head? = (done ++ [s]).head? := by
      rw [← hsplit, List.append_assoc, List.head?_append_of_ne_nil _ (by simp)]
    have hfresh : s ∉ done := by
      intro hs
      rw [← hl, List.append_assoc] at nodup
      exact (List.nodup_append'.mp nodup).2.2 hs List.mem_cons_self
    have hnext := ih (h.linkStudent hfirst hfresh i k) hsplit
    rwa [List.append_assoc, List.singleton_append] at hnext

/-! ### A pass -/

/-- A pass over the sections from place `k` on. -/
theorem linkSections_spec (hs : List.Forall₂ (Links st.1.next) heads ls)
    (chained : Chained l.head? st done) (hl : done ++ ls.flatten = l) (nodup : l.Nodup)
    (i k : ℕ) :
    ∃ st', (∀ fuel, ls.flatten.length + 1 ≤ fuel → linkSections fuel i k st heads = some st') ∧
      st'.1.next = st.1.next ∧ Chained l.head? st' l ∧
      (∀ p ∉ ls.flatten, st'.1.student p = st.1.student p) ∧
      ∀ j students, ls[j]? = some students → ∀ p ∈ students,
        st'.1.student p = (st.1.student p).linkPass i (k + j) := by
  induction ls generalizing st heads done k with
  | nil =>
    cases hs
    rw [List.flatten_nil, List.append_nil] at hl
    subst hl
    exact ⟨st, fun _ _ => rfl, rfl, chained, fun _ _ => rfl, nofun⟩
  | cons students ls ih =>
    cases hs with | @cons s _ heads _ hstudents hs
    rw [List.flatten_cons] at hl
    have hsplit : done ++ students ++ ls.flatten = l := by rw [← hl, List.append_assoc]
    have hapart : List.Disjoint students ls.flatten := by
      rw [← hl] at nodup
      exact (List.nodup_append'.mp (List.nodup_append'.mp nodup).2.1).2.2
    -- the pass over the first section, before that over the other ones
    generalize hst₁ : students.foldl (linkStudent i k) st = st₁
    have hnext : st₁.1.next = st.1.next := by
      rw [← hst₁]
      exact next_linkRoster students st
    have hstudent : ∀ p, st₁.1.student p =
        if p ∈ students then (st.1.student p).linkPass i k else st.1.student p := by
      rw [← hst₁]
      exact student_linkRoster students hstudents.nodup st
    have hchained := chained.linkRoster students ls.flatten hsplit nodup i k
    rw [hst₁] at hchained
    rw [← hnext] at hs
    obtain ⟨st', hrun, hnext', hchained', hother, hlinked⟩ := ih hs hchained hsplit (k + 1)
    refine ⟨st', fun fuel hfuel => ?_, hnext'.trans hnext, hchained', fun p hp => ?_, ?_⟩
    · rw [List.flatten_cons, List.length_append] at hfuel
      have hwalk : follow (getnext st.1) fuel s = some students := hstudents.follow_eq (by omega)
      rw [linkSections, hwalk, Option.bind_eq_bind, Option.bind_some, hst₁]
      exact hrun fuel (by omega)
    · rw [List.flatten_cons, List.mem_append, not_or] at hp
      rw [hother p hp.2, hstudent, if_neg hp.1]
    · intro j students' hj p hp
      cases j with
      | zero =>
        cases hj
        -- the other sections have other students
        rw [hother p fun h => hapart hp h, hstudent, if_pos hp, Nat.add_zero]
      | succ j =>
        have hflat : p ∈ ls.flatten :=
          List.mem_flatten.mpr ⟨students', List.mem_of_getElem? hj, hp⟩
        rw [hlinked j students' hj p hp, hstudent, if_neg fun h => hapart h hflat]
        congr 1
        omega

/-- The passes of `do_links`. -/
theorem doLinks_spec (hs : List.Forall₂ (Links c.next) c.sections ls) (nodup : ls.flatten.Nodup)
    (n : ℕ) :
    ∃ c', (∀ fuel, ls.flatten.length + 1 ≤ fuel → doLinks fuel n c = some c') ∧
      (0 < n → Links c'.cnext c'.roster ls.flatten) ∧ (n = 0 → c'.roster = none) ∧
      ∀ k students, ls[k]? = some students → ∀ p ∈ students,
        c'.student p = (c.student p).link n k := by
  -- each pass links the roster anew, so that the last one decides
  have hpasses : ∀ n, ∃ st : Rosters × Option ℕ,
      (∀ fuel, ls.flatten.length + 1 ≤ fuel → (List.range n).foldlM
        (fun st i => linkSections fuel i 0 st c.sections) ({ c with roster := none }, none) =
          some st) ∧
      st.1.next = c.next ∧ Chained ls.flatten.head? st [] ∧
      (0 < n → Links st.1.cnext st.1.roster ls.flatten) ∧ (n = 0 → st.1.roster = none) ∧
      ∀ k students, ls[k]? = some students → ∀ p ∈ students,
        st.1.student p = (c.student p).link n k := by
    intro n
    induction n with
    | zero =>
      refine ⟨({ c with roster := none }, none), fun _ _ => rfl, rfl, .start rfl,
        fun h => absurd h (Nat.lt_irrefl 0), fun _ => rfl, fun k students _ p _ => ?_⟩
      exact (link_zero k _).symm
    | succ n ih =>
      obtain ⟨st, hrun, hnext, hchained, -, -, hlinked⟩ := ih
      have hs' : List.Forall₂ (Links st.1.next) c.sections ls := by rwa [hnext]
      obtain ⟨st', hrun', hnext', hchained', -, hlinked'⟩ :=
        linkSections_spec hs' hchained (List.nil_append _) nodup n 0
      refine ⟨st', fun fuel hfuel => ?_, hnext'.trans hnext, hchained'.restart,
        fun _ => hchained'.links, nofun, fun k students hk p hp => ?_⟩
      · rw [List.range_succ, List.foldlM_append, hrun fuel hfuel, Option.bind_eq_bind,
          Option.bind_some, List.foldlM_cons, hrun' fuel hfuel]
        rfl
      · rw [hlinked' k students hk p hp, hlinked k students hk p hp, Nat.zero_add,
          linkPass_link]
  obtain ⟨st, hrun, -, -, hroster, hempty, hlinked⟩ := hpasses n
  refine ⟨st.1, fun fuel hfuel => ?_, hroster, hempty, hlinked⟩
  rw [doLinks, hrun fuel hfuel]
  rfl

/-- A score of an assignment of the course gets its pointers. -/
theorem link_of_lt {scp : Score} (h : scp.asgt < n) :
    scp.link n k = { scp with cstats := some scp.asgt, sstats := some (scp.asgt, k) } := if_pos h

/-- The records of a course, with one for each assignment and in it one for each section. -/
theorem buildstats_getElem? {sections : ℕ} (hi : i < n) (hk : k < sections) :
    ∃ csp, (buildstats n sections)[i]? = some csp ∧ ∃ ssp, csp.sstats[k]? = some ssp := by
  refine ⟨{ Sectionstats.empty with sstats := List.replicate sections .empty }, ?_, .empty, ?_⟩
  · rw [buildstats, List.getElem?_replicate, if_pos hi]
  · rw [List.getElem?_replicate, if_pos hk]

/-- After `do_links` the course roster is the rosters of the sections one after the other, and the
scores of a student in section `k` point to the record of their assignment and, in it, to that of
section `k`. Nothing else of a student changes, and both records are there. -/
theorem doLinks_roster (rosters : List.Forall₂ (Links c.next) c.sections ls)
    (disjoint : ls.flatten.Nodup) (assignments : 0 < n)
    (declared : ∀ p ∈ ls.flatten, ∀ scp ∈ (c.student p).rawscores, scp.asgt < n) :
    ∃ c', (∀ fuel, ls.flatten.length + 1 ≤ fuel → doLinks fuel n c = some c') ∧
      Links c'.cnext c'.roster ls.flatten ∧
      ∀ k students, ls[k]? = some students → ∀ p ∈ students,
        c'.student p = { c.student p with
          rawscores := (c.student p).rawscores.map fun scp =>
            { scp with cstats := some scp.asgt, sstats := some (scp.asgt, k) } } ∧
        ∀ scp ∈ (c.student p).rawscores, ∃ csp,
          (buildstats n c.sections.length)[scp.asgt]? = some csp ∧
            ∃ ssp, csp.sstats[k]? = some ssp := by
  obtain ⟨c', hrun, hroster, -, hlinked⟩ := doLinks_spec rosters disjoint n
  refine ⟨c', hrun, hroster assignments, fun k students hk p hp => ?_⟩
  have hflat : p ∈ ls.flatten := List.mem_flatten.mpr ⟨students, List.mem_of_getElem? hk, hp⟩
  have hsection : k < c.sections.length := by
    rw [rosters.length_eq]
    exact (List.getElem?_eq_some_iff.mp hk).1
  refine ⟨?_, fun scp hscp => buildstats_getElem? (declared p hflat scp hscp) hsection⟩
  rw [hlinked k students hk p hp, Student.link]
  congr 1
  exact List.map_congr_left fun scp hscp => link_of_lt (declared p hflat scp hscp)

/-- Two assignments and two sections, with students 3 and 1 in the first and 2 in the second. Each
student has a score for both assignments. -/
def twoSections : Rosters where
  student := fun p => ⟨[], [], [],
    [⟨0, p, .valid, .useRaw, none, none⟩, ⟨1, 2 * p, .invalid, .useNorm, none, none⟩], 0⟩
  next := fun p => if p = 3 then some 1 else none
  cnext := fun _ => none
  roster := none
  sections := [some 3, some 2]

theorem doLinks_roster_example :
    ∃ c', doLinks 4 2 twoSections = some c' ∧ Links c'.cnext c'.roster [3, 1, 2] := by
  have rosters : List.Forall₂ (Links twoSections.next) twoSections.sections [[3, 1], [2]] :=
    .cons ⟨rfl, rfl, rfl⟩ (.cons ⟨rfl, rfl⟩ .nil)
  have declared : ∀ p ∈ [[3, 1], [2]].flatten, ∀ scp ∈ (twoSections.student p).rawscores,
      scp.asgt < 2 := by
    intro p _ scp hscp
    obtain rfl | hscp := List.mem_cons.mp hscp
    · exact Nat.zero_lt_two
    · obtain rfl := List.mem_singleton.mp hscp
      exact Nat.one_lt_two
  obtain ⟨c', hrun, hroster, -⟩ := doLinks_roster rosters (by decide) Nat.zero_lt_two declared
  exact ⟨c', hrun 4 (Nat.le_refl 4), hroster⟩

end CLanguage.Grades
