import CLanguage.Lib.Arrangements
import CLanguage.Grades.SortRosters
import Mathlib

/-!
# Duplicate entries

`checkfordups` looks for students of the same names among neighbours on the roster of the
course, which `main` sorts before by the key of the command line. The key `name` puts such
students next to each other, `id` and `score` need not. `Together` are the students for
whom the order does not matter, and for all others there is a roster on which two of them
have the same names and no warning is given (`reports_iff`).
-/

namespace CLanguage.Grades

open CLanguage.Lib

/-- The keys that `main` takes for the option `SORTBY`. -/
inductive SortKey
  | name
  | id
  | score
  deriving DecidableEq, Repr

/-- `compare` in `main` -/
def SortKey.compare : SortKey → Student → Student → ℤ
  | .name => comparename
  | .id => compareid
  | .score => comparescore

variable {m c c' : Rosters} {key : SortKey} {s : Option ℕ} {l l' : List ℕ} {ls : List (List ℕ)}
  {students arranged : List Student} {fuel : ℕ}

/-! ### The source -/

/-- `checkfordups`, with the students at which it warns. -/
def checkfordups (m : Rosters) : ℕ → Option ℕ → Option (List ℕ)
  | 0, _ => none
  | _ + 1, none => some []
  | fuel + 1, some sp =>
    match m.cnext sp with
    | none => some []
    | some n => do
      let warned ← checkfordups m fuel (some n)
      return if comparename (m.student sp) (m.student n) = 0 then sp :: warned else warned

/-! ### Names -/

/-- The students have the same surname and the same given name. -/
def SameNames (s t : Student) : Prop := s.surname = t.surname ∧ s.name = t.name

instance (s t : Student) : Decidable (SameNames s t) := inferInstanceAs (Decidable (_ ∧ _))

theorem SameNames.symm {s t : Student} (h : SameNames s t) : SameNames t s := ⟨h.1.symm, h.2.symm⟩

theorem strcmp_eq_zero {s t : Str} : strcmp s t = 0 ↔ s = t := by
  induction s generalizing t with
  | nil => cases t <;> simp [strcmp]
  | cons a s ih =>
    cases t with
    | nil => simp [strcmp]
    | cons b t =>
      rw [strcmp, List.cons.injEq, ← UInt8.toNat_inj]
      obtain hlt | heq | hlt := lt_trichotomy a.toNat b.toNat
      · simp [hlt, hlt.ne]
      · simp [heq, ih]
      · simp [hlt, lt_asymm hlt, hlt.ne']

theorem comparename_eq_zero {s t : Student} : comparename s t = 0 ↔ SameNames s t := by
  rw [comparename, SameNames, ← strcmp_eq_zero, ← strcmp_eq_zero]
  split
  · next h => simp [h]
  · next h => simp [not_not.mp h]

theorem SortKey.preorder : ∀ key : SortKey, Preorder3 key.compare
  | .name => comparename_preorder
  | .id => compareid_preorder
  | .score => comparescore_preorder

/-- No two of the students have the same names. -/
def Distinct (students : List Student) : Prop := students.Pairwise fun s t => ¬ SameNames s t

/-- No two neighbours have the same names. -/
def Apart (students : List Student) : Prop := students.IsChain fun s t => ¬ SameNames s t

theorem Distinct.apart (h : Distinct students) : Apart students := h.isChain

theorem distinct_perm (h : arranged.Perm students) : Distinct arranged ↔ Distinct students :=
  h.pairwise_iff fun hne hsame => hne hsame.symm

/-- Two students on the roster have the same names. -/
def Rosters.Repeats (c : Rosters) (l : List ℕ) : Prop :=
  ∃ p ∈ l, ∃ q ∈ l, p ≠ q ∧ SameNames (c.student p) (c.student q)

theorem repeats_iff (nodup : l.Nodup) : c.Repeats l ↔ ¬ Distinct (l.map c.student) := by
  rw [Distinct, List.pairwise_map]
  constructor
  · rintro ⟨p, hp, q, hq, hne, hsame⟩ h
    have : Std.Symm fun p q => ¬ SameNames (c.student p) (c.student q) :=
      ⟨fun _ _ hne hsame => hne hsame.symm⟩
    exact h.forall hp hq hne hsame
  · intro h
    by_contra hnone
    refine h (nodup.pairwise_of_forall_ne fun p hp q hq hne hsame => ?_)
    exact hnone ⟨p, hp, q, hq, hne, hsame⟩

/-! ### The warnings -/

/-- There is a warning exactly if two neighbours have the same names. -/
theorem checkfordups_spec (h : Links m.cnext s l) (enough : l.length < fuel) :
    ∃ warned, checkfordups m fuel s = some warned ∧
      (warned = [] ↔ Apart (l.map m.student)) := by
  induction l generalizing s fuel with
  | nil =>
    obtain rfl : s = none := h
    obtain ⟨fuel, rfl⟩ := Nat.exists_eq_succ_of_ne_zero (Nat.ne_of_gt enough)
    exact ⟨[], rfl, iff_of_true rfl .nil⟩
  | cons p l ih =>
    obtain ⟨rfl, hrest⟩ := h
    obtain ⟨fuel, rfl⟩ := Nat.exists_eq_succ_of_ne_zero (Nat.ne_of_gt (Nat.zero_lt_of_lt enough))
    cases l with
    | nil =>
      have hlast : m.cnext p = none := hrest
      exact ⟨[], by rw [checkfordups, hlast], iff_of_true rfl (.singleton _)⟩
    | cons q l =>
      have hnext : m.cnext p = some q := hrest.1
      -- the pair at the head, and the scan of the rest
      obtain ⟨warned, hrun, hwarned⟩ := ih hrest (Nat.lt_of_succ_lt_succ enough)
      rw [hnext] at hrun
      rw [checkfordups, hnext]
      simp only [hrun, Option.bind_eq_bind, Option.bind_some, comparename_eq_zero, List.map_cons,
        Apart, List.isChain_cons_cons]
      refine ⟨_, rfl, ?_⟩
      split
      · next hsame => exact iff_of_false (List.cons_ne_nil _ _) fun h => h.1 hsame
      · next hother => rw [and_iff_right hother]; exact hwarned

/-! ### The order of the roster -/

theorem sortsections_cnext {compare : Student → Student → ℤ} {heads heads' : List (Option ℕ)}
    (h : sortsections compare fuel m heads = some (c, heads')) : c.cnext = m.cnext := by
  induction heads generalizing m heads' with
  | nil =>
    cases h
    rfl
  | cons s heads ih =>
    obtain ⟨⟨m₁, s₁⟩, hfirst, h⟩ := Option.bind_eq_some_iff.mp h
    obtain ⟨⟨m₂, heads₂⟩, hrest, h⟩ := Option.bind_eq_some_iff.mp h
    cases h
    exact (ih hrest).trans (sortroster_keeps Rosters.cnext cnext_setnext hfirst)

/-- The roster of the course after `sortrosters`. -/
theorem sortrosters_links {compare : Student → Student → ℤ} (hroster : Links c.cnext c.roster l)
    (enough : l.length < fuel) (h : sortrosters compare fuel c = some c')
    (horder : sortedOrder (fun p q => compare (c.student p) (c.student q)) fuel l = some l')
    (nodup : l'.Nodup) : Links c'.cnext c'.roster l' := by
  obtain ⟨⟨m₁, s₁⟩, hfirst, h⟩ := Option.bind_eq_some_iff.mp h
  obtain ⟨⟨m₂, heads⟩, hsections, h⟩ := Option.bind_eq_some_iff.mp h
  cases h
  have hrun : sortroster getcnext setcnext compare fuel c c.roster = _ :=
    sortroster_eq setcnext hroster enough
  rw [horder, hfirst] at hrun
  cases hrun
  have hcnext := sortsections_cnext hsections
  show Links m₂.cnext _ _
  rw [hcnext]
  exact links_relink isLink_cnext c nodup

/-! ### Reports -/

/-- Sorting by the key ends, and then the search ends and warns exactly if two students on the
roster have the same names. -/
def Rosters.Reports (c : Rosters) (key : SortKey) (l : List ℕ) (ls : List (List ℕ)) : Prop :=
  ∀ fuel, 2 * (l.length + ls.flatten.length) + 1 ≤ fuel → ∃ c' warned,
    sortrosters key.compare fuel c = some c' ∧ checkfordups c' fuel c'.roster = some warned ∧
      (warned ≠ [] ↔ c.Repeats l)

/-- The students are in an order in which the key can put them. -/
def SortedBy (key : SortKey) (students : List Student) : Prop :=
  students.Pairwise fun s t => key.compare s t ≤ 0

/-- In whatever order the key puts the students: if two of them have the same names, two neighbours
have. -/
def Together (key : SortKey) (students : List Student) : Prop :=
  ∀ arranged : List Student, arranged.Perm students → SortedBy key arranged → Apart arranged →
    Distinct arranged

/-- The order in which the roster is sorted. -/
def Rosters.SortsTo (c : Rosters) (key : SortKey) (l l' : List ℕ) : Prop :=
  ∀ fuel, 2 * l.length + 1 ≤ fuel →
    sortedOrder (fun p q => key.compare (c.student p) (c.student q)) fuel l = some l'

theorem reports_iff_of_sortsTo (lists : c.Lists l ls) (sorts : c.SortsTo key l l')
    (perm : l'.Perm l) :
    c.Reports key l ls ↔ (Apart (l'.map c.student) → Distinct (l'.map c.student)) := by
  obtain ⟨⟨c', -, -, hrun, -, hstudent, -⟩, -⟩ := sortrosters_sorts key.preorder lists
  have hnodup : l'.Nodup := perm.nodup_iff.mpr lists.roster.nodup
  have hdistinct := distinct_perm (perm.map c.student)
  have hends : ∀ fuel, 2 * (l.length + ls.flatten.length) + 1 ≤ fuel → ∃ warned,
      sortrosters key.compare fuel c = some c' ∧ checkfordups c' fuel c'.roster = some warned ∧
        (warned = [] ↔ Apart (l'.map c.student)) := by
    intro fuel hfuel
    have hlinks : Links c'.cnext c'.roster l' :=
      sortrosters_links lists.roster (by omega) (hrun fuel hfuel) (sorts fuel (by omega)) hnodup
    have henough : l'.length < fuel := by
      rw [perm.length_eq]
      omega
    obtain ⟨warned, hcheck, hwarned⟩ := checkfordups_spec hlinks henough
    rw [hstudent] at hwarned
    exact ⟨warned, hrun fuel hfuel, hcheck, hwarned⟩
  constructor
  · -- the run is the same as the one that is promised
    intro h hapart
    obtain ⟨warned, hsort, hcheck, hwarned⟩ := hends _ (Nat.le_refl _)
    obtain ⟨c₁, warned₁, hsort₁, hcheck₁, hiff⟩ := h _ (Nat.le_refl _)
    cases hsort.symm.trans hsort₁
    cases hcheck.symm.trans hcheck₁
    rw [repeats_iff lists.roster.nodup, ← hdistinct, hwarned.mpr hapart] at hiff
    exact not_not.mp fun hrepeats => hiff.mpr hrepeats rfl
  · intro h fuel hfuel
    obtain ⟨warned, hsort, hcheck, hwarned⟩ := hends fuel hfuel
    refine ⟨c', warned, hsort, hcheck, ?_⟩
    rw [repeats_iff lists.roster.nodup, ← hdistinct, not_iff_not, hwarned]
    exact ⟨h, Distinct.apart⟩

theorem exists_sortsTo (c : Rosters) (key : SortKey) (l : List ℕ) :
    ∃ l', c.SortsTo key l l' ∧ l'.Perm l ∧ SortedBy key (l'.map c.student) := by
  obtain ⟨l', hperm, hsorted, hrun⟩ := sortedOrder_spec (key.preorder.comap c.student) l
  exact ⟨l', hrun, hperm, List.pairwise_map.mpr hsorted⟩

/-- By names, students of the same names come next to each other. -/
theorem together_name (students : List Student) : Together .name students := by
  intro arranged _ sorted apart
  have hne : ∀ s t, ¬ SameNames s t ↔ comparename s t ≠ 0 := fun s t =>
    not_congr comparename_eq_zero.symm
  rw [Apart] at apart
  simp only [Distinct, hne] at apart ⊢
  exact comparename_preorder.pairwise_of_neighbours sorted apart

/-! ### Every order comes about -/

/-- What is behind the last student. -/
def noStudent : Student := ⟨[], [], [], [], 0⟩

/-- A course whose roster are the first `n` students. -/
def courseOf (student : ℕ → Student) (n : ℕ) : Rosters :=
  { relink setcnext ⟨student, fun _ => none, fun _ => none, none, []⟩ (List.range n) with
    roster := (List.range n).head? }

variable {student student' : ℕ → Student} {n : ℕ}

@[simp] theorem student_courseOf : (courseOf student n).student = student :=
  relink_keeps Rosters.student isLink_cnext.student _ _

theorem courseOf_lists : (courseOf student n).Lists (List.range n) [] := by
  refine ⟨links_relink isLink_cnext _ List.nodup_range, ?_, List.nodup_nil⟩
  have hkeep : ∀ m p n, (setcnext m p n).sections = m.sections := fun _ _ _ => rfl
  have hsections : (courseOf student n).sections = [] := relink_keeps Rosters.sections hkeep _ _
  rw [hsections]
  exact .nil

/-- Students that the key does not tell apart are sorted alike. -/
theorem sortsTo_congr (h : ∀ p, key.compare (student p) (student' p) = 0)
    (sorts : (courseOf student n).SortsTo key l l') : (courseOf student' n).SortsTo key l l' := by
  intro fuel hfuel
  have hrun := sorts fuel hfuel
  rw [student_courseOf, sortedOrder] at hrun
  rw [student_courseOf, sortedOrder, ← hrun]
  congr 1
  exact (sorttable_congr (fun p q => key.preorder.sign_congr (h p) (h q)) fuel).symm

/-- The sort leaves the students in any order that fits the key, if they are on the roster in some
other order. -/
theorem exists_course (perm : arranged.Perm students) (sorted : SortedBy key arranged) :
    ∃ (c : Rosters) (l l' : List ℕ), c.Lists l [] ∧ (l.map c.student).Perm students ∧
      c.SortsTo key l l' ∧ l'.Perm l ∧ l'.map c.student = arranged := by
  generalize hn : students.length = n
  -- a first order, and where each student goes in it
  let student := fun p => students.getD p noStudent
  obtain ⟨l', hsorts, hperm, hsorted⟩ := exists_sortsTo (courseOf student n) key (List.range n)
  rw [student_courseOf] at hsorted
  have hnodup : l'.Nodup := hperm.nodup_iff.mpr List.nodup_range
  have hlength : l'.length = n := by rw [hperm.length_eq, List.length_range]
  have harranged : arranged.length = n := by rw [perm.length_eq, hn]
  -- the students change places so that they arrive in the order that is asked for
  let student' := fun p => arranged.getD (l'.idxOf p) noStudent
  have hmap : l'.map student' = arranged := by
    refine List.ext_getElem (by simp [hlength, harranged]) fun i hi hi' => ?_
    simp only [List.getElem_map, student', hnodup.idxOf_getElem]
    exact List.getD_eq_getElem _ _ hi'
  have hfirst : (l'.map student).Perm arranged := by
    refine ((hperm.map student).trans ?_).trans perm.symm
    rw [← hn, map_getD_range]
  have hequal : ∀ p, key.compare (student p) (student' p) = 0 := by
    intro p
    by_cases hp : p ∈ l'
    · obtain ⟨i, hi, rfl⟩ := List.getElem_of_mem hp
      have hplaces := key.preorder.getElem_sorted (i := i) hfirst
        hsorted sorted (by simpa using hi) (by omega)
      rw [List.getElem_map] at hplaces
      simp only [student', hnodup.idxOf_getElem]
      rw [List.getD_eq_getElem _ _ (by omega)]
      exact hplaces
    · have hbehind : n ≤ p := by
        rw [hperm.mem_iff, List.mem_range] at hp
        omega
      have hstudent : student p = noStudent := List.getD_eq_default _ _ (by omega)
      have hstudent' : student' p = noStudent :=
        List.getD_eq_default _ _ (by rw [List.idxOf_eq_length hp]; omega)
      rw [hstudent, hstudent']
      exact key.preorder.refl _
  refine ⟨courseOf student' n, List.range n, l', courseOf_lists, ?_, sortsTo_congr hequal hsorts,
    hperm, ?_⟩
  · rw [student_courseOf]
    refine (hperm.symm.map student').trans ?_
    rw [hmap]
    exact perm
  · rw [student_courseOf]
    exact hmap

/-- Whatever the order of the roster, sorting by the key and searching reports exactly the repeated
names, if and only if the students are `Together`. If the key tells all students apart this holds
for each roster on its own. Sorting by names is always right. -/
theorem reports_iff (key : SortKey) (students : List Student) :
    ((∀ c l ls, Rosters.Lists c l ls → (l.map c.student).Perm students → c.Reports key l ls) ↔
      Together key students) ∧
    (students.Pairwise (fun s t => key.compare s t ≠ 0) →
      ∀ c l ls, Rosters.Lists c l ls → (l.map c.student).Perm students →
        (c.Reports key l ls ↔ Together key students)) ∧
    (key = .name → Together key students) := by
  have henough : Together key students → ∀ c l ls, Rosters.Lists c l ls →
      (l.map c.student).Perm students → c.Reports key l ls := by
    intro together c l ls lists perm
    obtain ⟨l', hsorts, hperm, hsorted⟩ := exists_sortsTo c key l
    exact (reports_iff_of_sortsTo lists hsorts hperm).mpr
      (together _ ((hperm.map c.student).trans perm) hsorted)
  refine ⟨⟨fun h arranged perm sorted apart => ?_, henough⟩,
    fun untied c l ls lists perm => ⟨fun h arranged hperm' sorted apart => ?_,
      fun together => henough together c l ls lists perm⟩, ?_⟩
  · obtain ⟨c, l, l', lists, hstudents, hsorts, hperm, rfl⟩ := exists_course perm sorted
    exact (reports_iff_of_sortsTo lists hsorts hperm).mp (h c l [] lists hstudents) apart
  · -- there is one order only
    obtain ⟨l', hsorts, hperm, hsorted⟩ := exists_sortsTo c key l
    have hstudents := (hperm.map c.student).trans perm
    have hsame : l'.map c.student = arranged := by
      have hlength := (hstudents.trans hperm'.symm).length_eq
      refine List.ext_getElem hlength fun i hi hi' => ?_
      have hzero := key.preorder.getElem_sorted (hstudents.trans hperm'.symm) hsorted sorted hi hi'
      by_contra hne
      have : Std.Symm fun s t => key.compare s t ≠ 0 := ⟨fun s t hst hts => by
        have h₁ := key.preorder.swap s t
        have h₂ := key.preorder.swap t s
        omega⟩
      exact untied.forall (hstudents.mem_iff.mp (List.getElem_mem hi))
        (hperm'.mem_iff.mp (List.getElem_mem hi')) hne hzero
    subst hsame
    exact (reports_iff_of_sortsTo lists hsorts hperm).mp h apart
  · rintro rfl
    exact together_name students

/-- Three students in the order of their ids, the first and the last of whom have the same names. -/
def threeStudents : Rosters where
  student := fun p => ⟨[UInt8.ofNat p], [], if p = 2 then [98] else [97], [], 0⟩
  next := fun _ => none
  cnext := fun p => if p = 1 then some 2 else if p = 2 then some 3 else none
  roster := some 1
  sections := []

/-- Sorted by id, the duplicate entry is not reported. -/
theorem duplicate_not_reported :
    threeStudents.Lists [1, 2, 3] [] ∧ ¬ threeStudents.Reports .id [1, 2, 3] [] := by
  refine ⟨⟨⟨rfl, rfl, rfl, rfl⟩, .nil, List.nodup_nil⟩, fun h => ?_⟩
  obtain ⟨c', warned, hsort, hcheck, hiff⟩ := h 7 (Nat.le_refl 7)
  have hrun : ((sortrosters compareid 7 threeStudents).bind fun c' =>
      checkfordups c' 7 c'.roster) = some [] := by decide_cbv
  have hnone : warned = [] := by
    rw [show sortrosters compareid 7 threeStudents = some c' from hsort, Option.bind_some, hcheck]
      at hrun
    exact Option.some.inj hrun
  exact hiff.mpr ⟨1, by decide, 3, by decide, by decide, by decide⟩ hnone

end CLanguage.Grades
