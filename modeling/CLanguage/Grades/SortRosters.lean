import Mathlib.Algebra.Order.Ring.Rat
import CLanguage.Grades.Sort

/-!
# Sorting the rosters of a course

`sortroster` for the links of either roster, and `sortrosters` for all rosters of a course.
A sort changes the links of its own kind on its own roster and nothing else.
-/

namespace CLanguage.Grades

open CLanguage.Lib

variable {m m' : Rosters} {compare : Student → Student → ℤ} {s s' : Option ℕ} {l l' : List ℕ}
  {p q fuel : ℕ}

/-! ### Comparisons -/

/-- `strcmp`, of which only the sign is specified. -/
def strcmp : Str → Str → ℤ
  | [], [] => 0
  | [], _ :: _ => -1
  | _ :: _, [] => 1
  | a :: s, b :: t =>
    if a.toNat < b.toNat then -1 else if b.toNat < a.toNat then 1 else strcmp s t

/-- `comparename` -/
def comparename (s₁ s₂ : Student) : ℤ :=
  if strcmp s₁.surname s₂.surname ≠ 0 then strcmp s₁.surname s₂.surname
  else strcmp s₁.name s₂.name

/-- `compareid` -/
def compareid (s₁ s₂ : Student) : ℤ := strcmp s₁.id s₂.id

/-- `comparescore`: the highest score comes first. -/
def comparescore (s₁ s₂ : Student) : ℤ :=
  if s₂.composite < s₁.composite then -1
  else if s₁.composite < s₂.composite then 1
  else 0

theorem strcmp_neg (s t : Str) : strcmp t s = -strcmp s t := by
  induction s generalizing t with
  | nil =>
    cases t with
    | nil => rfl
    | cons b t => rfl
  | cons a s ih =>
    cases t with
    | nil => rfl
    | cons b t =>
      rw [strcmp, strcmp]
      obtain hlt | heq | hlt := lt_trichotomy a.toNat b.toNat
      · rw [if_neg (lt_asymm hlt), if_pos hlt, if_pos hlt]
        rfl
      · rw [if_neg heq.not_gt, if_neg heq.not_lt, if_neg heq.not_lt, if_neg heq.not_gt, ih]
      · rw [if_pos hlt, if_neg (lt_asymm hlt), if_pos hlt]

theorem strcmp_cons_le_zero {a b : UInt8} {s t : Str} :
    strcmp (a :: s) (b :: t) ≤ 0 ↔
      a.toNat < b.toNat ∨ (a.toNat = b.toNat ∧ strcmp s t ≤ 0) := by
  rw [strcmp]
  obtain hlt | heq | hlt := lt_trichotomy a.toNat b.toNat
  · simp [hlt]
  · simp [heq]
  · simp [hlt, lt_asymm hlt, hlt.ne']

theorem strcmp_trans (s t u : Str) (hst : strcmp s t ≤ 0) (htu : strcmp t u ≤ 0) :
    strcmp s u ≤ 0 := by
  induction s generalizing t u with
  | nil =>
    cases u with
    | nil => exact le_refl 0
    | cons c u => exact neg_nonpos.mpr zero_le_one
  | cons a s ih =>
    cases t with
    | nil => exact absurd hst (not_le.mpr zero_lt_one)
    | cons b t =>
      cases u with
      | nil => exact absurd htu (not_le.mpr zero_lt_one)
      | cons c u =>
        rw [strcmp_cons_le_zero] at hst htu ⊢
        obtain hab | ⟨hab, hst⟩ := hst
        · obtain hbc | ⟨hbc, -⟩ := htu
          · exact .inl (hab.trans hbc)
          · exact .inl (hab.trans_eq hbc)
        · obtain hbc | ⟨hbc, htu⟩ := htu
          · exact .inl (hab.trans_lt hbc)
          · exact .inr ⟨hab.trans hbc, ih t u hst htu⟩

theorem strcmp_preorder : Preorder3 strcmp :=
  ⟨fun s t => by rw [strcmp_neg]; omega, strcmp_trans⟩

theorem comparename_preorder : Preorder3 comparename :=
  (strcmp_preorder.comap Student.surname).lex (strcmp_preorder.comap Student.name)

theorem compareid_preorder : Preorder3 compareid := strcmp_preorder.comap Student.id

theorem comparescore_preorder : Preorder3 comparescore := by
  have hle : ∀ s t, comparescore s t ≤ 0 ↔ t.composite ≤ s.composite := by
    intro s t
    rw [comparescore]
    split
    · next h => simp [h.le]
    split
    · next h => simp [h]
    · next h => simp [not_lt.mp h]
  have hneg : ∀ s t, comparescore t s = -comparescore s t := by
    intro s t
    rw [comparescore, comparescore]
    obtain h | h | h := lt_trichotomy s.composite t.composite
    · simp [h, lt_asymm h]
    · simp [h]
    · simp [h, lt_asymm h]
  refine ⟨fun s t => ?_, fun s t u hst htu => ?_⟩
  · rw [hneg]
    omega
  · rw [hle] at hst htu ⊢
    exact htu.trans hst

/-! ### Links -/

/-- The functions read and write one link of a student. -/
structure IsLink (gtnxt : Rosters → ℕ → Option ℕ) (stnxt : Rosters → ℕ → Option ℕ → Rosters) :
    Prop where
  get_set : ∀ m p n, gtnxt (stnxt m p n) = Function.update (gtnxt m) p n
  student : ∀ m p n, (stnxt m p n).student = m.student

theorem isLink_next : IsLink getnext setnext := ⟨fun _ _ _ => rfl, student_setnext⟩

theorem isLink_cnext : IsLink getcnext setcnext := ⟨fun _ _ _ => rfl, student_setcnext⟩

variable {gtnxt : Rosters → ℕ → Option ℕ} {stnxt : Rosters → ℕ → Option ℕ → Rosters}

/-- What writing a link keeps is the same after a roster was linked. -/
theorem relink_keeps {β : Type} (observe : Rosters → β)
    (keep : ∀ m p n, observe (stnxt m p n) = observe m) (m : Rosters) (l : List ℕ) :
    observe (relink stnxt m l) = observe m := by
  induction l generalizing m with
  | nil => rfl
  | cons p l ih =>
    cases l with
    | nil => exact keep m p none
    | cons q l => exact (ih (stnxt m p (some q))).trans (keep m p (some q))

/-- Students that are not on the roster keep their link. -/
theorem get_relink_of_not_mem (link : IsLink gtnxt stnxt) (m : Rosters) (hp : p ∉ l) :
    gtnxt (relink stnxt m l) p = gtnxt m p := by
  have hset : ∀ m q n, p ≠ q → gtnxt (stnxt m q n) p = gtnxt m p := by
    intro m q n hne
    rw [link.get_set]
    exact Function.update_of_ne hne _ _
  induction l generalizing m with
  | nil => rfl
  | cons q l ih =>
    have hne : p ≠ q := fun h => hp (h ▸ List.mem_cons_self)
    cases l with
    | nil => exact hset m q none hne
    | cons r l => exact (ih _ fun h => hp (List.mem_cons_of_mem q h)).trans (hset m q _ hne)

/-- The roster is linked in the order of the table. -/
theorem links_relink (link : IsLink gtnxt stnxt) (m : Rosters) (nodup : l.Nodup) :
    Links (gtnxt (relink stnxt m l)) l.head? l := by
  induction l generalizing m with
  | nil => rfl
  | cons p l ih =>
    obtain ⟨hp, hl⟩ := List.nodup_cons.mp nodup
    refine ⟨rfl, ?_⟩
    cases l with
    | nil =>
      rw [relink, link.get_set, Function.update_self]
      rfl
    | cons q l =>
      rw [relink, get_relink_of_not_mem link _ hp, link.get_set, Function.update_self]
      exact ih _ hl

/-! ### One roster -/

theorem map_getD_range {α : Type} (l : List α) (a : α) :
    (List.range l.length).map (l.getD · a) = l := by
  refine List.ext_getElem (by simp) fun i h₁ h₂ => ?_
  simp [List.getElem?_eq_getElem h₂]

/-- The order in which `sortroster` links students. -/
def sortedOrder (compare : ℕ → ℕ → ℤ) (fuel : ℕ) (l : List ℕ) : Option (List ℕ) :=
  (sorttable compare fuel (fun i => l.reverse.getD i 0) 0 l.length).map fun stab =>
    (List.range l.length).map stab

theorem sortedOrder_spec {compare : ℕ → ℕ → ℤ} (order : Preorder3 compare) (l : List ℕ) :
    ∃ l' : List ℕ, l'.Perm l ∧ l'.Pairwise (fun p q => compare p q ≤ 0) ∧
      ∀ fuel, 2 * l.length + 1 ≤ fuel → sortedOrder compare fuel l = some l' := by
  obtain ⟨stab, hsorted, hrun⟩ := sorttable_spec order l.length (fun i => l.reverse.getD i 0) 0
  rw [Nat.zero_add] at hsorted hrun
  have hperm := hsorted.moved.perm (Nat.le_refl _)
  have htable : (List.range l.length).map (fun i => l.reverse.getD i 0) = l.reverse := by
    rw [← List.length_reverse]
    exact map_getD_range l.reverse 0
  rw [htable] at hperm
  refine ⟨(List.range l.length).map stab, hperm.trans (List.reverse_perm l),
    hsorted.sorted.pairwise, fun fuel hfuel => ?_⟩
  rw [sortedOrder, hrun fuel hfuel, Option.map_some]

theorem sortroster_eq (stnxt : Rosters → ℕ → Option ℕ → Rosters) (h : Links (gtnxt m) s l)
    (enough : l.length < fuel) :
    sortroster gtnxt stnxt compare fuel m s =
      (sortedOrder (fun p q => compare (m.student p) (m.student q)) fuel l).map fun l' =>
        (relink stnxt m l', l'.head?) := by
  rw [sortroster, h.follow_eq enough, sortedOrder, Option.map_map]
  cases l with
  | nil =>
    obtain ⟨fuel, rfl⟩ := Nat.exists_eq_succ_of_ne_zero (Nat.ne_of_gt enough)
    rfl
  | cons p l =>
    have hcount : ¬ (p :: l).length = 0 := Nat.succ_ne_zero _
    simp only [Option.bind_eq_bind, Option.bind_some, if_neg hcount, Option.map_eq_bind]
    rfl

/-- `sortroster` ends with the students of the roster in order. -/
theorem sortroster_spec (order : Preorder3 compare) (gtnxt : Rosters → ℕ → Option ℕ)
    (stnxt : Rosters → ℕ → Option ℕ → Rosters) (h : Links (gtnxt m) s l) :
    ∃ l' : List ℕ, l'.Perm l ∧
      l'.Pairwise (fun p q => compare (m.student p) (m.student q) ≤ 0) ∧
      ∀ fuel, 2 * l.length + 1 ≤ fuel →
        sortroster gtnxt stnxt compare fuel m s = some (relink stnxt m l', l'.head?) := by
  obtain ⟨l', hperm, hsorted, hrun⟩ := sortedOrder_spec (order.comap m.student) l
  refine ⟨l', hperm, hsorted, fun fuel hfuel => ?_⟩
  rw [sortroster_eq stnxt h (by omega), hrun fuel hfuel, Option.map_some]

/-- The links of the roster that is not sorted stay as they are. -/
theorem sortroster_keeps {β : Type} (observe : Rosters → β)
    (keep : ∀ m p n, observe (stnxt m p n) = observe m)
    (h : sortroster gtnxt stnxt compare fuel m s = some (m', s')) : observe m' = observe m := by
  obtain ⟨students, -, h⟩ := Option.bind_eq_some_iff.mp h
  by_cases hzero : students.length = 0
  · simp only [if_pos hzero] at h
    cases h
    rfl
  · simp only [if_neg hzero] at h
    obtain ⟨stab, -, h⟩ := Option.bind_eq_some_iff.mp h
    cases h
    exact relink_keeps observe keep m _

/-! ### The rosters of the sections -/

/-- The students on the rosters: each roster is a list, and no student is in two sections. -/
structure Rosters.Lists (c : Rosters) (l : List ℕ) (ls : List (List ℕ)) : Prop where
  roster : Links c.cnext c.roster l
  sections : List.Forall₂ (Links c.next) c.sections ls
  disjoint : ls.flatten.Nodup

/-- The sections of `m'` have the students of the sections of `m`, in order. -/
structure SectionsSorted (compare : Student → Student → ℤ) (m m' : Rosters)
    (heads : List (Option ℕ)) (ls ls' : List (List ℕ)) : Prop where
  links : List.Forall₂ (Links m'.next) heads ls'
  perm : List.Forall₂ List.Perm ls' ls
  sorted : ∀ r ∈ ls', r.Pairwise fun p q => compare (m.student p) (m.student q) ≤ 0
  student : m'.student = m.student
  cnext : m'.cnext = m.cnext
  next : ∀ p ∉ ls.flatten, m'.next p = m.next p

theorem flatten_perm {ls ls' : List (List ℕ)} (h : List.Forall₂ List.Perm ls' ls) :
    ls'.flatten.Perm ls.flatten := by
  induction h with
  | nil => exact .nil
  | cons h _ ih => exact h.append ih

theorem links_congr_sections {heads : List (Option ℕ)} {ls : List (List ℕ)}
    (h : List.Forall₂ (Links m.next) heads ls)
    (same : ∀ p ∈ ls.flatten, m'.next p = m.next p) :
    List.Forall₂ (Links m'.next) heads ls := by
  induction h with
  | nil => exact .nil
  | cons h _ ih =>
    rw [List.flatten_cons] at same
    exact .cons (h.congr fun p hp => same p (List.mem_append_left _ hp))
      (ih fun p hp => same p (List.mem_append_right _ hp))

theorem sortsections_spec (order : Preorder3 compare) {heads : List (Option ℕ)}
    {ls : List (List ℕ)} (h : List.Forall₂ (Links m.next) heads ls)
    (disjoint : ls.flatten.Nodup) :
    ∃ m' heads' ls', SectionsSorted compare m m' heads' ls ls' ∧
      ∀ fuel, 2 * ls.flatten.length + 1 ≤ fuel →
        sortsections compare fuel m heads = some (m', heads') := by
  induction ls generalizing m heads with
  | nil =>
    cases h
    exact ⟨m, [], [], ⟨.nil, .nil, nofun, rfl, rfl, fun _ _ => rfl⟩, fun _ _ => rfl⟩
  | cons l ls ih =>
    cases h with | @cons s _ heads _ hs hsections
    rw [List.flatten_cons, List.nodup_append'] at disjoint
    obtain ⟨-, hdisjoint, hapart⟩ := disjoint
    obtain ⟨l', hperm, hsorted, hrun⟩ := sortroster_spec order getnext setnext hs
    generalize hm₁ : relink setnext m l' = m₁ at hrun
    have hstudent : m₁.student = m.student := by
      rw [← hm₁]
      exact relink_keeps Rosters.student isLink_next.student m l'
    have hcnext : m₁.cnext = m.cnext := by
      rw [← hm₁]
      exact relink_keeps Rosters.cnext cnext_setnext m l'
    have hother : ∀ p ∉ l, m₁.next p = m.next p := by
      intro p hp
      rw [← hm₁]
      exact get_relink_of_not_mem isLink_next m fun h => hp (hperm.mem_iff.mp h)
    -- the other sections are as before
    have hrest : List.Forall₂ (Links m₁.next) heads ls :=
      links_congr_sections hsections fun p hp => hother p fun h => hapart h hp
    obtain ⟨m', heads', ls', hsecs, hrun'⟩ := ih hrest hdisjoint
    have hlinks : Links m'.next l'.head? l' := by
      have hfirst : Links m₁.next l'.head? l' := by
        rw [← hm₁]
        exact links_relink isLink_next m (hperm.nodup_iff.mpr hs.nodup)
      exact hfirst.congr fun p hp => hsecs.next p fun h => hapart (hperm.mem_iff.mp hp) h
    refine ⟨m', l'.head? :: heads', l' :: ls', ⟨.cons hlinks hsecs.links, .cons hperm hsecs.perm,
      ?_, hsecs.student.trans hstudent, hsecs.cnext.trans hcnext, ?_⟩, ?_⟩
    · intro r hr
      obtain rfl | hr := List.mem_cons.mp hr
      · exact hsorted
      · rw [← hstudent]
        exact hsecs.sorted r hr
    · intro p hp
      rw [List.flatten_cons, List.mem_append, not_or] at hp
      rw [hsecs.next p hp.2, hother p hp.1]
    · intro fuel hfuel
      rw [List.flatten_cons, List.length_append] at hfuel
      rw [sortsections, hrun fuel (by omega), Option.bind_eq_bind, Option.bind_some]
      dsimp only
      rw [hrun' fuel (by omega)]
      rfl

/-! ### All rosters -/

/-- `sortrosters` ends, and then the roster of the course and those of the sections are what they
were in the order of the comparison. Sorting one kind of roster leaves the links of the other
kind alone. -/
theorem sortrosters_sorts (order : Preorder3 compare) {c : Rosters} {l : List ℕ}
    {ls : List (List ℕ)} (lists : c.Lists l ls) :
    (∃ c' l' ls',
      (∀ fuel, 2 * (l.length + ls.flatten.length) + 1 ≤ fuel →
        sortrosters compare fuel c = some c') ∧
      c'.Lists l' ls' ∧ c'.student = c.student ∧
      l'.Perm l ∧ l'.Pairwise (fun p q => compare (c'.student p) (c'.student q) ≤ 0) ∧
      List.Forall₂ List.Perm ls' ls ∧
      ∀ r ∈ ls', r.Pairwise fun p q => compare (c'.student p) (c'.student q) ≤ 0) ∧
    (∀ fuel m m' s s', sortroster getcnext setcnext compare fuel m s = some (m', s') →
      m'.next = m.next) ∧
    ∀ fuel m m' s s', sortroster getnext setnext compare fuel m s = some (m', s') →
      m'.cnext = m.cnext := by
  refine ⟨?_, fun fuel m m' s s' h => sortroster_keeps Rosters.next next_setcnext h,
    fun fuel m m' s s' h => sortroster_keeps Rosters.cnext cnext_setnext h⟩
  obtain ⟨l', hperm, hsorted, hrun⟩ := sortroster_spec order getcnext setcnext lists.roster
  -- the roster is linked anew, which changes neither students nor the links of the sections
  generalize hm₁ : relink setcnext c l' = m₁ at hrun
  have hstudent : m₁.student = c.student := by
    rw [← hm₁]
    exact relink_keeps Rosters.student isLink_cnext.student c l'
  have hnext : m₁.next = c.next := by
    rw [← hm₁]
    exact relink_keeps Rosters.next next_setcnext c l'
  have hsections : List.Forall₂ (Links m₁.next) c.sections ls := by
    rw [hnext]
    exact lists.sections
  obtain ⟨m', heads', ls', hsecs, hrun'⟩ := sortsections_spec order hsections lists.disjoint
  -- sorting the sections leaves the links of the roster
  have hroster : Links m'.cnext l'.head? l' := by
    rw [hsecs.cnext, ← hm₁]
    exact links_relink isLink_cnext c (hperm.nodup_iff.mpr lists.roster.nodup)
  have hkept : m'.student = c.student := hsecs.student.trans hstudent
  refine ⟨{ m' with roster := l'.head?, sections := heads' }, l', ls', ?_,
    ⟨hroster, hsecs.links, (flatten_perm hsecs.perm).nodup_iff.mpr lists.disjoint⟩, hkept, hperm,
    ?_, hsecs.perm, ?_⟩
  · intro fuel hfuel
    rw [sortrosters, hrun fuel (by omega), Option.bind_eq_bind, Option.bind_some]
    dsimp only
    rw [hrun' fuel (by omega)]
    rfl
  · dsimp only
    rw [hkept]
    exact hsorted
  · dsimp only
    rw [hkept, ← hstudent]
    exact hsecs.sorted

/-- Two students in one section, on the roster of the course in the other order. -/
def twoStudents : Rosters where
  student := fun p => ⟨[UInt8.ofNat p], [], [], [], 0⟩
  next := fun p => if p = 2 then some 1 else none
  cnext := fun p => if p = 1 then some 2 else none
  roster := some 1
  sections := [some 2]

theorem sortrosters_sorts_example :
    ∃ c' l', (∀ fuel, 9 ≤ fuel → sortrosters compareid fuel twoStudents = some c') ∧
      Links c'.cnext c'.roster l' ∧ l'.Perm [1, 2] := by
  have lists : twoStudents.Lists [1, 2] [[2, 1]] :=
    ⟨⟨rfl, rfl, rfl⟩, .cons ⟨rfl, rfl, rfl⟩ .nil, by decide⟩
  obtain ⟨⟨c', l', ls', hrun, hlists, -, hperm, -⟩, -⟩ :=
    sortrosters_sorts compareid_preorder lists
  exact ⟨c', l', hrun, hlists.roster, hperm⟩

end CLanguage.Grades
