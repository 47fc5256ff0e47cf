import CLanguage.Gradebook.Sound

/-!
# What is in the grammar is read

The other direction: with fuel enough, the readers accept the lines that the grammar
gives for a value, and deliver this value. The reader has lines before it
(`Has`), it takes the first one if it is asked for its keyword (`Has.read`), and
leaves it where it is if it is asked for another one (`Has.pass`).
-/

namespace CLanguage.Gradebook

open Lib Lib.Reporting Grades

variable {α β : Type} {s s' s₁ : Input} {i l key : Str} {prev ls more unread keys : List Str}
  {a : α}

/-- The lines of a text from the start of a record on. -/
structure Holds (i : Str) (ls unread : List Str) : Prop extends AtStart i where
  ended : Ended i
  lines : recordLines i = (ls, unread)

/-- The lines that the reader has before it in the file that it reads. -/
def Has (s : Input) (prev ls unread : List Str) : Prop := ∃ i, Before s i prev ∧ Holds i ls unread

/-- The first of the lines, if there is one, starts with one of the keywords. -/
def Starts (keys ls : List Str) : Prop :=
  ∀ l ∈ ls.head?, (firstWord l).1.length < 64 ∧ ∃ key ∈ keys, Keyed key l

theorem Holds.has (h : Holds i ls unread) (prev : List Str) : Has ⟨[], i, prev⟩ prev ls unread :=
  ⟨i, .inl rfl, h⟩

theorem starts_nil (keys : List Str) : Starts keys [] := fun _ hl => absurd hl nofun

theorem ReadAs.starts {x : Reader α} (h : ReadAs key x l a) (keys ls : List Str) :
    Starts (key :: keys) (l :: ls) := by
  rintro m hm
  obtain rfl := Option.some.inj hm
  exact ⟨h.short, key, List.mem_cons_self, h.keyed⟩

theorem Starts.mono {keys' : List Str} (h : Starts keys ls) (hsub : keys ⊆ keys') :
    Starts keys' ls := by
  intro l hl
  obtain ⟨hshort, key, hmem, hkey⟩ := h l hl
  exact ⟨hshort, key, hsub hmem, hkey⟩

/-- The first line of a text is complete if the text ends with white space. -/
theorem Holds.cases (h : Holds i ls unread) :
    ((firstWord i).1 = [] ∧ ls = []) ∨ ∃ l t ls', OnLine l ∧ i = l ++ 10 :: t ∧
      (firstWord l).1 ≠ [] ∧ ls = dropWhite l :: ls' ∧ Ended t ∧ recordLines t = (ls', unread) := by
  have hlines := h.lines
  obtain ⟨l, rest, rfl, hl, hrest⟩ := exists_line h.ascii
  by_cases hw : (firstWord l).1 = []
  · rw [recordLines_white hl hrest h.record hw] at hlines
    refine .inl ⟨?_, (Prod.mk.inj hlines).1.symm⟩
    rw [firstWord_append l hrest, hw]
  obtain rfl | ⟨t, rfl⟩ := hrest.2
  · have hended := h.ended
    rw [List.append_nil, ended_cut hl] at hended
    exact absurd ((firstWord_eq_nil hl).mpr hended) hw
  · rw [recordLines_line hl h.record hw] at hlines
    obtain ⟨rfl, rfl⟩ := Prod.mk.inj hlines
    exact .inr ⟨l, t, _, hl, rfl, hw, rfl, (ended_line hl).mp h.ended, rfl⟩

/-- Without lines, no word is left. -/
theorem Holds.no_word (h : Holds i [] unread) : (firstWord i).1 = [] := by
  obtain ⟨hw, -⟩ | ⟨m, t, ls', -, -, -, hnil, -⟩ := h.cases
  · exact hw
  · exact absurd hnil.symm (List.cons_ne_nil _ _)

/-- The lines of a text, once the blank ones before them are skipped. -/
theorem Ended.skip {t : Str} (ht : Ended t) (hlines : recordLines t = (ls, unread)) :
    ∃ t', skipBlanks t = .ok t' ∧ Holds t' ls unread := by
  obtain ⟨t', hskip⟩ := skipBlanks_ended ht
  obtain ⟨hrecord, hsuffix⟩ := skipBlanks_ok ht.1 hskip
  exact ⟨t', hskip, ⟨not_mem_of_suffix ht.1 hsuffix, hrecord⟩, (ended_skipBlanks ht.1 hskip).mpr ht,
    (recordLines_skipBlanks ht.1 hskip).symm.trans hlines⟩

/-- A record is read. -/
theorem Has.read {x : Reader α} (h : Has s prev (l :: ls) unread) (hl : ReadAs key x l a)
    (hx : EndsLine x) : ∃ s₁ i', Clean (checktoken key) s true s₁ ∧ Clean x s₁ a ⟨[], i', prev⟩ ∧
      Holds i' ls unread := by
  obtain ⟨i, hbefore, hi⟩ := h
  obtain ⟨-, hnil⟩ | ⟨m, t, ls', hm, rfl, hw, heq, ht, hlines⟩ := hi.cases
  · exact absurd hnil (List.cons_ne_nil _ _)
  obtain ⟨rfl, rfl⟩ := List.cons_eq_cons.mp heq
  have hrest : LineEnd (10 :: t) := lineEnd_newline ht.1
  obtain ⟨-, hshort, hkeyed, hclean⟩ := readAs_iff.mp hl
  rw [firstWord_dropWhite] at hshort hclean
  rw [keyed_dropWhite] at hkeyed
  obtain ⟨t', hskip, hholds⟩ := ht.skip hlines
  have hword := firstWord_append m hrest
  refine ⟨⟨[], (firstWord m).2 ++ 10 :: t, prev⟩, t', ?_, ?_, hholds⟩
  · refine (checktoken_before hi.ascii hbefore).mpr ⟨by rwa [hword], .inl ⟨rfl, ?_, by rw [hword]⟩⟩
    rwa [Keyed, hword]
  · have hsuffix := hm.suffix (firstWord_suffix m)
    exact (hx _ _ _ _ _ _ List.not_mem_nil hsuffix hrest).mpr ⟨t, t', rfl, hskip, rfl, hclean⟩

/-- A line with another keyword is left. -/
theorem Has.pass (h : Has s prev ls unread) (key : Str) (hstart : Starts keys ls)
    (hkey : key ∉ keys) : ∃ s', Clean (checktoken key) s false s' ∧ Has s' prev ls unread := by
  obtain ⟨i, hbefore, hi⟩ := h
  have hshort : (firstWord i).1.length < 64 ∧ ¬ Keyed key i := by
    obtain ⟨hw, rfl⟩ | ⟨m, t, ls', hm, rfl, hw, rfl, ht, -⟩ := hi.cases
    · exact ⟨by simp [hw], fun hk => hk.1 hw⟩
    · obtain ⟨hshort, key', hmem, hkey'⟩ := hstart _ rfl
      rw [firstWord_dropWhite] at hshort
      rw [keyed_dropWhite] at hkey'
      have hword := firstWord_append m (lineEnd_newline ht.1)
      refine ⟨by rwa [hword], fun hk => ?_⟩
      rw [Keyed, hword] at hk
      exact hkey (hkey'.unique hk ▸ hmem)
  exact ⟨lookahead i prev,
    (checktoken_before hi.ascii hbefore).mpr ⟨hshort.1, .inr ⟨rfl, hshort.2, rfl⟩⟩,
    i, .inr ⟨hshort.1, rfl⟩, hi⟩

/-! ## Scores, students and persons -/

/-- Blocks that start with a keyword. -/
theorem Starts.blocks {R : α → List Str → Prop} {as : List α} (h : Blocks R as ls)
    (hR : ∀ a ls, R a ls → ∃ l ls', ls = l :: ls' ∧ (firstWord l).1.length < 64 ∧ Keyed key l)
    (hmore : Starts keys more) : Starts (key :: keys) (ls ++ more) := by
  cases h with
  | nil => exact hmore.mono (List.subset_cons_self key keys)
  | cons hblock _ =>
    obtain ⟨l, ls', rfl, hshort, hkey⟩ := hR _ _ hblock
    rintro m hm
    obtain rfl := Option.some.inj hm
    exact ⟨hshort, key, List.mem_cons_self, hkey⟩

section Records

variable {as : List Assignment}

theorem readscores_settles {scores : List Score}
    (hscores : List.Forall₂ (fun score l => ReadAs Key.SCORE (scorerecord as) l score) scores ls)
    (h : Has s prev (ls ++ more) unread) (hmore : Starts keys more) (hkey : Key.SCORE ∉ keys) :
    ∃ s', Has s' prev more unread ∧ Settles (readscores as) s scores s' := by
  induction hscores generalizing s with
  | nil =>
    obtain ⟨s', hcheck, hs'⟩ := h.pass _ hmore hkey
    refine ⟨s', hs', .of_succ ?_⟩
    simp only [readscores_succ]
    exact hcheck.settles.bind (clean_pure.mpr ⟨rfl, rfl⟩).settles
  | cons hl _ ih =>
    obtain ⟨s₁, i', hcheck, hrecord, hi'⟩ := h.read hl (endsLine_scorerecord as)
    obtain ⟨s', hs', hrest⟩ := ih (hi'.has prev)
    refine ⟨s', hs', .of_succ ?_⟩
    simp only [readscores_succ]
    refine hcheck.settles.bind (hrecord.settles.bind (hrest.bind ?_))
    exact (clean_pure.mpr ⟨rfl, rfl⟩).settles

theorem StudentLines.head {st : Student} (h : StudentLines as st ls) : ∃ l ls', ls = l :: ls' ∧
    (firstWord l).1.length < 64 ∧ Keyed Key.STUDENT l := by
  obtain ⟨l, ls', rfl, hl, -⟩ := h
  exact ⟨l, ls', rfl, hl.short, hl.keyed⟩

theorem readstudents_settles {roster : List Student} (hroster : Blocks (StudentLines as) roster ls)
    (h : Has s prev (ls ++ more) unread) (hmore : Starts keys more) (hkey : Key.STUDENT ∉ keys)
    (hkey' : Key.SCORE ∉ keys) :
    ∃ s', Has s' prev more unread ∧ Settles (readstudents as) s roster s' := by
  induction hroster generalizing s with
  | nil =>
    obtain ⟨s', hcheck, hs'⟩ := h.pass _ hmore hkey
    refine ⟨s', hs', .of_succ ?_⟩
    simp only [readstudents_succ]
    exact hcheck.settles.bind (clean_pure.mpr ⟨rfl, rfl⟩).settles
  | @cons st roster _ ls' hstudent hroster ih =>
    obtain ⟨l, lscores, rfl, hl, hscores⟩ := hstudent
    rw [List.cons_append, List.cons_append, List.append_assoc] at h
    obtain ⟨s₁, i', hcheck, hrecord, hi'⟩ := h.read hl endsLine_studentrecord
    have hnext : Starts (Key.STUDENT :: keys) (ls' ++ more) :=
      .blocks hroster (fun _ _ hst => hst.head) hmore
    -- the scores end at the next student or at what follows the roster
    have hno : Key.SCORE ∉ Key.STUDENT :: keys := by
      rw [List.mem_cons, not_or]
      exact ⟨by decide, hkey'⟩
    obtain ⟨s₂, hs₂, hscores⟩ := readscores_settles hscores (hi'.has prev) hnext hno
    obtain ⟨s', hs', hrest⟩ := ih hs₂
    refine ⟨s', hs', .of_succ ?_⟩
    simp only [readstudents_succ]
    refine hcheck.settles.bind (hrecord.settles.bind (hscores.bind (hrest.bind ?_)))
    exact (clean_pure.mpr ⟨rfl, rfl⟩).settles

theorem readperson_clean {p : Option Person} (hp : PersonLine key p ls)
    (h : Has s prev (ls ++ more) unread) (hmore : Starts keys more) (hkey : key ∉ keys) :
    ∃ s', Has s' prev more unread ∧ Clean (readperson key) s p s' := by
  rw [readperson_eq]
  cases p with
  | none =>
    obtain rfl : ls = [] := hp
    obtain ⟨s', hcheck, hs'⟩ := h.pass _ hmore hkey
    exact ⟨s', hs', hcheck.bind (clean_pure.mpr ⟨rfl, rfl⟩)⟩
  | some p =>
    obtain ⟨l, rfl, hl⟩ := hp
    obtain ⟨s₁, i', hcheck, hrecord, hi'⟩ := h.read hl endsLine_personrecord
    exact ⟨_, hi'.has prev, hcheck.bind (hrecord.bind (clean_pure.mpr ⟨rfl, rfl⟩))⟩

theorem Starts.person {p : Option Person} (hp : PersonLine key p ls) (hmore : Starts keys more) :
    Starts (key :: keys) (ls ++ more) := by
  cases p with
  | none =>
    obtain rfl : ls = [] := hp
    exact hmore.mono (List.subset_cons_self key keys)
  | some p =>
    obtain ⟨l, rfl, hl⟩ := hp
    exact hl.starts keys more

/-! ## Assignments -/

theorem readnorm_refines {n m : ℕ} (h : n ≤ m) (found : Bool) (b : Assignment) :
    Refines (readnorm found b n) (readnorm found b m) := by
  induction n generalizing m found b with
  | zero => exact Refines.stop _ _
  | succ n ih =>
    cases m with
    | zero => exact absurd h (Nat.not_succ_le_zero n)
    | succ m =>
      have hrest (found : Bool) (b : Assignment) := ih (Nat.le_of_succ_le_succ h) found b
      rw [readnorm, readnorm]
      refine (Refines.refl _).bind fun _ => .ite (hrest _ _) ?_
      refine (Refines.refl _).bind fun _ => .ite (hrest _ _) ?_
      refine (Refines.refl _).bind fun _ => .ite ?_ ?_
      · exact (Refines.refl _).bind fun _ => (Refines.refl _).bind fun _ =>
          (Refines.refl _).bind fun _ => (Refines.refl _).bind fun _ => hrest _ _
      refine (Refines.refl _).bind fun _ => .ite (hrest _ _) ?_
      refine (Refines.refl _).bind fun _ => .ite ?_ ?_
      · exact (Refines.refl _).bind fun _ => (Refines.refl _).bind fun _ => hrest _ _
      refine (Refines.refl _).bind fun _ => .ite (hrest _ _) ?_
      refine (Refines.refl _).bind fun _ => .ite (hrest _ _) ?_
      exact Refines.refl _

theorem readnorm_settles {b c : Assignment} {n : ℕ} (h : Clean (normrecord b n) s c s') :
    Settles (normrecord b) s c s' :=
  ⟨n, fun _ hm => ((readnorm_refines hm false b).bind fun _ => Refines.refl _) s c s' h⟩

/-- The keywords of the lines behind an assignment. -/
def clauseKeys : List Str := [Key.WEIGHT, Key.NORMALIZE, Key.MAXIMUM]

theorem readclauses_settles {b c : Assignment} (hc : Clauses b ls c)
    (h : Has s prev (ls ++ more) unread) (hmore : Starts keys more)
    (hkeys : ∀ key ∈ clauseKeys, key ∉ keys) :
    ∃ s', Has s' prev more unread ∧ Settles (readclauses b) s c s' := by
  induction hc generalizing s with
  | nil =>
    -- the loop asks for all three keywords before it ends
    obtain ⟨s₁, hcheck₁, hs₁⟩ := h.pass Key.WEIGHT hmore (hkeys _ (by decide))
    obtain ⟨s₂, hcheck₂, hs₂⟩ := hs₁.pass Key.NORMALIZE hmore (hkeys _ (by decide))
    obtain ⟨s₃, hcheck₃, hs₃⟩ := hs₂.pass Key.MAXIMUM hmore (hkeys _ (by decide))
    refine ⟨s₃, hs₃, .of_succ ?_⟩
    simp only [readclauses_succ]
    refine hcheck₁.settles.bind (hcheck₂.settles.bind (hcheck₃.settles.bind ?_))
    exact (clean_pure.mpr ⟨rfl, rfl⟩).settles
  | cons hl _ ih =>
    rw [List.cons_append] at h
    obtain hl | ⟨n, hl⟩ | hl := hl
    · obtain ⟨s₁, i', hcheck, hrecord, hi'⟩ := h.read hl (endsLine_weightrecord _)
      obtain ⟨s', hs', hrest⟩ := ih (hi'.has prev)
      refine ⟨s', hs', .of_succ ?_⟩
      simp only [readclauses_succ]
      exact hcheck.settles.bind (hrecord.settles.bind hrest)
    · obtain ⟨s₁, hcheck₁, hs₁⟩ := h.pass Key.WEIGHT (hl.starts [] _) (by decide)
      obtain ⟨s₂, i', hcheck, hrecord, hi'⟩ := hs₁.read hl (endsLine_normrecord _ _)
      obtain ⟨s', hs', hrest⟩ := ih (hi'.has prev)
      refine ⟨s', hs', .of_succ ?_⟩
      simp only [readclauses_succ]
      exact hcheck₁.settles.bind (hcheck.settles.bind ((readnorm_settles hrecord).bind hrest))
    · obtain ⟨s₁, hcheck₁, hs₁⟩ := h.pass Key.WEIGHT (hl.starts [] _) (by decide)
      obtain ⟨s₂, hcheck₂, hs₂⟩ := hs₁.pass Key.NORMALIZE (hl.starts [] _) (by decide)
      obtain ⟨s₃, i', hcheck, hrecord, hi'⟩ := hs₂.read hl (endsLine_maxrecord _)
      obtain ⟨s', hs', hrest⟩ := ih (hi'.has prev)
      refine ⟨s', hs', .of_succ ?_⟩
      simp only [readclauses_succ]
      exact hcheck₁.settles.bind (hcheck₂.settles.bind (hcheck.settles.bind
        (hrecord.settles.bind hrest)))

theorem AssignmentLines.head {b : Assignment} (h : AssignmentLines b ls) : ∃ l ls', ls = l :: ls' ∧
    (firstWord l).1.length < 64 ∧ Keyed Key.ASSIGNMENT l := by
  obtain ⟨l, ls', b₀, rfl, hl, -⟩ := h
  exact ⟨l, ls', rfl, hl.short, hl.keyed⟩

theorem readassignments_settles (has : Blocks AssignmentLines as ls)
    (h : Has s prev (ls ++ more) unread) (hmore : Starts keys more) (hkey : Key.ASSIGNMENT ∉ keys)
    (hkeys : ∀ key ∈ clauseKeys, key ∉ keys) :
    ∃ s', Has s' prev more unread ∧ Settles readassignments s as s' := by
  induction has generalizing s with
  | nil =>
    obtain ⟨s', hcheck, hs'⟩ := h.pass _ hmore hkey
    refine ⟨s', hs', .of_succ ?_⟩
    simp only [readassignments_succ]
    exact hcheck.settles.bind (clean_pure.mpr ⟨rfl, rfl⟩).settles
  | @cons b as _ ls' hb has ih =>
    obtain ⟨l, lclauses, b₀, rfl, hl, hclauses⟩ := hb
    rw [List.cons_append, List.cons_append, List.append_assoc] at h
    obtain ⟨s₁, i', hcheck, hrecord, hi'⟩ := h.read hl endsLine_assignmentrecord
    have hnext : Starts (Key.ASSIGNMENT :: keys) (ls' ++ more) :=
      .blocks has (fun _ _ hb => hb.head) hmore
    -- the clauses end at the next assignment or at what follows all of them
    have hno : ∀ key ∈ clauseKeys, key ∉ Key.ASSIGNMENT :: keys := by
      have hne : ∀ key ∈ clauseKeys, key ≠ Key.ASSIGNMENT := by decide
      intro key hmem
      rw [List.mem_cons, not_or]
      exact ⟨hne key hmem, hkeys key hmem⟩
    obtain ⟨s₂, hs₂, hclauses⟩ := readclauses_settles hclauses (hi'.has prev) hnext hno
    obtain ⟨s', hs', hrest⟩ := ih hs₂
    refine ⟨s', hs', .of_succ ?_⟩
    simp only [readassignments_succ]
    refine hcheck.settles.bind (hrecord.settles.bind (hclauses.bind (hrest.bind ?_)))
    exact (clean_pure.mpr ⟨rfl, rfl⟩).settles

/-! ## Sections -/

section Sections

variable {files : Str → Option Str} {ss : List Section} {j : Str}

theorem Has.no_word (h : Has s prev [] unread) : ∃ i, Stands s i prev ∧ (firstWord i).1 = [] := by
  obtain ⟨i, hbefore, hi⟩ := h
  exact ⟨i, ⟨hi.toAtStart, hbefore⟩, hi.no_word⟩

/-- Behind the last line of a file the file below it goes on. -/
theorem Has.settles_pop (h : Has s (j :: prev) [] unread)
    (hrun : Settles (readsections files as) ⟨[], j, prev⟩ ss s') :
    Settles (readsections files as) s ss s' := by
  obtain ⟨i, hs, hw⟩ := h.no_word
  obtain ⟨n, hn⟩ := hrun
  refine .of_succ ⟨n, fun m hm => ?_⟩
  exact (readsections_pop hs hw).mpr (hn (m + 1) (Nat.le_succ_of_le hm))

/-- Where there is a line, the loop over the files does nothing. -/
theorem Has.settles_blocks (files : Str → Option Str) (as : List Assignment)
    (h : Has s prev (l :: ls) unread) (hstart : Starts keys (l :: ls)) :
    ∃ s₁, Has s₁ prev (l :: ls) unread ∧ ∀ ss s', Settles (readblocks as files) s₁ ss s' →
      Settles (readsections files as) s ss s' := by
  obtain ⟨i, hbefore, hi⟩ := h
  obtain ⟨-, hnil⟩ | ⟨m, t, ls', -, rfl, hw, heq, ht, -⟩ := hi.cases
  · exact absurd hnil (List.cons_ne_nil _ _)
  obtain ⟨rfl, rfl⟩ := List.cons_eq_cons.mp heq
  obtain ⟨hshort, -⟩ := hstart _ rfl
  have hword := firstWord_append m (lineEnd_newline ht.1)
  rw [firstWord_dropWhite] at hshort
  have hshort' : (firstWord (m ++ 10 :: t)).1.length < 64 := by rwa [hword]
  refine ⟨lookahead (m ++ 10 :: t) prev, ⟨_, .inr ⟨hshort', rfl⟩, hi⟩, fun ss s' hrun => ?_⟩
  obtain ⟨n, hn⟩ := hrun
  refine .of_succ ⟨n, fun k hk => ?_⟩
  exact (readsections_word ⟨hi.toAtStart, hbefore⟩ (by rwa [hword])).mpr ⟨hshort', hn k hk⟩

theorem readblocks_file (as : List Assignment) {name text t : Str} (h : Has s prev (l :: ls) unread)
    (hl : ReadAs Key.FILE readname l name) (hfile : files name = some text)
    (hskip : skipBlanks text = .ok t) : ∃ i', Holds i' ls unread ∧ ∀ ss s',
      Settles (readsections files as) ⟨[], t, i' :: prev⟩ ss s' →
        Settles (readblocks as files) s ss s' := by
  obtain ⟨s₁, i', hcheck, hname, hi'⟩ := h.read hl endsLine_readname
  refine ⟨i', hi', fun ss s' hrun => ?_⟩
  have hopen : Clean (openfile files name) ⟨[], i', prev⟩ () ⟨[], t, i' :: prev⟩ :=
    clean_openfile.mpr ⟨text, t, hfile, hskip, rfl⟩
  exact hcheck.settles.bind (hname.settles.bind (hopen.settles.bind hrun))

/-- The keywords of the lines that end a section. -/
def fileKeys : List Str := [Key.SECTION, Key.FILE]

theorem readblocks_section {sec : Section} (hsec : SectionLines as sec ls)
    (h : Has s prev (ls ++ more) unread) (hmore : Starts fileKeys more) :
    ∃ s₁, Has s₁ prev more unread ∧ ∀ ss s', Settles (readsections files as) s₁ ss s' →
      Settles (readblocks as files) s (sec :: ss) s' := by
  obtain ⟨l, la, ls', rfl, hl, hassistant, hroster⟩ := hsec
  obtain ⟨s₁, hcheck₁, hs₁⟩ := h.pass Key.FILE (hl.starts [] _) (by decide)
  rw [List.cons_append, List.append_assoc] at hs₁
  obtain ⟨s₂, i', hcheck, hname, hi'⟩ := hs₁.read hl endsLine_readname
  have hstudents : Starts (Key.STUDENT :: fileKeys) (ls' ++ more) :=
    .blocks hroster (fun _ _ hst => hst.head) hmore
  obtain ⟨s₃, hs₃, hassistant⟩ := readperson_clean hassistant (hi'.has prev) hstudents (by decide)
  obtain ⟨s₄, hs₄, hroster⟩ := readstudents_settles hroster hs₃ hmore (by decide) (by decide)
  refine ⟨s₄, hs₄, fun ss s' hrun => ?_⟩
  refine hcheck₁.settles.bind (hcheck.settles.bind (hname.settles.bind ?_))
  refine Settles.bind (x := fun _ => readassistant) hassistant.settles (hroster.bind (hrun.bind ?_))
  exact (clean_pure.mpr ⟨rfl, rfl⟩).settles

/-- The first line of a file. -/
theorem FileLines.starts (h : FileLines files as ss ls) : Starts fileKeys ls := by
  cases h with
  | nil => exact starts_nil _
  | «section» hsection _ =>
    obtain ⟨l, la, ls', rfl, hl, -⟩ := hsection
    exact hl.starts _ _
  | file hl _ _ _ => exact (hl.starts [] _).mono (by simp [fileKeys])

theorem FileLines.settles (hfiles : ∀ name text, files name = some text → Ended text)
    (h : FileLines files as ss ls) (hs : Has s prev ls unread) :
    ∃ s₁, Has s₁ prev [] unread ∧ ∀ rest s', Settles (readsections files as) s₁ rest s' →
      Settles (readsections files as) s (ss ++ rest) s' := by
  induction h generalizing s prev unread with
  | nil => exact ⟨s, hs, fun rest s' hrun => hrun⟩
  | @«section» sec ss lsec ls' hsection hrest ih =>
    obtain ⟨l, lsec, rfl⟩ : ∃ l lsec', lsec = l :: lsec' := by
      obtain ⟨l, la, lr, rfl, -⟩ := hsection
      exact ⟨l, _, rfl⟩
    have hstart := (FileLines.section hsection hrest).starts
    obtain ⟨s₁, hs₁, hblocks⟩ := hs.settles_blocks files as hstart
    obtain ⟨s₂, hs₂, hsec⟩ := readblocks_section hsection hs₁ hrest.starts
    obtain ⟨s₃, hs₃, hmore⟩ := ih hs₂
    exact ⟨s₃, hs₃, fun rest s' hrun => hblocks _ _ (hsec _ _ (hmore rest s' hrun))⟩
  | @file ss ss' l name text ls' hl hfile hinner hrest ih ih' =>
    have htext := hfiles name text hfile
    obtain ⟨t, hskip, ht⟩ := htext.skip rfl
    obtain ⟨s₁, hs₁, hblocks⟩ := hs.settles_blocks files as (hl.starts [] ls')
    obtain ⟨i', hi', hopen⟩ := readblocks_file as hs₁ hl hfile hskip
    -- the lines of the file, and then those behind its name
    obtain ⟨s₂, hs₂, hinside⟩ := ih (ht.has (i' :: prev))
    obtain ⟨s₃, hs₃, hbehind⟩ := ih' (hi'.has prev)
    refine ⟨s₃, hs₃, fun rest s' hrun => hblocks _ _ (hopen _ _ ?_)⟩
    rw [List.append_assoc]
    exact hinside _ _ (hs₂.settles_pop (hbehind rest s' hrun))

/-! ## The root -/

theorem Holds.eq_nil (h : Holds i [] []) : i = [] := by
  have hlines := h.lines
  have hw := h.no_word
  obtain ⟨l, rest, rfl, hl, hrest⟩ := exists_line h.ascii
  rw [firstWord_append l hrest] at hw
  rw [recordLines_white hl hrest h.record hw] at hlines
  split_ifs at hlines with hnil
  · rcases hrest.2 with rfl | ⟨t, rfl⟩
    · rw [hnil, List.append_nil]
    · exact absurd rfl (h.record 10 (by rw [hnil]; rfl)).2
  · exact absurd (Prod.mk.inj hlines).2 (List.cons_ne_nil _ _)

/-- What is left of the root is skipped. -/
theorem Holds.skip_rest (h : Holds i [] unread) (hclosed : Closed unread) :
    skipBlanks (dropWhite i) = .ok [] := by
  have hlines := h.lines
  have hw := h.no_word
  obtain ⟨l, rest, rfl, hl, hrest⟩ := exists_line h.ascii
  rw [firstWord_append l hrest] at hw
  rw [recordLines_white hl hrest h.record hw] at hlines
  rw [dropWhite_append l hrest, (firstWord_eq_nil hl).mp hw, List.nil_append]
  rcases hrest.2 with rfl | ⟨t, rfl⟩
  · rfl
  obtain ⟨-, rfl⟩ := Prod.mk.inj hlines
  have hne : l ≠ [] := by
    rintro rfl
    exact (h.record 10 rfl).2 rfl
  rw [if_neg hne] at hclosed
  obtain hnil | ⟨_, _, heq, -, hscan⟩ := hclosed
  · exact absurd hnil (List.cons_ne_nil _ _)
  obtain ⟨-, rfl⟩ := List.cons_eq_cons.mp heq
  have ht := (ended_line hl).mp h.ended
  have hdrop := (ended_dropWhite ht.1).mpr ht
  -- the lines behind are read like those behind an empty line
  have hnone : recordLines (dropWhite t) = ([], []) := (scanLines_lines ht.1).symm.trans hscan
  obtain ⟨t', hskip, hend⟩ := hdrop.skip hnone
  rw [skipBlanks_newline ht.1, hskip, hend.eq_nil]

theorem readcourse_settles (hfiles : ∀ name text, files name = some text → Ended text) {c : Course}
    (hc : CourseLines files c ls) (h : Has s [] ls unread) :
    ∃ i, (firstWord i).1 = [] ∧ Holds i [] unread ∧ Settles (readcourse files) s c (lookahead i []) := by
  obtain ⟨header, lbody, rfl, ⟨l, lp, la, rfl, hl, hprofessor, has⟩, hbody⟩ := hc
  rw [List.cons_append, List.append_assoc] at h
  obtain ⟨s₁, i₁, hcheck, hrecord, hi₁⟩ := h.read hl endsLine_courserecord
  have hassignments : Starts (Key.ASSIGNMENT :: fileKeys) (la ++ lbody) :=
    .blocks has (fun _ _ hb => hb.head) hbody.starts
  obtain ⟨s₂, hs₂, hprofessor⟩ :=
    readperson_clean hprofessor (hi₁.has []) hassignments (by decide)
  obtain ⟨s₃, hs₃, has⟩ := readassignments_settles has hs₂ hbody.starts (by decide) (by decide)
  obtain ⟨s₄, ⟨i, hbefore, hi⟩, hsections⟩ := hbody.settles hfiles hs₃
  have hw := hi.no_word
  -- no file is open above the root, so that the sections end there
  have hroot : Settles (readsections files c.assignments) s₄ [] (lookahead i []) := by
    refine .of_succ ⟨0, fun n _ => ?_⟩
    exact (readsections_root ⟨hi.toAtStart, hbefore⟩ hw).mpr ⟨rfl, rfl⟩
  have hsections := hsections [] _ hroot
  rw [List.append_nil] at hsections
  refine ⟨i, hw, hi, ?_⟩
  have hcourse : Clean (expecttoken Key.COURSE) s () s₁ := clean_expecttoken.mpr hcheck
  change Settles (fun n => readcourse files n) s c _
  simp only [readcourse_eq]
  refine hcourse.settles.bind (hrecord.settles.bind ?_)
  refine Settles.bind (x := fun _ => readprofessor) hprofessor.settles ?_
  exact has.bind (hsections.bind (clean_pure.mpr ⟨rfl, rfl⟩).settles)

/-- A text in the grammar is accepted, and read as what the grammar says. -/
theorem readroot_settles (hfiles : ∀ name text, files name = some text → Ended text) {text : Str}
    (htext : Ended text) {c : Course} (hc : CourseLines files c (recordLines text).1)
    (hclosed : Closed (recordLines text).2) :
    ∃ s', Settles (readroot files) ⟨[], text, []⟩ c s' := by
  obtain ⟨t, hskip, ht⟩ := htext.skip rfl
  obtain ⟨i, hw, hi, hcourse⟩ := readcourse_settles hfiles hc (ht.has [])
  have hblank : Clean gobbleblanklines ⟨[], text, []⟩ () ⟨[], t, []⟩ :=
    clean_gobbleblanklines.mpr (.inr ⟨rfl, t, hskip, rfl⟩)
  have hrest : Clean gobbleblanklines (lookahead i []) () ⟨[], [], []⟩ := by
    refine clean_gobbleblanklines.mpr (.inr ⟨lookahead_token.mpr hw, [], ?_, ?_⟩)
    · rw [show (lookahead i []).input = dropWhite i from firstWord_rest hw]
      exact hi.skip_rest hclosed
    · rw [lookahead_token.mpr hw]
      rfl
  have heof : Clean expecteof ⟨[], [], []⟩ () ⟨[], [], []⟩ :=
    clean_expecteof.mpr ⟨rfl, rfl, [], rfl, rfl⟩
  refine ⟨⟨[], [], []⟩, ?_⟩
  exact hblank.settles.bind (hcourse.bind (hrest.settles.bind (heof.settles.bind
    (clean_pure.mpr ⟨rfl, rfl⟩).settles)))

end Sections

end Records

end CLanguage.Gradebook
