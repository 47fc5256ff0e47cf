import CLanguage.Gradebook.Grammar

/-!
# One token ahead

Between two records the reader stands at the start of a line, and may have read its
first token already (`Stands`). What a keyword then decides is decided by the line
(`checktoken_stands`), and reading a record takes the first of the lines that are left
(`Stands.record`, `Stands.read`).
-/

namespace CLanguage.Gradebook

open Lib Lib.Reporting Grades

variable {α β : Type} {s s' s₁ : Input} {i l rest key : Str} {prev : List Str} {b : Bool} {a : α}

/-- The first token has been read. -/
def lookahead (i : Str) (prev : List Str) : Input :=
  ⟨terminated (firstWord i).1, (firstWord i).2, prev⟩

/-- The reader is before `i`, and may have read the first token of it. -/
def Before (s : Input) (i : Str) (prev : List Str) : Prop :=
  s = ⟨[], i, prev⟩ ∨ ((firstWord i).1.length < 64 ∧ s = lookahead i prev)

/-- The text starts with a record, or it is at its end. -/
structure AtStart (i : Str) : Prop where
  ascii : 255 ∉ i
  record : AtRecord i

/-- The reader is at the start of a record or at the end of the file. -/
structure Stands (s : Input) (i : Str) (prev : List Str) : Prop extends AtStart i where
  before : Before s i prev

theorem AtStart.stands (h : AtStart i) (prev : List Str) : Stands ⟨[], i, prev⟩ i prev :=
  ⟨h, .inl rfl⟩

/-! ## Keywords -/

theorem advancetoken_ascii (h : 255 ∉ i) {u : Unit} : Clean advancetoken ⟨[], i, prev⟩ u s' ↔
    (firstWord i).1.length < 64 ∧ s' = lookahead i prev := by
  rw [clean_advancetoken, skipWhitespace_eq h,
    takeToken_eq (not_mem_of_suffix h (dropWhite_suffix i))]
  exact and_iff_right rfl

theorem terminated_eq_nil {w : Str} : terminated w = [] ↔ w = [] := by
  rw [terminated]
  split_ifs with hw
  · exact iff_of_true rfl hw
  · simp [hw]

theorem cstr_append_null (w : Str) : cstr (w ++ [0]) = cstr w := by
  induction w with
  | nil => rfl
  | cons b w ih =>
    rw [List.cons_append, cstr, cstr, List.takeWhile_cons, List.takeWhile_cons]
    split
    · exact congrArg (b :: ·) ih
    · rfl

theorem cstr_terminated (w : Str) : cstr (terminated w) = cstr w := by
  rw [terminated]
  split_ifs with hw
  · rw [hw]
  · exact cstr_append_null w

theorem firstWord_rest (h : (firstWord i).1 = []) : (firstWord i).2 = dropWhite i := by
  rw [firstWord] at h ⊢
  rcases hd : dropWhite i with _ | ⟨b, u⟩
  · rfl
  · rw [hd, List.takeWhile_cons] at h
    rw [List.dropWhile_cons]
    split_ifs at h ⊢
    rfl

theorem needtoken_before (h : 255 ∉ i) (hs : Before s i prev) {u : Unit} :
    Clean needtoken s u s' ↔ (firstWord i).1.length < 64 ∧ s' = lookahead i prev := by
  rw [clean_needtoken]
  obtain rfl | ⟨hshort, rfl⟩ := hs
  · rw [advancetoken_ascii h]
    simp
  · by_cases hw : (firstWord i).1 = []
    · have hnil : lookahead i prev = ⟨[], (firstWord i).2, prev⟩ := by
        rw [lookahead, terminated_eq_nil.mpr hw]
      have hsame : lookahead (firstWord i).2 prev = lookahead i prev := by
        rw [lookahead, firstWord_rest hw, firstWord_dropWhite]
        rfl
      have hascii : 255 ∉ (firstWord i).2 := not_mem_of_suffix h (firstWord_suffix i)
      rw [hnil, advancetoken_ascii hascii, hsame, hnil, firstWord_rest hw, firstWord_dropWhite]
      simp
    · have hne : (lookahead i prev).token ≠ [] := mt terminated_eq_nil.mp hw
      simp [hne, hshort]

/-- What `checktoken` answers and does. -/
theorem checktoken_before (h : 255 ∉ i) (hs : Before s i prev) : Clean (checktoken key) s b s' ↔
    (firstWord i).1.length < 64 ∧ ((b = true ∧ Keyed key i ∧ s' = ⟨[], (firstWord i).2, prev⟩) ∨
      (b = false ∧ ¬ Keyed key i ∧ s' = lookahead i prev)) := by
  have htoken : ((lookahead i prev).token ≠ [] ∧ cstr (lookahead i prev).token = key) ↔
      Keyed key i := by
    rw [Keyed, lookahead, cstr_terminated, ne_eq, terminated_eq_nil]
  rw [clean_checktoken]
  simp only [needtoken_before h hs]
  constructor
  · rintro ⟨s₁, ⟨hshort, rfl⟩, hcase⟩
    rw [htoken] at hcase
    exact ⟨hshort, hcase⟩
  · rintro ⟨hshort, hcase⟩
    refine ⟨_, ⟨hshort, rfl⟩, ?_⟩
    rw [htoken]
    exact hcase

/-! ## Records -/

theorem keyed_dropWhite : Keyed key (dropWhite l) ↔ Keyed key l := by
  rw [Keyed, firstWord_dropWhite]
  rfl

/-- What a line alone is read as, behind its keyword. -/
theorem readAs_iff {x : Reader α} : ReadAs key x l a ↔ OnLine l ∧ (firstWord l).1.length < 64 ∧
    Keyed key l ∧ Clean x ⟨[], (firstWord l).2 ++ [10], []⟩ a ⟨[], [], []⟩ := by
  refine and_congr_right fun hl => ?_
  have hrest : LineEnd [10] := lineEnd_newline List.not_mem_nil
  have hbefore : Before ⟨[], l ++ [10], []⟩ (l ++ [10]) [] := .inl rfl
  have hkey : Keyed key (l ++ [10]) ↔ Keyed key l := by
    rw [Keyed, firstWord_append l hrest]
    rfl
  rw [clean_seq]
  simp only [clean_expecttoken, checktoken_before (hl.ascii_append hrest) hbefore,
    firstWord_append l hrest, hkey]
  constructor
  · rintro ⟨s₁, ⟨hshort, ⟨-, hkeyed, rfl⟩ | ⟨hfalse, -⟩⟩, hx⟩
    · exact ⟨hshort, hkeyed, hx⟩
    · exact absurd hfalse nofun
  · rintro ⟨hshort, hkeyed, hx⟩
    exact ⟨_, ⟨hshort, .inl ⟨trivial, hkeyed, rfl⟩⟩, hx⟩

theorem ReadAs.keyed {x : Reader α} (h : ReadAs key x l a) : Keyed key l := (readAs_iff.mp h).2.2.1

theorem ReadAs.short {x : Reader α} (h : ReadAs key x l a) : (firstWord l).1.length < 64 :=
  (readAs_iff.mp h).2.1

theorem ReadAs.unique {x : Reader α} {a' : α} (h : ReadAs key x l a) (h' : ReadAs key x l a') :
    a = a' := (h.2.unique h'.2).1

theorem Keyed.unique {key' : Str} (h : Keyed key l) (h' : Keyed key' l) : key = key' :=
  h.2.symm.trans h'.2

/-- A record is read off the first of the lines. -/
theorem Stands.record_line (hs : Stands s i prev) {x : Reader α} (hx : EndsLine x)
    (hkey : Clean (checktoken key) s true s₁) (hrun : Clean x s₁ a s') :
    ∃ l i', AtStart i' ∧ s' = ⟨[], i', prev⟩ ∧ (Ended i' → Ended i) ∧
      recordLines i = (l :: (recordLines i').1, (recordLines i').2) ∧ ReadAs key x l a := by
  obtain ⟨hshort, ⟨-, hkeyed, rfl⟩ | ⟨hfalse, -⟩⟩ := (checktoken_before hs.ascii hs.before).mp hkey
  swap
  · exact absurd hfalse nofun
  obtain ⟨l, rest, rfl, hl, hrest⟩ := exists_line hs.ascii
  rw [Keyed, firstWord_append l hrest] at hkeyed
  rw [firstWord_append l hrest] at hshort hrun
  obtain ⟨t, t', rfl, hskip, rfl, halone⟩ :=
    (hx _ _ _ _ _ _ List.not_mem_nil (hl.suffix (firstWord_suffix l)) hrest).mp hrun
  have ht : 255 ∉ t := fun hb => hrest.1 (List.mem_cons_of_mem _ hb)
  obtain ⟨hrecord, hsuffix⟩ := skipBlanks_ok ht hskip
  refine ⟨dropWhite l, t', ⟨not_mem_of_suffix ht hsuffix, hrecord⟩, rfl, ?_, ?_, ?_⟩
  · exact fun hend => (ended_line hl).mpr ((ended_skipBlanks ht hskip).mp hend)
  · rw [recordLines_line hl hs.record hkeyed.1, recordLines_skipBlanks ht hskip]
  · refine readAs_iff.mpr ⟨hl.suffix (dropWhite_suffix l), ?_, keyed_dropWhite.mpr hkeyed, ?_⟩
    · rwa [firstWord_dropWhite]
    · rwa [firstWord_dropWhite]

/-- Without the keyword nothing is taken. -/
theorem Stands.no_record (hs : Stands s i prev) (hkey : Clean (checktoken key) s false s') :
    Stands s' i prev ∧ s' = lookahead i prev ∧ ¬ Keyed key i := by
  obtain ⟨hshort, ⟨hfalse, -⟩ | ⟨-, hkeyed, rfl⟩⟩ := (checktoken_before hs.ascii hs.before).mp hkey
  · exact absurd hfalse nofun
  · exact ⟨⟨hs.toAtStart, .inr ⟨hshort, rfl⟩⟩, rfl, hkeyed⟩

/-- No record is left where there is no token. -/
theorem AtStart.recordLines_eq_nil (h : AtStart i) (hw : (firstWord i).1 = []) :
    (recordLines i).1 = [] := by
  obtain ⟨l, rest, rfl, hl, hrest⟩ := exists_line h.ascii
  rw [firstWord_append l hrest] at hw
  rw [recordLines_white hl hrest h.record hw]

theorem Stands.ascii_input (hs : Stands s i prev) : 255 ∉ s.input := by
  obtain rfl | ⟨-, rfl⟩ := hs.before
  · exact hs.ascii
  · exact not_mem_of_suffix hs.ascii (firstWord_suffix i)

/-! ## The keywords of lines -/

/-- A line that is skipped has no keyword, as these are no comments. -/
theorem Keyed.not_skipped (h : Keyed key l) (hkey : key.head? ≠ some 35) : ¬ Skipped l := by
  obtain ⟨hne, rfl⟩ := h
  rintro (hnil | hcomment)
  · exact hne hnil
  · refine hkey ?_
    rcases hw : (firstWord l).1 with _ | ⟨b, w⟩
    · exact absurd hw hne
    · rw [hw, List.head?_cons, Option.some.injEq] at hcomment
      rw [cstr, hcomment]
      rfl

theorem PersonLine.keyed {p : Option Person} {ls : List Str} (h : PersonLine key p ls) :
    ∀ l ∈ ls, Keyed key l := by
  cases p with
  | none =>
    rw [show ls = [] from h]
    exact List.forall_mem_nil _
  | some p =>
    obtain ⟨l, rfl, hl⟩ := h
    exact List.forall_mem_singleton.mpr hl.keyed

theorem Clause.keyed {b c : Assignment} (h : Clause b l c) :
    ∃ key ∈ [Key.WEIGHT, Key.NORMALIZE, Key.MAXIMUM], Keyed key l := by
  obtain h | ⟨n, h⟩ | h := h
  · exact ⟨_, by simp, h.keyed⟩
  · exact ⟨_, by simp, h.keyed⟩
  · exact ⟨_, by simp, h.keyed⟩

theorem Clauses.keyed {b c : Assignment} {ls : List Str} (h : Clauses b ls c) :
    ∀ l ∈ ls, ∃ key ∈ [Key.WEIGHT, Key.NORMALIZE, Key.MAXIMUM], Keyed key l := by
  induction h with
  | nil => exact List.forall_mem_nil _
  | cons hl _ ih => exact List.forall_mem_cons.mpr ⟨hl.keyed, ih⟩

theorem HeaderLines.keyed {c : Course} {ls : List Str} (h : HeaderLines c ls) :
    ∀ l ∈ ls, ∃ key ∈ headerKeys, Keyed key l := by
  obtain ⟨l, lp, la, rfl, hl, hprofessor, has⟩ := h
  have hassignments : ∀ l ∈ la, ∃ key ∈ headerKeys, Keyed key l := by
    refine has.forall_mem fun b ls hb => ?_
    obtain ⟨l, ls', b₀, rfl, hl, hclauses⟩ := hb
    refine List.forall_mem_cons.mpr ⟨⟨_, by simp [headerKeys], hl.keyed⟩, fun m hm => ?_⟩
    obtain ⟨key, hmem, hkeyed⟩ := hclauses.keyed m hm
    exact ⟨key, List.mem_append_right [Key.COURSE, Key.PROFESSOR, Key.ASSIGNMENT] hmem, hkeyed⟩
  refine List.forall_mem_cons.mpr ⟨⟨_, by simp [headerKeys], hl.keyed⟩, fun m hm => ?_⟩
  rcases List.mem_append.mp hm with hm | hm
  · exact ⟨_, by simp [headerKeys], hprofessor.keyed m hm⟩
  · exact hassignments m hm

theorem StudentLines.keyed {as : List Assignment} {s : Student} {ls : List Str}
    (h : StudentLines as s ls) : ∀ l ∈ ls, ∃ key ∈ [Key.STUDENT, Key.SCORE], Keyed key l := by
  obtain ⟨l, ls', rfl, hl, hscores⟩ := h
  refine List.forall_mem_cons.mpr ⟨⟨_, by simp, hl.keyed⟩, ?_⟩
  generalize s.rawscores = scores at hscores
  induction hscores with
  | nil => exact List.forall_mem_nil _
  | cons hscore _ ih => exact List.forall_mem_cons.mpr ⟨⟨_, by simp, hscore.keyed⟩, ih⟩

/-- The first line of a section is the only one that starts a section. -/
theorem SectionLines.keyed {as : List Assignment} {s : Section} {ls : List Str}
    (h : SectionLines as s ls) : ∃ l ls', ls = l :: ls' ∧ Keyed Key.SECTION l ∧
      ∀ m ∈ ls', ∃ key ∈ [Key.ASSISTANT, Key.STUDENT, Key.SCORE], Keyed key m := by
  obtain ⟨l, la, ls', rfl, hl, hassistant, hroster⟩ := h
  refine ⟨l, la ++ ls', rfl, hl.keyed, fun m hm => ?_⟩
  rcases List.mem_append.mp hm with hm | hm
  · exact ⟨_, by simp, hassistant.keyed m hm⟩
  · obtain ⟨key, hmem, hkey⟩ := hroster.forall_mem (fun _ _ hst => hst.keyed) m hm
    exact ⟨key, List.mem_cons_of_mem _ hmem, hkey⟩

theorem headed_sectionLines (as : List Assignment) :
    Headed (Keyed Key.SECTION) (SectionLines as) := by
  have hne : ∀ key ∈ [Key.ASSISTANT, Key.STUDENT, Key.SCORE], key ≠ Key.SECTION := by decide
  intro s ls h
  obtain ⟨l, ls', rfl, hl, hother⟩ := h.keyed
  refine ⟨l, ls', rfl, hl, fun m hm hsection => ?_⟩
  obtain ⟨key, hmem, hkey⟩ := hother m hm
  exact hne key hmem (hkey.unique hsection)

end CLanguage.Gradebook
