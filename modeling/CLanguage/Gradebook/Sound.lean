import CLanguage.Gradebook.Stack

/-!
# What is read is in the grammar

`Reads x R`: a clean run of `x` takes lines `ls` off the text and delivers `a` with
`R a ls`. Each reader of a record reads what the grammar says.
-/

namespace CLanguage.Gradebook

open Lib Lib.Reporting Grades

variable {α β : Type} {key : Str}

/-- A clean run takes lines from the text that `R` relates to what it delivers. -/
def Reads (x : Reader α) (R : α → List Str → Prop) : Prop :=
  ∀ s i prev a s', Stands s i prev → Clean x s a s' → ∃ ls i', Stands s' i' prev ∧
    (Ended i' → Ended i) ∧ recordLines i = (ls ++ (recordLines i').1, (recordLines i').2) ∧ R a ls

section Rules

variable {x : Reader α} {R : α → List Str → Prop} {Q : β → List Str → Prop}

theorem Reads.pure {a : α} (h : R a []) : Reads (pure a) R := by
  intro s i prev b s' hs hrun
  obtain ⟨rfl, rfl⟩ := clean_pure.mp hrun
  exact ⟨[], i, hs, id, rfl, h⟩

theorem Reads.stop {e : Stop} : Reads (stop e) R :=
  fun _ _ _ _ _ _ hrun => absurd hrun not_clean_stop

theorem Reads.bind {f : α → Reader β} (hx : Reads x R)
    (hf : ∀ a ls, R a ls → Reads (f a) fun b ls' => Q b (ls ++ ls')) : Reads (x >>= f) Q := by
  intro s i prev b s'' hs hrun
  obtain ⟨a, s', hx', hf'⟩ := clean_bind.mp hrun
  obtain ⟨ls, i', hs', hend, hlines, ha⟩ := hx s i prev a s' hs hx'
  obtain ⟨ls', i'', hs'', hend', hlines', hb⟩ := hf a ls ha s' i' prev b s'' hs' hf'
  refine ⟨ls ++ ls', i'', hs'', hend ∘ hend', ?_, hb⟩
  rw [hlines, hlines', List.append_assoc]

/-- A keyword decides between a record and no record. -/
theorem Reads.keyed {g : α → Reader β} {y : Reader β} (hx : EndsLine x)
    (hg : ∀ a l, ReadAs key x l a →
      Reads (g a) fun b ls => Q b (l :: ls)) (hy : Reads y Q) :
    Reads (checktoken key >>= fun found => if found = true then x >>= g else y) Q := by
  intro s i prev b s' hs hrun
  obtain ⟨found, s₁, hkey, hrun⟩ := clean_bind.mp hrun
  cases found with
  | true =>
    obtain ⟨a, s₂, hx', hg'⟩ := clean_bind.mp hrun
    obtain ⟨l, i', hi', rfl, hend, hlines, hl⟩ := hs.record_line hx hkey hx'
    obtain ⟨ls, i'', hs'', hend', hlines', hb⟩ := hg a l hl _ _ _ _ _ (hi'.stands prev) hg'
    refine ⟨l :: ls, i'', hs'', hend ∘ hend', ?_, hb⟩
    rw [hlines, hlines']
    rfl
  | false =>
    obtain ⟨hs', -, -⟩ := hs.no_record hkey
    exact hy _ _ _ _ _ hs' hrun

end Rules

/-! ## Scores, students and persons -/

theorem readscores_reads (a : List Assignment) (n : ℕ) : Reads (readscores a n)
    fun scores ls =>
      List.Forall₂ (fun score l => ReadAs Key.SCORE (scorerecord a) l score) scores ls := by
  induction n with
  | zero => exact Reads.stop
  | succ n ih =>
    rw [readscores_succ]
    refine Reads.keyed (endsLine_scorerecord a) (fun s l hl => ?_) (Reads.pure .nil)
    refine ih.bind fun scores ls hls => Reads.pure ?_
    rw [List.append_nil]
    exact .cons hl hls

theorem readstudents_reads (a : List Assignment) (n : ℕ) :
    Reads (readstudents a n) (Blocks (StudentLines a)) := by
  induction n with
  | zero => exact Reads.stop
  | succ n ih =>
    rw [readstudents_succ]
    refine Reads.keyed endsLine_studentrecord (fun r l hl => ?_) (Reads.pure .nil)
    refine (readscores_reads a n).bind fun scores ls hls => ih.bind fun rest ls' hls' => ?_
    refine Reads.pure ?_
    rw [List.append_nil, ← List.cons_append]
    exact .cons ⟨l, ls, rfl, hl, hls⟩ hls'

theorem readperson_reads (key : Str) : Reads (readperson key) (PersonLine key) := by
  rw [readperson_eq]
  exact Reads.keyed endsLine_personrecord (fun p l hl => Reads.pure ⟨l, rfl, hl⟩) (Reads.pure rfl)

/-! ## Assignments -/

theorem readclauses_reads (n : ℕ) (a : Assignment) :
    Reads (readclauses a n) fun b ls => Clauses a ls b := by
  induction n generalizing a with
  | zero => exact Reads.stop
  | succ n ih =>
    have hrest (b : Assignment) (l : Str) (hl : Clause a l b) :
        Reads (readclauses b n) fun c ls => Clauses a (l :: ls) c := by
      intro s i prev c s' hs hrun
      obtain ⟨ls, i', hs', hend, hlines, hls⟩ := ih b s i prev c s' hs hrun
      exact ⟨ls, i', hs', hend, hlines, .cons hl hls⟩
    rw [readclauses_succ]
    refine Reads.keyed (endsLine_weightrecord a) (fun b l hl => hrest b l (.inl hl)) ?_
    refine Reads.keyed (endsLine_normrecord a n) (fun b l hl => hrest b l (.inr (.inl ⟨n, hl⟩))) ?_
    refine Reads.keyed (endsLine_maxrecord a) (fun b l hl => hrest b l (.inr (.inr hl))) ?_
    exact Reads.pure .nil

theorem readassignments_reads (n : ℕ) : Reads (readassignments n) (Blocks AssignmentLines) := by
  induction n with
  | zero => exact Reads.stop
  | succ n ih =>
    rw [readassignments_succ]
    refine Reads.keyed endsLine_assignmentrecord (fun a₀ l hl => ?_) (Reads.pure .nil)
    refine (readclauses_reads n a₀).bind fun a ls hls => ih.bind fun rest ls' hls' => ?_
    refine Reads.pure ?_
    rw [List.append_nil, ← List.cons_append]
    exact .cons ⟨l, ls, a₀, rfl, hl, hls⟩ hls'

/-! ## Sections -/

/-- The texts of all files are without the byte 255. -/
def AsciiFiles (files : Str → Option Str) : Prop := ∀ name text, files name = some text → 255 ∉ text

/-- The sections are those of the files on the stack, one file after the other, and the reader ends
where there is no further token in the root. -/
def ReadsFiles (files : Str → Option Str) (a : List Assignment) (stack : List Str)
    (ss : List Section) (s : Input) : Prop :=
  ∃ sss, List.Forall₂ (fun ss t => FileLines files a ss (recordLines t).1) sss stack ∧
    ss = sss.flatten ∧ ∃ i, Stands s i [] ∧ (firstWord i).1 = [] ∧
      (recordLines i).2 = (recordLines (stack.getLastD [])).2 ∧
      (Ended i → Ended (stack.getLastD []))

section Sections

variable {files : Str → Option Str} {a : List Assignment} {s : Input} {i t : Str}
  {prev stack : List Str} {ss : List Section}

/-- What stands before the rest of a file belongs to the file. -/
theorem ReadsFiles.cons {ss' : List Section} (h : ReadsFiles files a (t :: stack) ss s)
    (hlines : ∀ ss, FileLines files a ss (recordLines t).1 →
      FileLines files a (ss' ++ ss) (recordLines i).1)
    (hrest : (recordLines i).2 = (recordLines t).2) (hend : Ended t → Ended i) :
    ReadsFiles files a (i :: stack) (ss' ++ ss) s := by
  obtain ⟨sss, hall, rfl, j, hs, hw, hrest', hend'⟩ := h
  cases hall with
  | @cons ss₁ _ sss _ hfile hall =>
    refine ⟨(ss' ++ ss₁) :: sss, .cons (hlines _ hfile) hall, by simp, j, hs, hw, ?_⟩
    cases stack with
    | nil => exact ⟨hrest'.trans hrest.symm, hend ∘ hend'⟩
    | cons u stack => exact ⟨hrest', hend'⟩

/-- The file on top is read first. -/
theorem ReadsFiles.top (h : ReadsFiles files a (t :: i :: prev) ss s) :
    ∃ ss₁ ss₂, ss = ss₁ ++ ss₂ ∧ FileLines files a ss₁ (recordLines t).1 ∧
      ReadsFiles files a (i :: prev) ss₂ s := by
  obtain ⟨sss, hall, rfl, hend⟩ := h
  cases hall with
  | @cons ss₁ _ sss _ hfile hall =>
    exact ⟨ss₁, sss.flatten, List.flatten_cons, hfile, sss, hall, rfl, hend⟩

/-- A file without a record adds nothing. -/
theorem ReadsFiles.push (h : ReadsFiles files a (i :: prev) ss s) (ht : (recordLines t).1 = []) :
    ReadsFiles files a (t :: i :: prev) ss s := by
  obtain ⟨sss, hall, rfl, hend⟩ := h
  exact ⟨[] :: sss, .cons (ht ▸ .nil) hall, rfl, hend⟩

theorem readblocks_reads (hfiles : AsciiFiles files) {n : ℕ} {s s' : Input}
    (ih : ∀ {s i prev ss}, Stands s i prev → (∀ t ∈ prev, AtStart t) →
      Clean (readsections files a n) s ss s' → ReadsFiles files a (i :: prev) ss s')
    (hs : Stands s i prev) (hprev : ∀ t ∈ prev, AtStart t) (hw : (firstWord i).1 ≠ [])
    (hrun : Clean (readblocks a files n) s ss s') (hend : s'.token = []) :
    ReadsFiles files a (i :: prev) ss s' := by
  obtain ⟨found, s₁, hkey, hrun⟩ := clean_bind.mp hrun
  cases found with
  | true =>
    obtain ⟨name, s₂, hname, hrun⟩ := clean_bind.mp hrun
    obtain ⟨l, i', hi', rfl, hend', hlines, hl⟩ := hs.record_line endsLine_readname hkey hname
    obtain ⟨s₃, hopen, hrun⟩ := clean_seq.mp hrun
    obtain ⟨text, t, hfile, hskip, rfl⟩ := clean_openfile.mp hopen
    have htext := hfiles name text hfile
    obtain ⟨hrecord, hsuffix⟩ := skipBlanks_ok htext hskip
    have ht : AtStart t := ⟨not_mem_of_suffix htext hsuffix, hrecord⟩
    have hstack : ∀ t ∈ i' :: prev, AtStart t := List.forall_mem_cons.mpr ⟨hi', hprev⟩
    -- the sections of the new file stand where its line is
    obtain ⟨ss₁, ss₂, rfl, hfirst, hsecond⟩ := (ih (ht.stands _) hstack hrun).top
    rw [← recordLines_skipBlanks htext hskip] at hfirst
    refine hsecond.cons (fun ss hss => ?_) (by rw [hlines]) hend'
    rw [hlines]
    exact .file hl hfile hfirst hss
  | false =>
    obtain ⟨hs₁, -, hno⟩ := hs.no_record hkey
    obtain ⟨found, s₂, hkey, hrun⟩ := clean_bind.mp hrun
    cases found with
    | true =>
      obtain ⟨name, s₃, hname, hrun⟩ := clean_bind.mp hrun
      obtain ⟨l, i', hi', rfl, hend₁, hlines, hl⟩ := hs₁.record_line endsLine_readname hkey hname
      obtain ⟨assistant, s₄, hassistant, hrun⟩ := clean_bind.mp hrun
      obtain ⟨la, i₁, hs₄, hend₂, hla, hassistant⟩ :=
        readperson_reads Key.ASSISTANT _ _ _ _ _ (hi'.stands prev) hassistant
      obtain ⟨roster, s₅, hroster, hrun⟩ := clean_bind.mp hrun
      obtain ⟨lr, i₂, hs₅, hend₃, hlr, hroster⟩ := readstudents_reads a n _ _ _ _ _ hs₄ hroster
      obtain ⟨rest, s₆, hrest, hpure⟩ := clean_bind.mp hrun
      obtain ⟨rfl, rfl⟩ := clean_pure.mp hpure
      have hsection : SectionLines a ⟨name, assistant, roster⟩ (l :: (la ++ lr)) :=
        ⟨l, la, lr, rfl, hl, hassistant, hroster⟩
      rw [hla, hlr] at hlines
      change ReadsFiles files a (i :: prev) ([_] ++ rest) _
      refine (ih hs₅ hprev hrest).cons (fun ss hss => ?_) (by rw [hlines])
        (hend₁ ∘ hend₂ ∘ hend₃)
      have hall := FileLines.section hsection hss
      rw [hlines]
      rwa [List.cons_append, List.append_assoc] at hall
    | false =>
      obtain ⟨-, rfl, -⟩ := hs₁.no_record hkey
      obtain ⟨rfl, rfl⟩ := clean_pure.mp hrun
      exact absurd (lookahead_token.mp hend) hw

theorem readsections_reads (hfiles : AsciiFiles files) (n : ℕ) {s s' : Input}
    (hs : Stands s i prev) (hprev : ∀ t ∈ prev, AtStart t)
    (hrun : Clean (readsections files a n) s ss s') (hend : s'.token = []) :
    ReadsFiles files a (i :: prev) ss s' := by
  induction n generalizing s i prev ss with
  | zero => exact absurd hrun not_clean_stop
  | succ n ih =>
    -- a word ahead is read as a section or as a file name
    have hblocks {s i prev ss} (hs : Stands s i prev) (hprev : ∀ t ∈ prev, AtStart t)
        (hw : (firstWord i).1 ≠ []) (hrun : Clean (readsections files a (n + 1)) s ss s') :
        ReadsFiles files a (i :: prev) ss s' := by
      obtain ⟨hshort, hrun⟩ := (readsections_word hs hw).mp hrun
      have hs' : Stands (lookahead i prev) i prev := ⟨hs.toAtStart, .inr ⟨hshort, rfl⟩⟩
      exact readblocks_reads hfiles (fun h h' h'' => ih h h' h'') hs' hprev hw hrun hend
    induction prev generalizing s i with
    | nil =>
      by_cases hw : (firstWord i).1 = []
      · obtain ⟨rfl, rfl⟩ := (readsections_root hs hw).mp hrun
        have hshort : (firstWord i).1.length < 64 := by simp [hw]
        have hnil : FileLines files a [] (recordLines i).1 := by
          rw [hs.recordLines_eq_nil hw]
          exact .nil
        exact ⟨[[]], .cons hnil .nil, rfl, i, ⟨hs.toAtStart, .inr ⟨hshort, rfl⟩⟩, hw, rfl, id⟩
      · exact hblocks hs hprev hw hrun
    | cons j prev ihprev =>
      by_cases hw : (firstWord i).1 = []
      · obtain ⟨hj, hprev⟩ := List.forall_mem_cons.mp hprev
        have hrun := (readsections_pop hs hw).mp hrun
        -- the end of a file: the one below it goes on
        exact (ihprev (hj.stands prev) hprev hrun).push (hs.recordLines_eq_nil hw)
      · exact hblocks hs hprev hw hrun

end Sections

/-! ## The root -/

section Root

variable {files : Str → Option Str} {s s' : Input} {i text : Str} {u : Unit}

theorem clean_expecteof : Clean expecteof s u s' ↔ s.token = [] ∧ s.prev = [] ∧
    ∃ input, getc s.input = (none, input) ∧ s' = { s with input := input } := by
  obtain ⟨token, input, prev⟩ := s
  cases token with
  | nil =>
    rcases hget : getc input with ⟨c, t⟩
    by_cases hend : c = none ∧ prev = []
    · simp [Clean, expecteof, hget, hend, eq_comm]
    · simp [Clean, expecteof, hget, hend]
      tauto
  | cons b token => simp [Clean, expecteof]

theorem getc_none {t : Str} (h : 255 ∉ i) (hget : getc i = (none, t)) : i = [] := by
  cases i with
  | nil => rfl
  | cons b i =>
    have hb : b ≠ 255 := fun hb => h (hb ▸ List.mem_cons_self)
    rw [getc, if_neg hb] at hget
    cases hget

/-- Behind the last record of the root there are only lines that are skipped. -/
theorem Stands.closed (hs : Stands s i []) (hw : (firstWord i).1 = [])
    (hskip : skipBlanks s.input = .ok []) : Closed (recordLines i).2 ∧ Ended i := by
  have hend : Ended s.input := (ended_skipBlanks hs.ascii_input hskip).mp ended_nil
  obtain rfl | ⟨-, rfl⟩ := hs.before
  · rw [skipBlanks_record hs.ascii hs.record] at hskip
    rw [Except.ok.inj hskip] at hend ⊢
    exact ⟨.inl rfl, hend⟩
  · obtain ⟨l, rest, rfl, hl, hrest⟩ := exists_line hs.ascii
    have hdrop : (lookahead (l ++ rest) []).input = dropWhite (l ++ rest) := firstWord_rest hw
    rw [hdrop] at hskip hend
    refine ⟨?_, (ended_dropWhite hs.ascii).mp hend⟩
    rw [firstWord_append l hrest] at hw
    rw [dropWhite_append l hrest, (firstWord_eq_nil hl).mp hw, List.nil_append] at hskip
    rw [recordLines_white hl hrest hs.record hw]
    split_ifs
    · exact .inl rfl
    refine .inr ⟨l, _, rfl, .inl hw, ?_⟩
    obtain rfl | ⟨t, rfl⟩ := hrest.2
    · rfl
    · have ht : 255 ∉ t := fun hb => hrest.1 (List.mem_cons_of_mem _ hb)
      rw [skipBlanks_newline ht] at hskip
      change scanLines true (lines t) = _
      rw [scanLines_lines ht, recordLines_skipBlanks (not_mem_of_suffix ht (dropWhite_suffix t)) hskip]
      rfl

theorem readcourse_reads (hfiles : AsciiFiles files) {n : ℕ} {c : Course} (hs : Stands s i [])
    (hrun : Clean (readcourse files n) s c s') (hend : s'.token = []) :
    CourseLines files c (recordLines i).1 ∧ ∃ j, Stands s' j [] ∧ (firstWord j).1 = [] ∧
      (recordLines j).2 = (recordLines i).2 ∧ (Ended j → Ended i) := by
  rw [readcourse_eq] at hrun
  obtain ⟨s₁, hkey, hrun⟩ := clean_seq.mp hrun
  obtain ⟨r, s₂, hrecord, hrun⟩ := clean_bind.mp hrun
  obtain ⟨l, i₁, hi₁, rfl, hend₁, hlines, hl⟩ :=
    hs.record_line endsLine_courserecord (clean_expecttoken.mp hkey) hrecord
  obtain ⟨professor, s₃, hprofessor, hrun⟩ := clean_bind.mp hrun
  obtain ⟨lp, i₂, hs₃, hend₂, hlp, hprofessor⟩ :=
    readperson_reads Key.PROFESSOR _ _ _ _ _ (hi₁.stands []) hprofessor
  obtain ⟨as, s₄, has, hrun⟩ := clean_bind.mp hrun
  obtain ⟨la, i₃, hs₄, hend₃, hla, has⟩ := readassignments_reads n _ _ _ _ _ hs₃ has
  obtain ⟨sections, s₅, hsections, hpure⟩ := clean_bind.mp hrun
  obtain ⟨rfl, rfl⟩ := clean_pure.mp hpure
  obtain ⟨sss, hall, rfl, j, hj, hw, hrest, hend₄⟩ :=
    readsections_reads hfiles n hs₄ (List.forall_mem_nil _) hsections hend
  -- the lines of the root are those of all that has been read, one after the other
  cases hall with
  | cons hfile hnil =>
    cases hnil
    rw [hla] at hlp
    rw [hlp] at hlines
    refine ⟨⟨l :: (lp ++ la), (recordLines i₃).1, ?_, ⟨l, lp, la, rfl, hl, hprofessor, has⟩, ?_⟩,
      j, hj, hw, ?_, hend₁ ∘ hend₂ ∘ hend₃ ∘ hend₄⟩
    · rw [hlines, List.cons_append, List.append_assoc]
    · simpa using hfile
    · rw [hrest, hlines]
      rfl

theorem readroot_reads (hfiles : AsciiFiles files) (htext : 255 ∉ text) {n : ℕ} {c : Course}
    (hrun : Clean (readroot files n) ⟨[], text, []⟩ c s') :
    CourseLines files c (recordLines text).1 ∧ Closed (recordLines text).2 ∧ Ended text := by
  obtain ⟨s₁, hblank, hrun⟩ := clean_seq.mp hrun
  obtain ⟨c', s₂, hcourse, hrun⟩ := clean_bind.mp hrun
  obtain ⟨s₃, hblank', hrun⟩ := clean_seq.mp hrun
  obtain ⟨s₄, heof, hpure⟩ := clean_seq.mp hrun
  obtain ⟨rfl, rfl⟩ := clean_pure.mp hpure
  obtain ⟨htoken, -, input, hget, rfl⟩ := clean_expecteof.mp heof
  obtain ⟨hne, -⟩ | ⟨-, t, hskip, rfl⟩ := clean_gobbleblanklines.mp hblank
  · exact absurd rfl hne
  obtain ⟨hrecord, hsuffix⟩ := skipBlanks_ok htext hskip
  have ht : AtStart t := ⟨not_mem_of_suffix htext hsuffix, hrecord⟩
  rw [recordLines_skipBlanks htext hskip]
  obtain ⟨hne, rfl⟩ | ⟨hnil, t', hskip', rfl⟩ := clean_gobbleblanklines.mp hblank'
  · exact absurd htoken hne
  obtain ⟨hlines, j, hj, hw, hrest, hend⟩ := readcourse_reads hfiles (ht.stands []) hcourse hnil
  have hnil' : t' = [] :=
    getc_none (not_mem_of_suffix hj.ascii_input (skipBlanks_ok hj.ascii_input hskip').2) hget
  rw [hnil'] at hskip'
  obtain ⟨hclosed, hend'⟩ := hj.closed hw hskip'
  rw [hrest] at hclosed
  exact ⟨hlines, hclosed, (ended_skipBlanks htext hskip).mp (hend hend')⟩

/-- `readfile` reports no error if the run of `readroot` is clean. -/
theorem readfile_eq_ok {root : Str} (hroot : files root = some text) {n : ℕ} {c : Course} :
    readfile files root n = .ok (c, 0) ↔ ∃ s', Clean (readroot files n) ⟨[], text, []⟩ c s' := by
  rw [readfile, hroot]
  simp only [Clean]
  rcases readroot files n ⟨[], text, []⟩ with e | ⟨c', errors, s'⟩
  · simp [Except.map]
  · simp [Except.map]

end Root

end CLanguage.Gradebook
