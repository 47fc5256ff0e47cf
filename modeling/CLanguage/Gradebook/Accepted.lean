import CLanguage.Gradebook.Write
import Mathlib

/-!
# What is accepted is well formed

A course that is read without an error from texts without null bytes has the words,
names, numbers and scores that `IsCourse` asks for. The invariant is that a word
stands in the token buffer if anything does; each reader delivers a record that is
well formed, whatever it was called for.
-/

namespace CLanguage.Gradebook

open Lib Lib.Reporting Grades

variable {α : Type} {s s' : Input} {w i key : Str}

/-- A text without the bytes that the reader does not tell from the end of a string or of a file. -/
def PlainText (t : Str) : Prop := 0 ∉ t ∧ 255 ∉ t

/-- A word stands in the token buffer, or nothing; the texts that are left are plain. -/
structure WordAhead (s : Input) : Prop where
  token : s.token = [] ∨ ∃ w, IsWord w ∧ s.token = w ++ [0]
  input : PlainText s.input
  prev : ∀ t ∈ s.prev, PlainText t

theorem PlainText.suffix {t t' : Str} (h : PlainText t) (hs : t' <:+ t) : PlainText t' :=
  ⟨fun hb => h.1 (hs.subset hb), fun hb => h.2 (hs.subset hb)⟩

theorem WordAhead.no_newline (h : WordAhead s) : 10 ∉ s.token := by
  obtain htoken | ⟨w, hw, htoken⟩ := h.token
  · rw [htoken]
    exact List.not_mem_nil
  · rw [htoken, List.mem_append, not_or]
    exact ⟨fun hb => absurd (hw.plain 10 hb) (by decide), by decide⟩

/-- The word at the start of a plain text is one, unless there is none. -/
theorem isWord_firstWord (hi : PlainText i) (hne : (firstWord i).1 ≠ [])
    (hshort : (firstWord i).1.length < 64) : IsWord (firstWord i).1 where
  ne_nil := hne
  plain _ hb := List.mem_takeWhile_imp hb
  short := hshort
  nonull hb := hi.1 (firstWord_subset i hb)
  ascii hb := hi.2 (firstWord_subset i hb)

theorem PlainText.skipWhitespace (hi : PlainText i) : skipWhitespace i = dropWhite i :=
  skipWhitespace_eq hi.2

/-! ## Tokens -/

theorem keeps_advancetoken : Keeps WordAhead advancetoken fun _ => True := by
  rintro ⟨token, i, prev⟩ u s' ⟨-, hi, hprev⟩ hrun
  obtain ⟨rfl, hlength, rfl⟩ := clean_advancetoken.mp hrun
  have hword : takeToken (Gradebook.skipWhitespace i) = firstWord i := by
    rw [hi.skipWhitespace, takeToken_eq (hi.suffix (dropWhite_suffix i)).2]
    rfl
  rw [hword] at hlength ⊢
  refine ⟨⟨?_, hi.suffix (firstWord_suffix i), hprev⟩, trivial⟩
  by_cases hne : (firstWord i).1 = []
  · exact .inl (terminated_eq_nil.mpr hne)
  · exact .inr ⟨_, isWord_firstWord hi hne hlength, if_neg hne⟩

theorem keeps_needtoken : Keeps WordAhead needtoken fun _ => True := by
  intro s u s' hs hrun
  obtain ⟨-, rfl⟩ | ⟨-, hadvance⟩ := clean_needtoken.mp hrun
  · exact ⟨hs, trivial⟩
  · exact keeps_advancetoken s u s' hs hadvance

theorem keeps_flushtoken : Keeps WordAhead flushtoken fun _ => True := by
  intro s u s' hs hrun
  obtain rfl := clean_flushtoken.mp hrun
  exact ⟨⟨.inl rfl, hs.input, hs.prev⟩, trivial⟩

theorem keeps_tokenText : Keeps WordAhead tokenText fun w => w ≠ [] → IsWord (cstr w) := by
  intro s w s' hs hrun
  obtain ⟨rfl, rfl⟩ := clean_tokenText.mp hrun
  refine ⟨hs, fun hne => ?_⟩
  obtain htoken | ⟨w, hw, htoken⟩ := hs.token
  · exact absurd htoken hne
  · rwa [htoken, cstr_append_null, cstr_eq_self hw.nonull]

theorem keeps_checktoken (key : Str) : Keeps WordAhead (checktoken key) fun _ => True :=
  keeps_needtoken.bind fun _ _ => keeps_tokenText.bind fun _ _ =>
    .ite (fun _ => keeps_flushtoken.bind fun _ _ => .pure trivial) fun _ => .pure trivial

theorem keeps_expecttoken (key : Str) : Keeps WordAhead (expecttoken key) fun _ => True :=
  keeps_needtoken.bind fun _ _ => keeps_tokenText.bind fun _ _ =>
    .ite (fun _ => keeps_flushtoken) fun _ => .report

theorem keeps_gobbleblanklines : Keeps WordAhead gobbleblanklines fun _ => True := by
  intro s u s' hs hrun
  obtain ⟨-, rfl⟩ | ⟨-, t, hskip, rfl⟩ := clean_gobbleblanklines.mp hrun
  · exact ⟨hs, trivial⟩
  · exact ⟨⟨hs.token, hs.input.suffix (skipBlanks_ok hs.input.2 hskip).2, hs.prev⟩, trivial⟩

theorem keeps_expectnewline : Keeps WordAhead expectnewline fun _ => True := by
  intro s u s' hs hrun
  obtain ⟨-, t, t', hspace, hskip, rfl⟩ := (clean_expectnewline hs.no_newline).mp hrun
  rw [hs.input.skipWhitespace] at hspace
  have ht : PlainText t :=
    hs.input.suffix ((List.suffix_cons 10 t).trans (hspace ▸ dropWhite_suffix s.input))
  exact ⟨⟨.inl rfl, ht.suffix (skipBlanks_ok ht.2 hskip).2, hs.prev⟩, trivial⟩

/-! ## Words, names and numbers -/

theorem keeps_readword : Keeps WordAhead readword IsWord :=
  keeps_needtoken.bind fun _ _ => keeps_tokenText.bind fun _ hw =>
    .ite (fun _ => .report_bind) fun hne => keeps_flushtoken.bind fun _ _ => .pure (hw hne)

/-- The rest of a line, as the name that it is. -/
theorem advanceeol_name (hs : WordAhead s) {u : Unit} (hrun : Clean advanceeol s u s') :
    ∃ w, IsName w ∧ s'.token = w ++ [0] ∧ PlainText s'.input ∧ s'.prev = s.prev := by
  obtain ⟨-, w, input, hline, hlength, rfl⟩ := clean_advanceeol.mp hrun
  obtain ⟨l, rest, hi, hl, hrest⟩ := exists_line hs.input.2
  rw [hi] at hline
  obtain ⟨-, heq⟩ := (takeLine_line hl hrest).mp hline
  obtain ⟨rfl, rfl⟩ := Prod.mk.inj heq
  have hsuffix : dropWhite l <:+ l := dropWhite_suffix l
  have hl' : PlainText l :=
    ⟨fun hb => hs.input.1 (hi ▸ List.mem_append_left _ hb), hl.2⟩
  refine ⟨dropWhite l, ⟨hl.suffix hsuffix, dropWhite_dropWhite l, hlength, (hl'.suffix hsuffix).1⟩,
    rfl, ?_, rfl⟩
  exact hs.input.suffix (hi ▸ List.suffix_append l input)

theorem cstr_name {w : Str} (hw : IsName w) : cstr (w ++ [0]) = w := by
  rw [cstr_append_null, cstr_eq_self hw.nonull]

theorem keeps_readname : Keeps WordAhead readname IsName := by
  intro s name s' hs hrun
  obtain ⟨u, s₁, hadvance, hrun⟩ := clean_bind.mp hrun
  obtain ⟨w, hw, htoken, hinput, hprev⟩ := advanceeol_name hs hadvance
  obtain ⟨t, s₂, htext, hrun⟩ := clean_bind.mp hrun
  obtain ⟨rfl, rfl⟩ := clean_tokenText.mp htext
  rw [htoken, if_neg (by simp), cstr_name hw] at hrun
  have hflushed : WordAhead { s₂ with token := [] } := ⟨.inl rfl, hinput, hprev ▸ hs.prev⟩
  obtain ⟨u, s₃, hflush, hrun⟩ := clean_bind.mp hrun
  obtain rfl := clean_flushtoken.mp hflush
  exact (keeps_expectnewline.bind fun _ _ => .pure hw) _ _ _ hflushed hrun

theorem keeps_readcode : Keeps WordAhead readcode IsName := by
  intro s name s' hs hrun
  obtain ⟨u, s₁, hadvance, hrun⟩ := clean_bind.mp hrun
  obtain ⟨w, hw, htoken, hinput, hprev⟩ := advanceeol_name hs hadvance
  obtain ⟨t, s₂, htext, hrun⟩ := clean_bind.mp hrun
  obtain ⟨rfl, rfl⟩ := clean_tokenText.mp htext
  rw [htoken, cstr_name hw] at hrun
  obtain ⟨u, s₃, hflush, hrun⟩ := clean_bind.mp hrun
  obtain rfl := clean_flushtoken.mp hflush
  obtain ⟨rfl, rfl⟩ := clean_pure.mp hrun
  exact ⟨⟨.inl rfl, hinput, hprev ▸ hs.prev⟩, hw⟩

theorem valid_scanFloat {w : Str} {f : Binary32} (h : scanFloat w = some f) : f.Valid := by
  rw [scanFloat] at h
  dsimp only at h
  split_ifs at h
  · rw [← Option.some.inj h]
    exact trivial
  · rw [← Option.some.inj h]
    exact trivial
  all_goals
    obtain ⟨m, -, rfl⟩ := Option.map_eq_some_iff.mp h
    exact Binary32.valid_ofRat _

theorem keeps_scantoken : Keeps WordAhead scantoken fun r => ∀ f ∈ r, f.Valid := by
  intro s r s' hs hrun
  obtain ⟨hr, rfl⟩ := clean_scantoken.mp hrun
  constructor
  · split_ifs
    · exact hs
    · exact ⟨.inl rfl, hs.input, hs.prev⟩
  · rintro f hf
    rw [hr] at hf
    split_ifs at hf
    · exact absurd hf (Option.not_mem_none f)
    · exact valid_scanFloat hf

theorem keeps_readfloat (default : Binary32) :
    Keeps WordAhead (readfloat default) Binary32.Valid := by
  refine keeps_scantoken.bind fun r hr => ?_
  cases r with
  | none => exact .report_bind
  | some f => exact .pure (hr f rfl)

/-! ## Assignments -/

section Assignments

variable {a : Assignment}

theorem keeps_readweight (ha : IsAssignment a) : Keeps WordAhead (readweight a) IsAssignment := by
  refine keeps_advancetoken.bind fun _ _ => keeps_scantoken.bind fun r hr => ?_
  cases r with
  | none => exact .report_bind
  | some f =>
    exact .pure { ha with
      weight := fun g hg => Option.some.inj hg ▸ hr f rfl }

theorem keeps_readmax (ha : IsAssignment a) : Keeps WordAhead (readmax a) IsAssignment := by
  refine keeps_advancetoken.bind fun _ _ => keeps_scantoken.bind fun r hr => ?_
  cases r with
  | none => exact .report_bind
  | some f => exact .pure { ha with max := hr f rfl }

theorem keeps_readnorm (found : Bool) (ha : IsAssignment a) (n : ℕ) :
    Keeps WordAhead (readnorm found a n) IsAssignment := by
  induction n generalizing found a with
  | zero => exact .stop _
  | succ n ih =>
    have hzero : (Binary32.finite 0).Valid := Binary32.ofRat_zero
    have hone : Binary32.ofRat 1 = .finite 1 := by decide +kernel
    rw [readnorm]
    refine (keeps_checktoken _).bind fun _ _ => .ite (fun _ => ih _ { ha with npolicy := trivial })
      fun _ => ?_
    refine (keeps_checktoken _).bind fun _ _ => .ite
      (fun _ => ih _ { ha with npolicy := ⟨hzero, hone⟩ }) fun _ => ?_
    refine (keeps_checktoken _).bind fun _ _ => .ite (fun _ => ?_) fun _ => ?_
    · refine keeps_advancetoken.bind fun _ _ => (keeps_readfloat _).bind fun mean hmean => ?_
      refine keeps_advancetoken.bind fun _ _ => (keeps_readfloat _).bind fun stddev hstddev => ?_
      exact ih _ { ha with npolicy := ⟨hmean, hstddev⟩ }
    refine (keeps_checktoken _).bind fun _ _ => .ite (fun _ => ih _ { ha with npolicy := trivial })
      fun _ => ?_
    refine (keeps_checktoken _).bind fun _ _ => .ite (fun _ => ?_) fun _ => ?_
    · refine keeps_advancetoken.bind fun _ _ => (keeps_readfloat _).bind fun scale hscale => ?_
      exact ih _ { ha with npolicy := hscale }
    refine (keeps_checktoken _).bind fun _ _ => .ite (fun _ => ih _ { ha with }) fun _ => ?_
    refine (keeps_checktoken _).bind fun _ _ => .ite (fun _ => ih _ { ha with }) fun _ => ?_
    exact .ite (fun _ => .pure ha) fun _ => .report_bind

end Assignments

theorem keeps_readclauses {a : Assignment} (ha : IsAssignment a) (n : ℕ) :
    Keeps WordAhead (readclauses a n) IsAssignment := by
  induction n generalizing a with
  | zero => exact .stop _
  | succ n ih =>
    have hrest {x : Reader Assignment} (hx : Keeps WordAhead x IsAssignment) :
        Keeps WordAhead (x >>= fun a => expectnewline >>= fun _ => readclauses a n) IsAssignment :=
      hx.bind fun _ hb => keeps_expectnewline.bind fun _ _ => ih hb
    rw [readclauses]
    refine (keeps_checktoken _).bind fun _ _ => .ite (fun _ => hrest (keeps_readweight ha)) fun _ => ?_
    refine (keeps_checktoken _).bind fun _ _ => .ite (fun _ => hrest (keeps_readnorm _ ha n))
      fun _ => ?_
    refine (keeps_checktoken _).bind fun _ _ => .ite (fun _ => hrest (keeps_readmax ha)) fun _ => ?_
    exact .pure ha

theorem keeps_readassignments (n : ℕ) :
    Keeps WordAhead (readassignments n) fun as => ∀ a ∈ as, IsAssignment a := by
  induction n with
  | zero => exact .stop _
  | succ n ih =>
    rw [readassignments]
    refine (keeps_checktoken _).bind fun _ _ => .ite (fun _ => ?_) fun _ => .pure (List.forall_mem_nil _)
    refine keeps_readword.bind fun name hname => keeps_readword.bind fun atype hatype => ?_
    refine keeps_expectnewline.bind fun _ _ => ?_
    have hdefault : IsAssignment ⟨name, atype, none, .finite 0, .raw, .byClass⟩ :=
      ⟨hname, hatype, fun f hf => absurd hf (Option.not_mem_none f), Binary32.ofRat_zero, trivial⟩
    refine (keeps_readclauses hdefault n).bind fun a ha => ih.bind fun rest hrest => ?_
    exact .pure (List.forall_mem_cons.mpr ⟨ha, hrest⟩)

/-! ## Scores, students and persons -/

section Records

variable {ap : Assignment} {a : List Assignment}

theorem keeps_readgrade (ap : Assignment) : Keeps WordAhead (readgrade ap) (IsGrade ap) := by
  have hcode (g : Str → Grade) (hg : ∀ code, IsName code → IsGrade ap (g code)) :
      Keeps WordAhead (readcode >>= fun code => pure (g code)) (IsGrade ap) :=
    keeps_readcode.bind fun code hcode => .pure (hg code hcode)
  rw [readgrade]
  refine (keeps_checktoken _).bind fun _ _ => .ite (fun _ => ?_) fun _ => ?_
  · exact keeps_needtoken.bind fun _ _ => (keeps_readfloat _).bind fun _ hf =>
      hcode _ fun _ h => ⟨hf, h⟩
  refine (keeps_checktoken _).bind fun _ _ => .ite (fun _ => ?_) fun _ => ?_
  · refine keeps_needtoken.bind fun _ _ => keeps_scantoken.bind fun r hr => ?_
    cases r with
    | none => exact .report_bind
    | some f =>
      -- the number is checked against the policy
      exact .ite (fun hrange => hcode _ fun _ h => ⟨hr f rfl, h, hrange⟩) fun _ => .report_bind
  refine (keeps_checktoken _).bind fun _ _ => .ite (fun _ => hcode _ fun _ h => h) fun _ => ?_
  refine (keeps_checktoken _).bind fun _ _ => .ite (fun _ => hcode _ fun _ h => h) fun _ => ?_
  exact keeps_needtoken.bind fun _ _ => (keeps_readfloat _).bind fun _ hf => .pure hf

theorem name_of_findAssignment {n : ℕ} (h : findAssignment a w = some (ap, n)) : ap.name = w := by
  simpa using List.find?_some h

theorem keeps_readscore (a : List Assignment) : Keeps WordAhead (readscore a) (IsScore a) := by
  refine keeps_needtoken.bind fun _ _ => keeps_tokenText.bind fun token _ => .ite
    (fun _ => .stop _) fun _ => ?_
  rcases hfind : findAssignment a (cstr token) with _ | ⟨ap, n⟩
  · exact .stop _
  · have hname := name_of_findAssignment hfind
    exact keeps_flushtoken.bind fun _ _ => (keeps_readgrade ap).bind fun _ hg =>
      .pure ⟨ap, hname ▸ hfind, hg⟩

theorem keeps_readscores (a : List Assignment) (n : ℕ) :
    Keeps WordAhead (readscores a n) fun scores => ∀ s ∈ scores, IsScore a s := by
  induction n with
  | zero => exact .stop _
  | succ n ih =>
    rw [readscores]
    refine (keeps_checktoken _).bind fun _ _ => .ite (fun _ => ?_) fun _ => .pure (List.forall_mem_nil _)
    refine (keeps_readscore a).bind fun s hs => keeps_expectnewline.bind fun _ _ => ?_
    exact ih.bind fun rest hrest => .pure (List.forall_mem_cons.mpr ⟨hs, hrest⟩)

theorem keeps_readstudents (a : List Assignment) (n : ℕ) :
    Keeps WordAhead (readstudents a n) fun roster => ∀ s ∈ roster, IsStudent a s := by
  induction n with
  | zero => exact .stop _
  | succ n ih =>
    rw [readstudents]
    refine (keeps_checktoken _).bind fun _ _ => .ite (fun _ => ?_) fun _ => .pure (List.forall_mem_nil _)
    refine keeps_readword.bind fun id hid => keeps_readword.bind fun surname hsurname => ?_
    refine keeps_readname.bind fun name hname => (keeps_readscores a n).bind fun scores hscores => ?_
    refine ih.bind fun rest hrest => .pure (List.forall_mem_cons.mpr ⟨?_, hrest⟩)
    exact ⟨hid, hsurname, hname, hscores⟩

theorem keeps_readperson (key : Str) :
    Keeps WordAhead (readperson key) fun p => ∀ q ∈ p, IsPerson q := by
  refine (keeps_checktoken _).bind fun _ _ => .ite (fun _ => ?_) fun _ => ?_
  · refine keeps_readword.bind fun surname hsurname => keeps_readname.bind fun name hname => ?_
    exact .pure fun q hq => Option.some.inj hq ▸ ⟨hsurname, hname⟩
  · exact .pure fun q hq => absurd hq (Option.not_mem_none q)

end Records

/-! ## Sections and the course -/

section Sections

variable {files : Str → Option Str}

theorem keeps_previousfile : Keeps WordAhead previousfile fun _ => True := by
  intro s u s' hs hrun
  obtain ⟨input, prev, hprev, rfl⟩ := clean_previousfile.mp hrun
  have hall := hs.prev
  rw [hprev] at hall
  obtain ⟨hinput, hrest⟩ := List.forall_mem_cons.mp hall
  exact ⟨⟨hs.token, hinput, hrest⟩, trivial⟩

theorem keeps_nexttoken (n : ℕ) : Keeps WordAhead (nexttoken n) fun _ => True := by
  induction n with
  | zero => exact .stop _
  | succ n ih =>
    intro s more s' hs hrun
    obtain ⟨s₁, hneed, hrun⟩ := (clean_nexttoken n).mp hrun
    obtain ⟨hs₁, -⟩ := keeps_needtoken s () s₁ hs hneed
    split_ifs at hrun
    · rwa [hrun.2, and_true]
    · rwa [hrun.2, and_true]
    · obtain ⟨s₂, hprevious, hnext⟩ := hrun
      exact ih s₂ more s' (keeps_previousfile s₁ () s₂ hs₁ hprevious).1 hnext

theorem keeps_openfile (hfiles : ∀ name text, files name = some text → PlainText text)
    (name : Str) : Keeps WordAhead (openfile files name) fun _ => True := by
  intro s u s' hs hrun
  rw [openfile] at hrun
  rcases hfile : files name with _ | text
  · rw [hfile] at hrun
    obtain ⟨_, hstop, -⟩ := clean_seq.mp hrun
    exact absurd hstop not_clean_stop
  · rw [hfile] at hrun
    obtain ⟨s₁, hpush, hblank⟩ := clean_seq.mp hrun
    have hs₁ : s₁ = { s with input := text, prev := s.input :: s.prev } := by
      have heq : (Except.ok ((), 0, { s with input := text, prev := s.input :: s.prev }) :
        Except Stop _) = .ok ((), 0, s₁) := hpush
      simpa [eq_comm] using heq
    have hpushed : WordAhead s₁ := by
      rw [hs₁]
      exact ⟨hs.token, hfiles name text hfile, List.forall_mem_cons.mpr ⟨hs.input, hs.prev⟩⟩
    exact keeps_gobbleblanklines s₁ u s' hpushed hblank

theorem keeps_readsections (hfiles : ∀ name text, files name = some text → PlainText text)
    (a : List Assignment) (n : ℕ) :
    Keeps WordAhead (readsections files a n) fun ss => ∀ s ∈ ss, IsSection a s := by
  have hopened : Keeps WordAhead openFiles fun _ => True := by
    intro s k s' hs hrun
    obtain ⟨-, rfl⟩ := clean_openFiles.mp hrun
    exact ⟨hs, trivial⟩
  induction n with
  | zero => exact .stop _
  | succ n ih =>
    rw [readsections_succ]
    refine hopened.bind fun k _ => (keeps_nexttoken k).bind fun _ _ => .ite (fun _ => ?_)
      fun _ => .pure (List.forall_mem_nil _)
    refine (keeps_checktoken _).bind fun _ _ => .ite (fun _ => ?_) fun _ => ?_
    · exact keeps_readname.bind fun name _ => (keeps_openfile hfiles name).bind fun _ _ => ih
    refine (keeps_checktoken _).bind fun _ _ => .ite (fun _ => ?_) fun _ => .pure (List.forall_mem_nil _)
    refine keeps_readname.bind fun name hname => (keeps_readperson _).bind fun p hp => ?_
    refine (keeps_readstudents a n).bind fun roster hroster => ih.bind fun rest hrest => ?_
    exact .pure (List.forall_mem_cons.mpr ⟨⟨hname, hp, hroster⟩, hrest⟩)

theorem keeps_readcourse (hfiles : ∀ name text, files name = some text → PlainText text) (n : ℕ) :
    Keeps WordAhead (readcourse files n) IsCourse := by
  refine (keeps_expecttoken _).bind fun _ _ => keeps_readword.bind fun number hnumber => ?_
  refine keeps_readname.bind fun title htitle => (keeps_readperson _).bind fun professor hp => ?_
  refine (keeps_readassignments n).bind fun assignments has => ?_
  refine (keeps_readsections hfiles assignments n).bind fun sections hsections => ?_
  exact .pure ⟨hnumber, htitle, hp, has, hsections⟩

theorem readroot_isCourse (hfiles : ∀ name text, files name = some text → PlainText text)
    {text : Str} (htext : PlainText text) {n : ℕ} {c : Course} {s' : Input}
    (hrun : Clean (readroot files n) ⟨[], text, []⟩ c s') : IsCourse c := by
  have hstart : WordAhead ⟨[], text, []⟩ := ⟨.inl rfl, htext, List.forall_mem_nil _⟩
  obtain ⟨s₁, hblank, hrun⟩ := clean_seq.mp hrun
  obtain ⟨hs₁, -⟩ := keeps_gobbleblanklines _ _ _ hstart hblank
  obtain ⟨c', s₂, hcourse, hrun⟩ := clean_bind.mp hrun
  obtain ⟨-, hc⟩ := keeps_readcourse hfiles n _ _ _ hs₁ hcourse
  -- nothing of the course depends on the end of the file
  obtain ⟨s₃, -, hrun⟩ := clean_seq.mp hrun
  obtain ⟨s₄, -, hpure⟩ := clean_seq.mp hrun
  obtain ⟨rfl, -⟩ := clean_pure.mp hpure
  exact hc

theorem exists_root {root : Str} {n : ℕ} {c : Course} (hrun : readfile files root n = .ok (c, 0)) :
    ∃ text s', files root = some text ∧ Clean (readroot files n) ⟨[], text, []⟩ c s' := by
  rcases hroot : files root with _ | text
  · rw [readfile, hroot] at hrun
    cases hrun
  · obtain ⟨s', hclean⟩ := (readfile_eq_ok hroot).mp hrun
    exact ⟨text, s', rfl, hclean⟩

/-- What is read without an error is well formed. -/
theorem readfile_isCourse (hfiles : ∀ name text, files name = some text → PlainText text)
    {root : Str} {n : ℕ} {c : Course} (hrun : readfile files root n = .ok (c, 0)) : IsCourse c := by
  obtain ⟨text, s', hroot, hclean⟩ := exists_root hrun
  exact readroot_isCourse hfiles (hfiles root text hroot) hclean

theorem readfile_isCourse_title : IsCourse ⟨ascii ['C'], ascii ['t'], none, [], []⟩ := by
  have hplain : PlainText (ascii ['C', 'O', 'U', 'R', 'S', 'E', ' ', 'C', ' ', 't', '\n']) :=
    ⟨by decide, by decide⟩
  have hread : readfile (fun _ => some (ascii ['C', 'O', 'U', 'R', 'S', 'E', ' ', 'C', ' ', 't', '\n']))
      [] 3 = .ok (⟨ascii ['C'], ascii ['t'], none, [], []⟩, 0) := by decide_cbv
  exact readfile_isCourse (fun _ _ hname => Option.some.inj hname ▸ hplain) hread

end Sections

end CLanguage.Gradebook
