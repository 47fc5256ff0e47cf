import CLanguage.Gradebook.Accepted
import CLanguage.Gradebook.Includes
import CLanguage.Gradebook.Written

/-!
# Reading a written course

The text of `writecourse` is in the grammar, for the course `Course.reread`. So the
reader accepts it and delivers this course.
-/

namespace CLanguage.Gradebook

open Lib Lib.Reporting Grades

/-! ## Assignments -/

section Assignments

variable {a : Assignment} {f : Binary32} {i : Str} {prev : List Str} {b : UInt8} {n : ℕ}
  {found : Bool}

theorem assignmentrecord_written {name atype : Str} (hname : IsWord name) (hatype : IsWord atype) :
    Clean assignmentrecord ⟨[], 32 :: (name ++ 32 :: atype) ++ [10], []⟩
      ⟨name, atype, none, .finite 0, .raw, .byClass⟩ ⟨[], [], []⟩ := by
  have hnil : (255 : UInt8) ∉ [10] := by decide
  have hinput : 32 :: (name ++ 32 :: atype) ++ [10] = 32 :: (name ++ 32 :: (atype ++ [10])) := by
    simp
  rw [hinput]
  exact (readword_space hname (by decide) (hatype.space_ascii hnil) (.inl rfl)).bind
    ((readword_space hatype (by decide) hnil (.inl rfl)).bind
      (expectnewline_end.bind (clean_pure.mpr ⟨rfl, rfl⟩)))

theorem weightrecord_written (hf : f.Valid) :
    Clean (weightrecord a) ⟨[], 32 :: printFloat f ++ [10], []⟩
      { a with weight := some f.sixPlaces } ⟨[], [], []⟩ := by
  have hnil : (255 : UInt8) ∉ [10] := by decide
  have hread : Clean (readweight a) ⟨[], 32 :: (printFloat f ++ [10]), []⟩
      { a with weight := some f.sixPlaces } ⟨[], [10], []⟩ :=
    (advancetoken_space (isWord_printFloat hf).1 (by decide) hnil).bind
      ((scantoken_printFloat hf).bind (clean_pure.mpr ⟨rfl, rfl⟩))
  exact hread.bind (expectnewline_end.bind (clean_pure.mpr ⟨rfl, rfl⟩))

theorem maxrecord_written (hf : f.Valid) :
    Clean (maxrecord a) ⟨[], 32 :: printFloat f ++ [10], []⟩
      { a with max := f.sixPlaces } ⟨[], [], []⟩ := by
  have hnil : (255 : UInt8) ∉ [10] := by decide
  have hread : Clean (readmax a) ⟨[], 32 :: (printFloat f ++ [10]), []⟩
      { a with max := f.sixPlaces } ⟨[], [10], []⟩ :=
    (advancetoken_space (isWord_printFloat hf).1 (by decide) hnil).bind
      ((scantoken_printFloat hf).bind (clean_pure.mpr ⟨rfl, rfl⟩))
  exact hread.bind (expectnewline_end.bind (clean_pure.mpr ⟨rfl, rfl⟩))

/-- At the end of the line the loop of `readnorm` stops. -/
theorem readnorm_end : Clean (readnorm true a (n + 1)) ⟨[], [10], prev⟩ a ⟨[], [10], prev⟩ := by
  have hend (key : Str) : Clean (checktoken key) ⟨[], [10], prev⟩ false ⟨[], [10], prev⟩ :=
    checktoken_end List.not_mem_nil
  rw [readnorm]
  simp only [(hend _).bind_iff, Bool.false_eq_true, if_false, if_true]
  exact clean_pure.mpr ⟨rfl, rfl⟩

/-- The group is the last word of a policy. -/
theorem readnorm_group (g : Ngroup) : Clean (readnorm found a (n + 2))
    ⟨[], 32 :: (writegroup g ++ [10]), prev⟩ { a with ngroup := g } ⟨[], [10], prev⟩ := by
  have hnil : (255 : UInt8) ∉ [10] := by decide
  have hword : IsWord (writegroup g) := by cases g <;> decide
  have hnext : Before (lookahead (32 :: (writegroup g ++ [10])) prev)
      (32 :: (writegroup g ++ [10])) prev := before_lookahead hword (by decide)
  have hother {s : Input} (hs : Before s (32 :: (writegroup g ++ [10])) prev) :=
    checktoken_other hword (by decide) hnil hs
  have hcheck := checktoken_space hword (by decide) hnil hnext
  have hkeys : ∀ key ∈ [Key.RAW, Key.STDLINEAR, Key.GENLINEAR, Key.QUANTILE, Key.SCALE],
      key ≠ writegroup g := by cases g <;> decide
  simp only [List.forall_mem_cons] at hkeys
  obtain ⟨hraw, hstd, hgen, hquantile, hscale, -⟩ := hkeys
  rw [readnorm, (hother (.inl rfl) _ hraw).bind_iff, if_neg Bool.false_ne_true,
    (hother hnext _ hstd).bind_iff, if_neg Bool.false_ne_true,
    (hother hnext _ hgen).bind_iff, if_neg Bool.false_ne_true,
    (hother hnext _ hquantile).bind_iff, if_neg Bool.false_ne_true,
    (hother hnext _ hscale).bind_iff, if_neg Bool.false_ne_true]
  cases g with
  | byClass =>
    change Clean (checktoken Key.BYCLASS) _ true _ at hcheck
    rw [hcheck.bind_iff, if_pos rfl]
    exact readnorm_end
  | bySection =>
    change Clean (checktoken Key.BYSECTION) _ true _ at hcheck
    have hne : Key.BYCLASS ≠ writegroup .bySection := by decide
    rw [(hother hnext _ hne).bind_iff, if_neg Bool.false_ne_true]
    rw [hcheck.bind_iff, if_pos rfl]
    exact readnorm_end

theorem ascii_group (g : Ngroup) : 255 ∉ (32 : UInt8) :: (writegroup g ++ [10]) := by
  cases g <;> decide

theorem readnorm_quantile (g : Ngroup) : Clean (readnorm found a (n + 3))
    ⟨[], 32 :: (Key.QUANTILE ++ 32 :: (writegroup g ++ [10])), prev⟩
    { a with npolicy := .quantile, ngroup := g } ⟨[], [10], prev⟩ := by
  have hword : IsWord Key.QUANTILE := by decide
  have hnext : Before (lookahead (32 :: (Key.QUANTILE ++ 32 :: (writegroup g ++ [10]))) prev)
      (32 :: (Key.QUANTILE ++ 32 :: (writegroup g ++ [10]))) prev :=
    before_lookahead hword (by decide)
  have hother {s : Input}
      (hs : Before s (32 :: (Key.QUANTILE ++ 32 :: (writegroup g ++ [10]))) prev) :=
    checktoken_other hword (by decide) (ascii_group g) hs
  have hcheck := checktoken_space hword (by decide) (ascii_group g) hnext
  rw [readnorm, (hother (.inl rfl) Key.RAW (by decide)).bind_iff,
    if_neg Bool.false_ne_true, (hother hnext Key.STDLINEAR (by decide)).bind_iff,
    if_neg Bool.false_ne_true, (hother hnext Key.GENLINEAR (by decide)).bind_iff,
    if_neg Bool.false_ne_true, hcheck.bind_iff, if_pos rfl]
  exact readnorm_group (a := { a with npolicy := .quantile }) g

theorem readnorm_scale (hf : f.Valid) (g : Ngroup) : Clean (readnorm found a (n + 3))
    ⟨[], 32 :: (Key.SCALE ++ 32 :: (printFloat f ++ 32 :: (writegroup g ++ [10]))), prev⟩
    { a with npolicy := .scale f.sixPlaces, ngroup := g } ⟨[], [10], prev⟩ := by
  have hword : IsWord Key.SCALE := by decide
  have hnumber := (isWord_printFloat hf).1
  have hascii := hnumber.space_ascii (ascii_group g)
  have hnext : Before
      (lookahead (32 :: (Key.SCALE ++ 32 :: (printFloat f ++ 32 :: (writegroup g ++ [10])))) prev)
      (32 :: (Key.SCALE ++ 32 :: (printFloat f ++ 32 :: (writegroup g ++ [10])))) prev :=
    before_lookahead hword (by decide)
  have hother {s : Input} (hs : Before s
      (32 :: (Key.SCALE ++ 32 :: (printFloat f ++ 32 :: (writegroup g ++ [10])))) prev) :=
    checktoken_other hword (by decide) hascii hs
  have hcheck := checktoken_space hword (by decide) hascii hnext
  rw [readnorm, (hother (.inl rfl) Key.RAW (by decide)).bind_iff,
    if_neg Bool.false_ne_true, (hother hnext Key.STDLINEAR (by decide)).bind_iff,
    if_neg Bool.false_ne_true, (hother hnext Key.GENLINEAR (by decide)).bind_iff,
    if_neg Bool.false_ne_true, (hother hnext Key.QUANTILE (by decide)).bind_iff,
    if_neg Bool.false_ne_true, hcheck.bind_iff, if_pos rfl,
    (advancetoken_space hnumber (by decide) (ascii_group g)).bind_iff,
    (readfloat_printFloat hf _).bind_iff]
  exact readnorm_group (a := { a with npolicy := .scale f.sixPlaces }) g

theorem normrecord_written {p : Npolicy} {policy : Str} (hp : p.Valid) (hkey : p.HasKeyword)
    (hpolicy : writepolicy p = some policy) (g : Ngroup) :
    Clean (normrecord a 3) ⟨[], 32 :: (policy ++ 32 :: writegroup g) ++ [10], []⟩
      { a with npolicy := p.reread, ngroup := g } ⟨[], [], []⟩ := by
  have hread : Clean (readnorm false a 3) ⟨[], 32 :: (policy ++ 32 :: writegroup g) ++ [10], []⟩
      { a with npolicy := p.reread, ngroup := g } ⟨[], [10], []⟩ := by
    cases p with
    | raw => exact absurd hpolicy.symm (Option.some_ne_none _)
    | linear mean stddev => exact hkey.elim
    | quantile =>
      obtain rfl := Option.some.inj hpolicy
      have hinput : 32 :: (Key.QUANTILE ++ 32 :: writegroup g) ++ [10] =
          32 :: (Key.QUANTILE ++ 32 :: (writegroup g ++ [10])) := by simp
      rw [hinput]
      exact readnorm_quantile g
    | scale f =>
      obtain rfl := Option.some.inj hpolicy
      have hinput : 32 :: (Key.SCALE ++ 32 :: printFloat f ++ 32 :: writegroup g) ++ [10] =
          32 :: (Key.SCALE ++ 32 :: (printFloat f ++ 32 :: (writegroup g ++ [10]))) := by simp
      rw [hinput]
      exact readnorm_scale hp g
  exact hread.bind (expectnewline_end.bind (clean_pure.mpr ⟨rfl, rfl⟩))

theorem onLine_writepolicy {p : Npolicy} {policy : Str} (hp : p.Valid)
    (hpolicy : writepolicy p = some policy) (g : Ngroup) : OnLine (policy ++ 32 :: writegroup g) := by
  have hgroup : OnLine (32 :: writegroup g) := by
    have hword : IsWord (writegroup g) := by cases g <;> decide
    exact hword.onLine.space
  have hkey : ∀ key ∈ [LINEAR, Key.QUANTILE, Key.SCALE], IsWord key := by decide
  have hnumber {f : Binary32} (hf : f.Valid) : OnLine (32 :: printFloat f) :=
    (isWord_printFloat hf).1.onLine.space
  cases p with
  | raw => exact absurd hpolicy.symm (Option.some_ne_none _)
  | linear mean stddev =>
    obtain rfl := Option.some.inj hpolicy
    have hcolon : OnLine (58 :: 32 :: printFloat mean) :=
      onLine_cons.mpr ⟨by decide, by decide, hnumber hp.1⟩
    have hcomma : OnLine (44 :: 32 :: printFloat stddev) :=
      onLine_cons.mpr ⟨by decide, by decide, hnumber hp.2⟩
    exact (((hkey LINEAR (by simp)).onLine.append hcolon).append hcomma).append hgroup
  | quantile =>
    obtain rfl := Option.some.inj hpolicy
    exact (hkey Key.QUANTILE (by simp)).onLine.append hgroup
  | scale f =>
    obtain rfl := Option.some.inj hpolicy
    exact ((hkey Key.SCALE (by simp)).onLine.append (hnumber hp)).append hgroup

theorem Clauses.append {c d : Assignment} {ls ls' : List Str} (h : Clauses a ls c)
    (h' : Clauses c ls' d) : Clauses a (ls ++ ls') d := by
  induction h with
  | nil => exact h'
  | cons hl _ ih => exact .cons hl (ih h')

theorem Clauses.single {c : Assignment} {l : Str} (h : Clause a l c) : Clauses a [l] c :=
  .cons h .nil

/-- An assignment and its clauses, if the reader knows the policy. -/
theorem shows_writeassignment (h : IsAssignment a) (hkey : a.npolicy.HasKeyword) :
    ∃ ls, Shows (writeassignment a) ls ∧ AssignmentLines a.reread ls := by
  obtain ⟨name, atype, weight, max, npolicy, ngroup⟩ := a
  -- each clause replaces one of the defaults
  have hweight : ∃ ls, Shows (writeweight weight) ls ∧
      Clauses ⟨name, atype, none, .finite 0, .raw, .byClass⟩ ls
        ⟨name, atype, weight.map Binary32.sixPlaces, .finite 0, .raw, .byClass⟩ := by
    cases weight with
    | none => exact ⟨[], .nil, .nil⟩
    | some f =>
      have hf : f.Valid := h.weight f rfl
      have hline := (isWord_printFloat hf).1.onLine
      exact ⟨_, .line (by decide) hline,
        .single (.inl (readAs_line (by decide) hline (weightrecord_written hf)))⟩
  have hnorm : ∃ ls, Shows (writenorm npolicy ngroup) ls ∧
      Clauses ⟨name, atype, weight.map Binary32.sixPlaces, .finite 0, .raw, .byClass⟩ ls
        ⟨name, atype, weight.map Binary32.sixPlaces, .finite 0, npolicy.reread,
          if npolicy = .raw then .byClass else ngroup⟩ := by
    rw [writenorm]
    rcases hpolicy : writepolicy npolicy with _ | policy
    · have hraw : npolicy = .raw := by
        cases npolicy with
        | raw => rfl
        | linear mean stddev => exact absurd hpolicy (Option.some_ne_none _)
        | quantile => exact absurd hpolicy (Option.some_ne_none _)
        | scale f => exact absurd hpolicy (Option.some_ne_none _)
      rw [hraw, if_pos rfl]
      exact ⟨[], .nil, .nil⟩
    · have hraw : npolicy ≠ .raw := by
        rintro rfl
        exact Option.some_ne_none _ hpolicy.symm
      have hline := onLine_writepolicy h.npolicy hpolicy ngroup
      rw [if_neg hraw]
      exact ⟨_, .line (by decide) hline, .single (.inr (.inl ⟨3,
        readAs_line (by decide) hline (normrecord_written h.npolicy hkey hpolicy ngroup)⟩))⟩
  have hmax : ∃ ls, Shows (writemax max) ls ∧
      Clauses ⟨name, atype, weight.map Binary32.sixPlaces, .finite 0, npolicy.reread,
          if npolicy = .raw then .byClass else ngroup⟩ ls
        ⟨name, atype, weight.map Binary32.sixPlaces, max.sixPlaces, npolicy.reread,
          if npolicy = .raw then .byClass else ngroup⟩ := by
    rw [writemax]
    by_cases hzero : max = .finite 0
    · rw [if_pos hzero, hzero, Binary32.sixPlaces_zero]
      exact ⟨[], .nil, .nil⟩
    · have hline := (isWord_printFloat h.max).1.onLine
      rw [if_neg hzero]
      exact ⟨_, .line (by decide) hline, .single (.inr (.inr
        (readAs_line (by decide) hline (maxrecord_written h.max))))⟩
  obtain ⟨lw, hlw, hweight⟩ := hweight
  obtain ⟨ln, hln, hnorm⟩ := hnorm
  obtain ⟨lm, hlm, hmax⟩ := hmax
  have hhead : OnLine (name ++ 32 :: atype) := h.name.onLine.append h.atype.onLine.space
  have hline : Shows (line 1 Key.ASSIGNMENT (name ++ 32 :: atype)) [_] := .line (by decide) hhead
  refine ⟨_, ((hline.append hlw).append hln).append hlm, _, lw ++ ln ++ lm, _, ?_,
    readAs_line (by decide) hhead (assignmentrecord_written h.name h.atype),
    (hweight.append hnorm).append hmax⟩
  simp

end Assignments

/-! ## The course -/

section Course

variable {a : List Assignment} {c : Course} {files : Str → Option Str}

/-- A student and the scores. -/
theorem shows_writestudent (hnames : ∀ ap ∈ a, IsWord ap.name) {st : Student} (h : IsStudent a st)
    (hfits : ∀ score ∈ st.rawscores, ∀ ap ∈ a[score.asgt]?, score.grade.Fits ap) :
    ∃ ls, Shows (writestudent a st) ls ∧
      StudentLines (a.map Assignment.reread) (st.reread a) ls := by
  have hline : OnLine (st.id ++ 32 :: st.surname ++ 44 :: 32 :: st.name) :=
    (h.id.onLine.append h.surname.onLine.space).append h.name.onLine.comma
  have hscores : ∀ score ∈ st.rawscores, ∃ ls, Shows (writescore a score) ls ∧ ∃ l, ls = [l] ∧
      ReadAs Key.SCORE (scorerecord (a.map Assignment.reread)) l (score.reread a) :=
    fun score hscore => shows_writescore hnames (h.rawscores score hscore) (hfits score hscore)
  obtain ⟨ls, hls, hblocks⟩ := Shows.flatMap hscores
  have hlines := hblocks.forall₂ fun _ _ hscore => hscore
  refine ⟨_, (Shows.line (by decide) hline).append hls, _, ls, rfl,
    readAs_line (by decide) hline (studentrecord_written h), ?_⟩
  rw [Student.reread, List.forall₂_map_left_iff]
  exact hlines

theorem shows_writesection (hnames : ∀ ap ∈ a, IsWord ap.name) {s : Section} (h : IsSection a s)
    (hfits : ∀ st ∈ s.roster, ∀ score ∈ st.rawscores, ∀ ap ∈ a[score.asgt]?, score.grade.Fits ap) :
    ∃ ls, Shows (writesection a s) ls ∧
      SectionLines (a.map Assignment.reread) (s.reread a) ls := by
  have hkey : IsKeyword Key.ASSISTANT := by decide
  obtain ⟨la, hla, hassistant⟩ := shows_writeperson hkey h.assistant
  obtain ⟨lr, hlr, hroster⟩ := Shows.flatMap fun st hst =>
    shows_writestudent hnames (h.roster st hst) (hfits st hst)
  have hhead : Shows (line 1 Key.SECTION s.name) [_] := .line (by decide) h.name.onLine
  refine ⟨_, (hhead.append hla).append hlr, _, la, lr, by simp,
    readAs_line (by decide) h.name.onLine h.name.space_end, hassistant, ?_⟩
  exact hroster.map_left

/-- The written course is in the grammar. -/
theorem shows_writecourse (h : IsCourse c) (hkeys : ∀ ap ∈ c.assignments, ap.npolicy.HasKeyword)
    (hfits : c.Fits) : ∃ ls, Shows (writecourse c) ls ∧ CourseLines files c.reread ls := by
  have hnames : ∀ ap ∈ c.assignments, IsWord ap.name := fun ap hap => (h.assignments ap hap).name
  have hkey : IsKeyword Key.PROFESSOR := by decide
  obtain ⟨lp, hlp, hprofessor⟩ := shows_writeperson hkey h.professor
  obtain ⟨la, hla, has⟩ := Shows.flatMap fun ap hap =>
    shows_writeassignment (h.assignments ap hap) (hkeys ap hap)
  obtain ⟨ls, hls, hsections⟩ := Shows.flatMap fun s hs =>
    shows_writesection hnames (h.sections s hs) (hfits s hs)
  have htitle : OnLine (c.number ++ 32 :: c.title) := h.number.onLine.append h.title.onLine.space
  have hhead : Shows (line 0 Key.COURSE (c.number ++ 32 :: c.title)) [_] := .line (by decide) htitle
  have hfile : FileLines files c.reread.assignments (c.reread.sections ++ []) (ls ++ []) :=
    fileLines_of_blocks hsections.map_left .nil
  rw [List.append_nil, List.append_nil] at hfile
  have hcourse : IsWord Key.COURSE := by decide
  have hread := readAs_line hcourse htitle (courserecord_written h.number h.title)
  refine ⟨_, ((hhead.append hlp).append hla).append hls, _, ls, rfl,
    ⟨_, lp, la, ?_, hread, hprofessor, has.map_left⟩, hfile⟩
  rw [List.append_assoc]
  rfl

/-- The lines of a text that is nothing but written lines. -/
theorem Shows.whole {text : Str} {ls : List Str} (h : Shows text ls) :
    recordLines text = (ls, []) ∧ Ended text := by
  have hlines := h.lines []
  have hended := (h.ended []).mpr ended_nil
  rw [List.append_nil] at hlines hended
  have hnil : recordLines [] = ([], []) := rfl
  rw [hnil, List.append_nil] at hlines
  exact ⟨hlines, hended⟩

/-- The reader accepts the text of a written course. -/
theorem readroot_writecourse {root : Str} (hroot : files root = some (writecourse c))
    (h : IsCourse c) (hkeys : ∀ ap ∈ c.assignments, ap.npolicy.HasKeyword) (hfits : c.Fits) :
    ∃ s', Settles (readroot files) ⟨[], writecourse c, []⟩ c.reread s' := by
  have hshows : ∃ ls, Shows (writecourse c) ls ∧
      CourseLines (single root (writecourse c)) c.reread ls := shows_writecourse h hkeys hfits
  obtain ⟨ls, hls, hcourse⟩ := hshows
  obtain ⟨hlines, hended⟩ := hls.whole
  have hgrammar : CourseLines (single root (writecourse c)) c.reread (recordLines (writecourse c)).1 := by
    rw [hlines]
    exact hcourse
  have hclosed : Closed (recordLines (writecourse c)).2 := by
    rw [hlines]
    exact .inl rfl
  have hsingle : ∀ name text, single root (writecourse c) name = some text → Ended text := by
    intro name text hname
    rw [single] at hname
    split_ifs at hname
    rwa [← Option.some.inj hname]
  have hmore : ∀ name text, single root (writecourse c) name = some text → files name = some text := by
    intro name text hname
    rw [single] at hname
    split_ifs at hname with heq
    rw [heq, hroot, hname]
  -- no other file is opened
  obtain ⟨s', n, hrun⟩ := readroot_settles hsingle hended hgrammar hclosed
  exact ⟨s', n, fun m hm => readroot_refines hmore m _ _ _ (hrun m hm)⟩

/-- The assignment is normalized by quantiles. -/
def oneAssignment : Assignment :=
  ⟨ascii ['h'], ascii ['h'], none, .finite 0, .quantile, .bySection⟩

def oneScore (g : Grade) : Course :=
  ⟨ascii ['C'], [], none, [oneAssignment], [⟨[], none, [⟨ascii ['1'], ascii ['B'], [], [⟨0, g⟩]⟩]⟩]⟩

theorem isCourse_oneScore {g : Grade} (hg : IsGrade oneAssignment g) : IsCourse (oneScore g) := by
  have hnumber : IsWord (ascii ['C']) := by decide
  have hassigned : IsWord (ascii ['h']) := by decide
  have hid : IsWord (ascii ['1']) := by decide
  have hsurname : IsWord (ascii ['B']) := by decide
  have hname : IsName [] := by decide
  have hfind : findAssignment [oneAssignment] oneAssignment.name = some (oneAssignment, 0) := by decide
  have hassignment : IsAssignment oneAssignment :=
    ⟨hassigned, hassigned, fun _ hf => absurd hf (Option.not_mem_none _), Binary32.ofRat_zero,
      trivial⟩
  refine ⟨hnumber, hname, fun _ hp => absurd hp (Option.not_mem_none _),
    List.forall_mem_singleton.mpr hassignment, List.forall_mem_singleton.mpr
      ⟨hname, fun _ hp => absurd hp (Option.not_mem_none _), List.forall_mem_singleton.mpr ?_⟩⟩
  exact ⟨hid, hsurname, hname,
    List.forall_mem_singleton.mpr ⟨oneAssignment, hfind, hg⟩⟩

end Course

/-! ## A policy that is not read back -/

section Linear

variable {a b c : Assignment} {l rest : Str} {ls : List Str} {files : Str → Option Str}

/-- `LINEAR` is no keyword of the reader. -/
theorem not_clean_normrecord_linear (hrest : OnLine rest) (n : ℕ) {s' : Input} :
    ¬ Clean (normrecord a n) ⟨[], 32 :: (LINEAR ++ 58 :: rest) ++ [10], []⟩ b s' := by
  have hinput : 32 :: (LINEAR ++ 58 :: rest) ++ [10] = 32 :: (LINEAR ++ 58 :: (rest ++ [10])) := by
    simp
  have hascii : 255 ∉ (58 : UInt8) :: (rest ++ [10]) := by
    have hrest := hrest.2
    simp [hrest]
  have hword : IsWord LINEAR := by decide
  have hnext : Before (lookahead (32 :: (LINEAR ++ 58 :: (rest ++ [10]))) [])
      (32 :: (LINEAR ++ 58 :: (rest ++ [10]))) [] := before_lookahead hword (by decide)
  have hother {s : Input} (hs : Before s (32 :: (LINEAR ++ 58 :: (rest ++ [10]))) []) :=
    checktoken_other hword (by decide) hascii hs
  rw [hinput]
  intro hrun
  obtain ⟨c, s, hnorm, -⟩ := clean_bind.mp hrun
  cases n with
  | zero => exact not_clean_stop hnorm
  | succ n =>
    rw [readnorm, (hother (.inl rfl) Key.RAW (by decide)).bind_iff,
      if_neg Bool.false_ne_true, (hother hnext Key.STDLINEAR (by decide)).bind_iff,
      if_neg Bool.false_ne_true, (hother hnext Key.GENLINEAR (by decide)).bind_iff,
      if_neg Bool.false_ne_true, (hother hnext Key.QUANTILE (by decide)).bind_iff,
      if_neg Bool.false_ne_true, (hother hnext Key.SCALE (by decide)).bind_iff,
      if_neg Bool.false_ne_true, (hother hnext Key.BYCLASS (by decide)).bind_iff,
      if_neg Bool.false_ne_true, (hother hnext Key.BYSECTION (by decide)).bind_iff,
      if_neg Bool.false_ne_true] at hnorm
    obtain ⟨_, hreport, -⟩ := clean_seq.mp hnorm
    exact not_clean_report hreport

/-- The line of a normalization, if it is one, is read as a clause. -/
def NormRead (l : Str) : Prop :=
  Keyed Key.NORMALIZE l → ∃ a n b, ReadAs Key.NORMALIZE (normrecord a n) l b

theorem normRead_of_keyed {key : Str} (h : Keyed key l) (hne : key ≠ Key.NORMALIZE) : NormRead l :=
  fun hnorm => absurd (h.unique hnorm) hne

theorem Clauses.normRead (h : Clauses a ls b) : ∀ l ∈ ls, NormRead l := by
  induction h with
  | nil => exact List.forall_mem_nil _
  | cons hl _ ih =>
    refine List.forall_mem_cons.mpr ⟨?_, ih⟩
    obtain hl | ⟨n, hl⟩ | hl := hl
    · exact normRead_of_keyed hl.keyed (by decide)
    · exact fun _ => ⟨_, n, _, hl⟩
    · exact normRead_of_keyed hl.keyed (by decide)

theorem FileLines.normRead {as : List Assignment} {ss : List Section} (h : FileLines files as ss ls) :
    ∀ l ∈ ls, NormRead l := by
  have hne : ∀ key ∈ [Key.ASSISTANT, Key.STUDENT, Key.SCORE], key ≠ Key.NORMALIZE := by decide
  induction h with
  | nil => exact List.forall_mem_nil _
  | «section» hsection _ ih =>
    obtain ⟨l, ls', rfl, hl, hother⟩ := hsection.keyed
    refine List.forall_mem_append.mpr ⟨List.forall_mem_cons.mpr ⟨?_, fun m hm => ?_⟩, ih⟩
    · exact normRead_of_keyed hl (by decide)
    · obtain ⟨key, hmem, hkey⟩ := hother m hm
      exact normRead_of_keyed hkey (hne key hmem)
  | file hl _ _ _ _ ih =>
    exact List.forall_mem_cons.mpr ⟨normRead_of_keyed hl.keyed (by decide), ih⟩

theorem CourseLines.normRead {c : Course} (h : CourseLines files c ls) : ∀ l ∈ ls, NormRead l := by
  obtain ⟨header, ls', rfl, ⟨l, lp, la, rfl, hl, hprofessor, has⟩, hfile⟩ := h
  have hassignments : ∀ l ∈ la, NormRead l := by
    refine has.forall_mem fun a ls ha => ?_
    obtain ⟨l, ls', a₀, rfl, hl, hclauses⟩ := ha
    exact List.forall_mem_cons.mpr ⟨normRead_of_keyed hl.keyed (by decide), hclauses.normRead⟩
  refine List.forall_mem_append.mpr ⟨List.forall_mem_cons.mpr ⟨?_, ?_⟩, hfile.normRead⟩
  · exact normRead_of_keyed hl.keyed (by decide)
  · refine List.forall_mem_append.mpr ⟨fun m hm => ?_, hassignments⟩
    exact normRead_of_keyed (hprofessor.keyed m hm) (by decide)

/-- The line of a linear policy is written, and it is none that is read. -/
theorem shows_linear (h : IsAssignment a) (hkey : ¬ a.npolicy.HasKeyword) :
    ∃ ls, Shows (writeassignment a) ls ∧ ∃ l ∈ ls, ¬ NormRead l := by
  obtain ⟨name, atype, weight, max, npolicy, ngroup⟩ := a
  have hweight : ∃ ls, Shows (writeweight weight) ls := by
    cases weight with
    | none => exact ⟨[], .nil⟩
    | some f => exact ⟨_, .line (by decide) (isWord_printFloat (h.weight f rfl)).1.onLine⟩
  have hmax : ∃ ls, Shows (writemax max) ls := by
    rw [writemax]
    by_cases hzero : max = .finite 0
    · rw [if_pos hzero]
      exact ⟨[], .nil⟩
    · rw [if_neg hzero]
      exact ⟨_, .line (by decide) (isWord_printFloat h.max).1.onLine⟩
  obtain ⟨lw, hlw⟩ := hweight
  obtain ⟨lm, hlm⟩ := hmax
  have hhead : Shows (line 1 Key.ASSIGNMENT (name ++ 32 :: atype)) [_] :=
    .line (by decide) (h.name.onLine.append h.atype.onLine.space)
  cases npolicy with
  | raw => exact absurd trivial hkey
  | quantile => exact absurd trivial hkey
  | scale f => exact absurd trivial hkey
  | linear mean stddev =>
    have hline := onLine_writepolicy h.npolicy rfl ngroup
    obtain ⟨rest, hrest⟩ : ∃ rest, LINEAR ++ 58 :: 32 :: printFloat mean ++ 44 :: 32 ::
        printFloat stddev ++ 32 :: writegroup ngroup = LINEAR ++ 58 :: rest :=
      ⟨32 :: printFloat mean ++ 44 :: 32 :: printFloat stddev ++ 32 :: writegroup ngroup, by simp⟩
    have hnorm : Shows (line 2 Key.NORMALIZE (LINEAR ++ 58 :: rest)) [_] :=
      .line (by decide) (hrest ▸ hline)
    rw [← hrest] at hnorm
    refine ⟨_, ((hhead.append hlw).append hnorm).append hlm, _,
      List.mem_append_left _ (List.mem_append_right _ (List.mem_singleton_self _)), fun hread => ?_⟩
    have hkeyword : IsWord Key.NORMALIZE := by decide
    have hword : firstWord (Key.NORMALIZE ++ 32 :: (LINEAR ++ 58 :: rest)) =
        (Key.NORMALIZE, 32 :: (LINEAR ++ 58 :: rest)) := firstWord_key hkeyword
    rw [hrest] at hread hline
    have hkeyed : Keyed Key.NORMALIZE (Key.NORMALIZE ++ 32 :: (LINEAR ++ 58 :: rest)) := by
      rw [Keyed, hword]
      exact ⟨hkeyword.ne_nil, cstr_eq_self hkeyword.nonull⟩
    obtain ⟨b, n, d, hread⟩ := hread hkeyed
    have hrun := (readAs_iff.mp hread).2.2.2
    rw [hword] at hrun
    have hlinear : IsWord LINEAR := by decide
    have honLine : OnLine rest :=
      hline.suffix ((List.suffix_cons 58 rest).trans (List.suffix_append LINEAR (58 :: rest)))
    exact not_clean_normrecord_linear honLine n hrun

/-- A written course with a linear policy is not read without an error. -/
theorem not_readfile_linear {c d : Course} {root : Str} (hfiles : AsciiFiles files)
    (hroot : files root = some (writecourse c)) (h : IsCourse c)
    (hkey : ¬ ∀ ap ∈ c.assignments, ap.npolicy.HasKeyword) (n : ℕ) :
    readfile files root n ≠ .ok (d, 0) := by
  intro hrun
  obtain ⟨s', hrun⟩ := (readfile_eq_ok hroot).mp hrun
  obtain ⟨hlines, -, -⟩ := readroot_reads hfiles (hfiles root _ hroot) hrun
  have hkeyword : IsKeyword Key.PROFESSOR := by decide
  obtain ⟨lp, hlp, -⟩ := shows_writeperson hkeyword h.professor
  have hassignments : ∀ ap ∈ c.assignments, ∃ ls, Shows (writeassignment ap) ls ∧
      (¬ ap.npolicy.HasKeyword → ∃ l ∈ ls, ¬ NormRead l) := by
    intro ap hap
    by_cases hkey : ap.npolicy.HasKeyword
    · obtain ⟨ls, hls, -⟩ := shows_writeassignment (h.assignments ap hap) hkey
      exact ⟨ls, hls, fun hno => absurd hkey hno⟩
    · obtain ⟨ls, hls, hnorm⟩ := shows_linear (h.assignments ap hap) hkey
      exact ⟨ls, hls, fun _ => hnorm⟩
  obtain ⟨la, hla, hblocks⟩ := Shows.flatMap hassignments
  have hhead : Shows (line 0 Key.COURSE (c.number ++ 32 :: c.title)) [_] :=
    .line (by decide) (h.number.onLine.append h.title.onLine.space)
  obtain ⟨ap, hap, hno⟩ := not_forall₂.mp hkey
  obtain ⟨block, hblock, hsub⟩ := hblocks.exists_block hap
  obtain ⟨l, hl, hnorm⟩ := hblock hno
  refine hnorm (hlines.normRead l ?_)
  rw [writecourse, writeprofessor, ((hhead.append hlp).append hla).lines]
  exact List.mem_append_left _ (List.mem_append_right _ (hsub hl))

end Linear

/-! ## Courses that come back -/

section Exact

/-- The numbers of an assignment. -/
def Assignment.numbers (a : Assignment) : List Binary32 :=
  a.weight.toList ++ [a.max] ++
    match a.npolicy with
    | .linear mean stddev => [mean, stddev]
    | .scale f => [f]
    | _ => []

/-- The number of a grade. -/
def Grade.numbers : Grade → List Binary32
  | .valid f | .useRaw f _ | .useNorm f _ => [f]
  | .useLikeAvg _ | .useClassAvg _ => []

/-- The grade is no substitution by a normalized score. -/
def Grade.NoNorm : Grade → Prop
  | .useNorm _ _ => False
  | _ => True

/-- The scores of a course. -/
def Course.scores (c : Course) : List Score :=
  c.sections.flatMap fun s => s.roster.flatMap Student.rawscores

/-- The numbers of a course. -/
def Course.numbers (c : Course) : List Binary32 :=
  c.assignments.flatMap Assignment.numbers ++ c.scores.flatMap fun s => s.grade.numbers

/-- Nothing of the course is lost where it is written: its policies have keywords, a group stands
behind a policy, no score is substituted by a normalized one, and six places say each number. -/
structure Course.Exact (c : Course) : Prop where
  policies : ∀ a ∈ c.assignments, a.npolicy.HasKeyword
  groups : ∀ a ∈ c.assignments, a.npolicy = .raw → a.ngroup = .byClass
  grades : ∀ s ∈ c.scores, s.grade.NoNorm
  numbers : ∀ f ∈ c.numbers, f.sixPlaces = f

variable {a : Assignment} {as : List Assignment} {c : Course} {files : Str → Option Str}

theorem Assignment.reread_eq_self : a.reread = a ↔ (a.npolicy = .raw → a.ngroup = .byClass) ∧
    (a.weight.map Binary32.sixPlaces = a.weight ∧ a.max.sixPlaces = a.max ∧
      a.npolicy.reread = a.npolicy) := by
  obtain ⟨name, atype, weight, max, npolicy, ngroup⟩ := a
  simp only [Assignment.reread, Assignment.mk.injEq, true_and]
  constructor
  · rintro ⟨hweight, hmax, hpolicy, hgroup⟩
    refine ⟨fun hraw => ?_, hweight, hmax, hpolicy⟩
    rw [if_pos hraw] at hgroup
    exact hgroup.symm
  · rintro ⟨hgroup, hweight, hmax, hpolicy⟩
    refine ⟨hweight, hmax, hpolicy, ?_⟩
    split_ifs with hraw
    · exact (hgroup hraw).symm
    · rfl

theorem Assignment.numbers_exact (hkey : a.npolicy.HasKeyword) :
    (∀ f ∈ a.numbers, f.sixPlaces = f) ↔ a.weight.map Binary32.sixPlaces = a.weight ∧
      a.max.sixPlaces = a.max ∧ a.npolicy.reread = a.npolicy := by
  have hweight : (∀ f ∈ a.weight.toList, f.sixPlaces = f) ↔
      a.weight.map Binary32.sixPlaces = a.weight := by
    cases a.weight <;> simp
  rw [Assignment.numbers, List.forall_mem_append, List.forall_mem_append, hweight,
    List.forall_mem_singleton, and_assoc]
  refine and_congr_right fun _ => and_congr_right fun _ => ?_
  rcases hp : a.npolicy with _ | ⟨mean, stddev⟩ | _ | f
  · exact iff_of_true (List.forall_mem_nil _) rfl
  · rw [hp] at hkey
    exact hkey.elim
  · exact iff_of_true (List.forall_mem_nil _) rfl
  · simp [Npolicy.reread]

theorem Grade.reread_eq_self {g : Grade} :
    g.reread a = g ↔ g.NoNorm ∧ ∀ f ∈ g.numbers, f.sixPlaces = f := by
  cases g with
  | valid f => simp [Grade.reread, NoNorm, Grade.numbers]
  | useRaw f code => simp [Grade.reread, NoNorm, Grade.numbers]
  | useNorm f code =>
    refine iff_of_false (fun heq => ?_) fun h => h.1
    rw [Grade.reread] at heq
    split_ifs at heq
    · -- the code has become longer
      have hlength := congrArg List.length (Grade.useNorm.inj heq).2
      rw [List.length_append, List.length_cons] at hlength
      omega
  | useLikeAvg code => simp [Grade.reread, NoNorm, Grade.numbers]
  | useClassAvg code => simp [Grade.reread, NoNorm, Grade.numbers]

theorem Score.reread_eq_self {s : Score} (h : IsScore as s) :
    s.reread as = s ↔ s.grade.NoNorm ∧ ∀ f ∈ s.grade.numbers, f.sixPlaces = f := by
  obtain ⟨ap, hfind, -⟩ := h
  obtain ⟨n, g⟩ := s
  rw [Score.reread, (getElem?_of_findAssignment hfind).1]
  simp only [Score.mk.injEq, true_and]
  exact Grade.reread_eq_self

theorem map_eq_self {α : Type} {f : α → α} {l : List α} : l.map f = l ↔ ∀ x ∈ l, f x = x := by
  induction l with
  | nil => simp
  | cons x l ih => simp [ih]

theorem Section.reread_eq_self {s : Section} (h : IsSection as s) : s.reread as = s ↔
    ∀ score ∈ s.roster.flatMap Student.rawscores,
      score.grade.NoNorm ∧ ∀ f ∈ score.grade.numbers, f.sixPlaces = f := by
  have hroster : s.reread as = s ↔ ∀ st ∈ s.roster, st.reread as = st := by
    rw [← map_eq_self, Section.reread]
    obtain ⟨name, assistant, roster⟩ := s
    simp
  have hstudent (st : Student) : st.reread as = st ↔ ∀ score ∈ st.rawscores, score.reread as = score := by
    rw [← map_eq_self, Student.reread]
    obtain ⟨id, surname, name, rawscores⟩ := st
    simp
  rw [hroster, List.forall_mem_flatMap]
  refine forall₂_congr fun st hst => (hstudent st).trans (forall₂_congr fun score hscore => ?_)
  exact Score.reread_eq_self ((h.roster st hst).rawscores score hscore)

/-- Where the policies have keywords, `Exact` says that nothing is changed. -/
theorem Course.reread_eq_self (h : IsCourse c) (hkeys : ∀ a ∈ c.assignments, a.npolicy.HasKeyword) :
    c.reread = c ↔ c.Exact := by
  have hcourse : c.reread = c ↔ (∀ a ∈ c.assignments, a.reread = a) ∧
      ∀ s ∈ c.sections, s.reread c.assignments = s := by
    rw [← map_eq_self, ← map_eq_self, Course.reread]
    obtain ⟨number, title, professor, assignments, sections⟩ := c
    simp
  have hassignments : (∀ a ∈ c.assignments, a.reread = a) ↔
      (∀ a ∈ c.assignments, a.npolicy = .raw → a.ngroup = .byClass) ∧
        ∀ f ∈ c.assignments.flatMap Assignment.numbers, f.sixPlaces = f := by
    rw [List.forall_mem_flatMap, ← forall₂_and]
    refine forall₂_congr fun a ha => ?_
    rw [Assignment.reread_eq_self, Assignment.numbers_exact (hkeys a ha)]
  have hsections : (∀ s ∈ c.sections, s.reread c.assignments = s) ↔ (∀ s ∈ c.scores, s.grade.NoNorm) ∧
      ∀ f ∈ c.scores.flatMap fun s => s.grade.numbers, f.sixPlaces = f := by
    rw [List.forall_mem_flatMap, ← forall₂_and, Course.scores, List.forall_mem_flatMap]
    exact forall₂_congr fun s hs => Section.reread_eq_self (h.sections s hs)
  rw [hcourse, hassignments, hsections]
  constructor
  · rintro ⟨⟨hgroups, hnumbers⟩, hgrades, hnumbers'⟩
    exact ⟨hkeys, hgroups, hgrades, List.forall_mem_append.mpr ⟨hnumbers, hnumbers'⟩⟩
  · rintro ⟨-, hgroups, hgrades, hnumbers⟩
    obtain ⟨hnumbers, hnumbers'⟩ := List.forall_mem_append.mp hnumbers
    exact ⟨⟨hgroups, hnumbers⟩, hgrades, hnumbers'⟩

theorem fits_of_noNorm (h : ∀ s ∈ c.scores, s.grade.NoNorm) : c.Fits := by
  intro s hs st hst score hscore ap _
  have hno := h score (List.mem_flatMap.mpr ⟨s, hs, List.mem_flatMap.mpr ⟨st, hst, hscore⟩⟩)
  cases hg : score.grade with
  | useNorm norm code =>
    rw [hg] at hno
    exact hno.elim
  | _ => exact trivial

theorem readfile_oneScore : readfile (single [] (writecourse (oneScore (.useLikeAvg [])))) [] 10 =
    .ok (oneScore (.useLikeAvg []), 0) := by decide_cbv

theorem Npolicy.reread_eq_raw {p : Npolicy} : p.reread = .raw ↔ p = .raw := by
  cases p <;> simp [Npolicy.reread]

theorem Assignment.reread_reread (a : Assignment) : a.reread.reread = a.reread := by
  refine Assignment.reread_eq_self.mpr ⟨fun hraw => ?_, ?_, ?_, ?_⟩
  · exact if_pos (Npolicy.reread_eq_raw.mp hraw)
  · rw [Assignment.reread]
    cases a.weight with
    | none => rfl
    | some f => exact congrArg some f.sixPlaces_sixPlaces
  · exact a.max.sixPlaces_sixPlaces
  · rw [Assignment.reread]
    rcases a.npolicy with _ | ⟨mean, stddev⟩ | _ | f
    · rfl
    · rfl
    · rfl
    · exact congrArg Npolicy.scale f.sixPlaces_sixPlaces

theorem Score.reread_reread {s : Score} (hno : s.grade.NoNorm) :
    (s.reread as).reread (as.map Assignment.reread) = s.reread as ∧ (s.reread as).grade.NoNorm := by
  obtain ⟨n, g⟩ := s
  rcases hget : as[n]? with _ | a
  · have hsame : Score.reread as ⟨n, g⟩ = ⟨n, g⟩ := by rw [Score.reread, hget]
    rw [hsame, Score.reread, List.getElem?_map, hget]
    exact ⟨rfl, hno⟩
  · have hread : Score.reread as ⟨n, g⟩ = ⟨n, g.reread a⟩ := by rw [Score.reread, hget]
    rw [hread, Score.reread, List.getElem?_map, hget]
    cases g with
    | valid f => exact ⟨congrArg (Score.mk n) (congrArg Grade.valid f.sixPlaces_sixPlaces), trivial⟩
    | useRaw f code =>
      exact ⟨congrArg (Score.mk n) (congrArg (Grade.useRaw · code) f.sixPlaces_sixPlaces), trivial⟩
    | useNorm f code => exact hno.elim
    | useLikeAvg code => exact ⟨rfl, trivial⟩
    | useClassAvg code => exact ⟨rfl, trivial⟩

theorem Npolicy.HasKeyword.reread {p : Npolicy} (h : p.HasKeyword) : p.reread.HasKeyword := by
  cases p with
  | linear mean stddev => exact h.elim
  | _ => exact trivial

theorem Npolicy.valid_reread {p : Npolicy} (h : p.Valid) : p.reread.Valid := by
  cases p with
  | linear mean stddev => exact h
  | scale f => exact Binary32.valid_sixPlaces
  | _ => exact trivial

theorem IsAssignment.reread (h : IsAssignment a) : IsAssignment a.reread where
  name := h.name
  atype := h.atype
  weight f hf := by
    obtain ⟨g, -, rfl⟩ := Option.map_eq_some_iff.mp hf
    exact Binary32.valid_sixPlaces
  max := Binary32.valid_sixPlaces
  npolicy := Npolicy.valid_reread h.npolicy

theorem IsScore.reread {s : Score} (h : IsScore as s) (hno : s.grade.NoNorm) :
    IsScore (as.map Assignment.reread) (s.reread as) := by
  obtain ⟨ap, hfind, hgrade⟩ := h
  obtain ⟨n, g⟩ := s
  have hread : Score.reread as ⟨n, g⟩ = ⟨n, g.reread ap⟩ := by
    rw [Score.reread, (getElem?_of_findAssignment hfind).1]
  have hfind' : findAssignment (as.map Assignment.reread) ap.reread.name = some (ap.reread, n) := by
    rw [findAssignment_reread, show ap.reread.name = ap.name from rfl, hfind]
    rfl
  rw [hread]
  refine ⟨ap.reread, hfind', ?_⟩
  cases g with
  | valid f => exact Binary32.valid_sixPlaces
  | useRaw f code => exact ⟨Binary32.valid_sixPlaces, hgrade.2⟩
  | useNorm f code => exact hno.elim
  | useLikeAvg code => exact hgrade
  | useClassAvg code => exact hgrade

theorem mem_scores {s : Section} (hs : s ∈ c.sections) {st : Student} (hst : st ∈ s.roster)
    {score : Score} (hscore : score ∈ st.rawscores) : score ∈ c.scores :=
  List.mem_flatMap.mpr ⟨s, hs, List.mem_flatMap.mpr ⟨st, hst, hscore⟩⟩

theorem IsCourse.reread (h : IsCourse c) (hgrades : ∀ s ∈ c.scores, s.grade.NoNorm) :
    IsCourse c.reread where
  number := h.number
  title := h.title
  professor := h.professor
  assignments := List.forall_mem_map.mpr fun a ha => (h.assignments a ha).reread
  sections := List.forall_mem_map.mpr fun s hs =>
    { name := (h.sections s hs).name
      assistant := (h.sections s hs).assistant
      roster := List.forall_mem_map.mpr fun st hst =>
        { id := ((h.sections s hs).roster st hst).id
          surname := ((h.sections s hs).roster st hst).surname
          name := ((h.sections s hs).roster st hst).name
          rawscores := List.forall_mem_map.mpr fun score hscore =>
            (((h.sections s hs).roster st hst).rawscores score hscore).reread
              (hgrades score (mem_scores hs hst hscore)) } }

theorem Course.noNorm_reread (hgrades : ∀ s ∈ c.scores, s.grade.NoNorm) :
    ∀ s ∈ c.reread.scores, s.grade.NoNorm := by
  intro score hscore
  obtain ⟨s', hs', hscore⟩ := List.mem_flatMap.mp hscore
  obtain ⟨s, hs, rfl⟩ := List.mem_map.mp hs'
  obtain ⟨st', hst', hscore⟩ := List.mem_flatMap.mp hscore
  obtain ⟨st, hst, rfl⟩ := List.mem_map.mp hst'
  obtain ⟨score', hscore', rfl⟩ := List.mem_map.mp hscore
  exact (Score.reread_reread (hgrades score' (mem_scores hs hst hscore'))).2

theorem Course.reread_reread (hgrades : ∀ s ∈ c.scores, s.grade.NoNorm) :
    c.reread.reread = c.reread := by
  have hassignments : c.reread.assignments.map Assignment.reread = c.reread.assignments :=
    map_eq_self.mpr (List.forall_mem_map.mpr fun a _ => a.reread_reread)
  have hsections : c.reread.sections.map (Section.reread c.reread.assignments) = c.reread.sections := by
    refine map_eq_self.mpr (List.forall_mem_map.mpr fun s hs => ?_)
    have hroster : (s.reread c.assignments).roster.map (Student.reread c.reread.assignments) =
        (s.reread c.assignments).roster := by
      refine map_eq_self.mpr (List.forall_mem_map.mpr fun st hst => ?_)
      have hscores : (st.reread c.assignments).rawscores.map (Score.reread c.reread.assignments) =
          (st.reread c.assignments).rawscores :=
        map_eq_self.mpr (List.forall_mem_map.mpr fun score hscore =>
          (Score.reread_reread (hgrades score (mem_scores hs hst hscore))).1)
      rw [Student.reread, hscores]
    rw [Section.reread, hroster]
  rw [Course.reread, hassignments, hsections]

/-- What has been written and read back once is written and read back as it is. -/
theorem readfile_writecourse_reread {root : Str} (h : IsCourse c)
    (hkeys : ∀ a ∈ c.assignments, a.npolicy.HasKeyword)
    (hgrades : ∀ s ∈ c.scores, s.grade.NoNorm) (hroot : files root = some (writecourse c.reread)) :
    ∃ n, ∀ m ≥ n, readfile files root m = .ok (c.reread, 0) := by
  have hkeys' : ∀ a ∈ c.reread.assignments, a.npolicy.HasKeyword :=
    List.forall_mem_map.mpr fun a ha => (hkeys a ha).reread
  obtain ⟨s', n, hread⟩ := readroot_writecourse hroot (h.reread hgrades) hkeys'
    (fits_of_noNorm (Course.noNorm_reread hgrades))
  rw [Course.reread_reread hgrades] at hread
  exact ⟨n, fun m hm => (readfile_eq_ok hroot).mpr ⟨s', hread m hm⟩⟩

theorem readfile_writecourse_reread_valid : ∃ n, ∀ m ≥ n,
    readfile (single [] (writecourse (oneScore (.valid (.finite 0))).reread)) [] m =
      .ok ((oneScore (.valid (.finite 0))).reread, 0) :=
  readfile_writecourse_reread (isCourse_oneScore Binary32.ofRat_zero)
    (List.forall_mem_singleton.mpr trivial) (List.forall_mem_singleton.mpr trivial) (if_pos rfl)

end Exact

end CLanguage.Gradebook
