import CLanguage.Gradebook.Complete
import CLanguage.Gradebook.Fields
import Mathlib

/-!
# Sections in files of their own

A text whose sections are moved to other files (`Parts`): `whole` is the text before,
`rendered` the text with the `FILE` lines, `stored` are the files. The lines that are
read of `rendered` stand for the same sections as those of `whole`, so that the
reader delivers the same course.
-/

namespace CLanguage.Gradebook

open Lib Lib.Reporting Grades

/-- A text in which groups of sections are to be replaced by the names of files. -/
inductive Parts
  | nil
  | text (t : Str) (rest : Parts)
  | file (name : Str) (inner rest : Parts)

namespace Parts

/-- The text as one file. -/
def whole : Parts → Str
  | nil => []
  | text t rest => t ++ rest.whole
  | file _ inner rest => inner.whole ++ rest.whole

/-- The line that names a file. -/
def fileLine (name : Str) : Str := Key.FILE ++ 32 :: name

/-- The text with a `FILE` line for each group. -/
def rendered : Parts → Str
  | nil => []
  | text t rest => t ++ rest.rendered
  | file name _ rest => fileLine name ++ 10 :: rest.rendered

/-- The files with the groups, which may name files in turn. -/
def stored : Parts → List (Str × Str)
  | nil => []
  | text _ rest => rest.stored
  | file name inner rest => (name, inner.rendered) :: (inner.stored ++ rest.stored)

/-- The text begins with a `SECTION` line. -/
def Begins (t : Str) : Prop := Keyed Key.SECTION ((lines t).headD [])

instance : DecidablePred Begins := fun t =>
  inferInstanceAs (Decidable (Keyed Key.SECTION ((lines t).headD [])))

/-- Two pieces of a text meet at the start of a `SECTION` line, or nothing follows the first. -/
def Boundary (before after : Str) : Prop :=
  after = [] ∨ (Begins after ∧ (before = [] ∨ before.getLast? = some 10))

/-- The groups consist of whole sections. -/
def Cut : Parts → Prop
  | nil => True
  | text t rest => Boundary t rest.whole ∧ rest.Cut
  | file _ inner rest =>
    Begins inner.whole ∧ Boundary inner.whole rest.whole ∧ inner.Cut ∧ rest.Cut

end Parts

/-- A name that a `FILE` line can have. -/
def FileName (name : Str) : Prop :=
  name.length < 64 ∧ OnLine name ∧ 0 ∉ name ∧ dropWhite name = name

/-! ## Complete lines -/

variable {l t before after key : Str} {blank : Bool} {files : Str → Option Str}
  {a : List Assignment} {ss : List Section} {ls : List Str}

/-- The text consists of complete lines. -/
inductive FullLines : Str → Prop
  | nil : FullLines []
  | line {l t : Str} : OnLine l → FullLines t → FullLines (l ++ 10 :: t)

theorem fullLines_of_getLast (h : 255 ∉ t) (hlast : t = [] ∨ t.getLast? = some 10) :
    FullLines t := by
  induction hn : t.length using Nat.strong_induction_on generalizing t with
  | _ n ih =>
    subst hn
    obtain ⟨l, rest, rfl, hl, hrest⟩ := exists_line h
    obtain rfl | ⟨u, rfl⟩ := hrest.2
    · rw [List.append_nil] at hlast ⊢
      obtain rfl | hlast := hlast
      · exact .nil
      · exact absurd (List.mem_of_getLast? hlast) hl.1
    · have hu : 255 ∉ u := fun hb => hrest.1 (List.mem_cons_of_mem _ hb)
      have hlength : u.length < (l ++ 10 :: u).length := by
        rw [List.length_append, List.length_cons]
        omega
      refine .line hl (ih u.length hlength hu ?_ rfl)
      cases u with
      | nil => exact .inl rfl
      | cons b u =>
        obtain hnil | hlast := hlast
        · exact absurd hnil (by simp)
        · exact .inr (by simpa using hlast)

theorem FullLines.ended (h : FullLines before) : Ended (before ++ after) ↔ Ended after := by
  induction h with
  | nil => rfl
  | line hl _ ih => rw [List.append_assoc, List.cons_append, ended_line hl, ih]

/-- The text is read in the same way behind an empty line. -/
def Fresh (t : Str) : Prop := ∀ blank, scanLines blank (lines t) = recordLines t

theorem fresh_nil : Fresh [] := fun blank => by cases blank <;> rfl

theorem fresh_of_keyed (h : Keyed key ((lines t).headD [])) (hkey : key.head? ≠ some 35) :
    Fresh t := by
  intro blank
  rcases hlines : lines t with _ | ⟨l, ls⟩
  · exact absurd hlines (lines_ne_nil t)
  rw [hlines, List.headD_cons] at h
  have hskip := h.not_skipped hkey
  rw [recordLines, hlines, scanLines_record hskip, scanLines_record hskip]

/-- If the reading does not stop in the first piece, the second one is read behind it. -/
theorem FullLines.scanLines_append (h : FullLines before) (hafter : Fresh after)
    (hread : (scanLines blank (lines before)).2 = []) : scanLines blank (lines (before ++ after)) =
      ((scanLines blank (lines before)).1 ++ (recordLines after).1, (recordLines after).2) := by
  induction h generalizing blank with
  | nil =>
    rw [List.nil_append, hafter blank, fresh_nil blank]
    rfl
  | @line l t hl _ ih =>
    rw [List.append_assoc, List.cons_append, lines_line hl, lines_line hl] at *
    obtain ⟨-, blank', hskip⟩ | ⟨-, hstop⟩ | hrecord := scanLines_cons blank l
    · rw [hskip] at hread
      rw [hskip, hskip, ih hread]
    · rw [hstop] at hread
      exact absurd hread (List.cons_ne_nil _ _)
    · rw [hrecord] at hread
      rw [hrecord, hrecord, ih hread]
      rfl

/-- If it does, the second piece is not read. -/
theorem FullLines.scanLines_stop (h : FullLines before)
    (hread : (scanLines blank (lines before)).2 ≠ []) :
    lines after <:+ (scanLines blank (lines (before ++ after))).2 := by
  have hsuffix {t : Str} (ht : FullLines t) : lines after <:+ lines (t ++ after) := by
    induction ht with
    | nil => exact List.suffix_refl _
    | line hl _ ih =>
      rw [List.append_assoc, List.cons_append, lines_line hl]
      exact ih.trans (List.suffix_cons _ _)
  induction h generalizing blank with
  | nil =>
    rw [fresh_nil blank] at hread
    exact absurd rfl hread
  | @line l t hl ht ih =>
    rw [List.append_assoc, List.cons_append, lines_line hl] at *
    obtain ⟨-, blank', hskip⟩ | ⟨-, hstop⟩ | hrecord := scanLines_cons blank l
    · rw [hskip] at hread ⊢
      exact ih hread
    · rw [hstop]
      exact (hsuffix ht).trans (List.suffix_cons _ _)
    · rw [hrecord] at hread ⊢
      exact ih hread

/-! ## Sections without files -/

theorem fileLines_of_blocks (h : Blocks (SectionLines a) ss ls) {ss' : List Section} {ls' : List Str}
    (h' : FileLines files a ss' ls') : FileLines files a (ss ++ ss') (ls ++ ls') := by
  induction h with
  | nil => exact h'
  | cons hsection _ ih =>
    rw [List.append_assoc]
    exact .section hsection ih

theorem FileLines.blocks (h : FileLines files a ss ls) (hls : ∀ l ∈ ls, ¬ Keyed Key.FILE l) :
    Blocks (SectionLines a) ss ls := by
  induction h with
  | nil => exact .nil
  | «section» hsection _ ih =>
    exact .cons hsection (ih fun l hl => hls l (List.mem_append_right _ hl))
  | file hl _ _ _ => exact absurd hl.keyed (hls _ List.mem_cons_self)

/-! ## Pieces of a text -/

/-- The text ends with white space, and no section of it is left unread. -/
def Whole (t : Str) : Prop := Ended t ∧ ∀ l ∈ (recordLines t).2, ¬ Keyed Key.SECTION l

theorem Parts.Begins.ne_nil (h : Parts.Begins t) : t ≠ [] := by
  rintro rfl
  exact h.1 rfl

theorem Parts.Begins.fresh (h : Parts.Begins t) : Fresh t := fresh_of_keyed h (by decide)

theorem Parts.Begins.head (h : Parts.Begins t) : ∃ l ls, lines t = l :: ls ∧ Keyed Key.SECTION l ∧
    recordLines t = (dropWhite l :: (scanLines false ls).1, (scanLines false ls).2) := by
  rcases hlines : lines t with _ | ⟨l, ls⟩
  · exact absurd hlines (lines_ne_nil t)
  rw [Parts.Begins, hlines, List.headD_cons] at h
  refine ⟨l, ls, rfl, h, ?_⟩
  rw [recordLines, hlines, scanLines_record (h.not_skipped (by decide))]

theorem Parts.Boundary.split (hb : Parts.Boundary before after) (h : Whole (before ++ after)) :
    (after = [] ∧ Whole before) ∨ (Parts.Begins after ∧ FullLines before ∧ Whole before ∧ Whole after ∧
      (recordLines before).2 = [] ∧ recordLines (before ++ after) =
        ((recordLines before).1 ++ (recordLines after).1, (recordLines after).2)) := by
  obtain rfl | ⟨hbegins, hlast⟩ := hb
  · rw [List.append_nil] at h
    exact .inl ⟨rfl, h⟩
  have hascii : 255 ∉ before := fun hb => h.1.1 (List.mem_append_left _ hb)
  have hfull := fullLines_of_getLast hascii hlast
  -- were a line of the first piece unread, the keyword behind it would be too
  have hread : (recordLines before).2 = [] := by
    by_contra hne
    obtain ⟨l, ls, hlines, hl, -⟩ := hbegins.head
    have hmem : l ∈ lines after := by
      rw [hlines]
      exact List.mem_cons_self
    exact h.2 l ((hfull.scanLines_stop hne).subset hmem) hl
  have hlines : recordLines (before ++ after) =
      ((recordLines before).1 ++ (recordLines after).1, (recordLines after).2) :=
    hfull.scanLines_append hbegins.fresh hread
  have hbefore : Ended before := by
    rw [← List.append_nil before, hfull.ended]
    exact ended_nil
  have hwhole := h.2
  rw [hlines] at hwhole
  refine .inr ⟨hbegins, hfull, ⟨hbefore, ?_⟩, ⟨hfull.ended.mp h.1, hwhole⟩, hread, hlines⟩
  rw [hread]
  exact List.forall_mem_nil _

/-- The lines of `t'` stand for the same sections as those of `t`, behind the same other lines. -/
structure Replaces (files : Str → Option Str) (a : List Assignment) (t t' : Str) : Prop where
  nil : t = [] → t' = []
  begins : Parts.Begins t → ∃ key ∈ fileKeys, Keyed key ((CLanguage.Gradebook.lines t').headD [])
  ended : Ended t'
  lines : ∀ header body ss, (recordLines t).1 = header ++ body →
    (∀ l ∈ header, ¬ Keyed Key.SECTION l) → Blocks (SectionLines a) ss body →
    ∃ body', (recordLines t').1 = header ++ body' ∧ FileLines files a ss body'
  unread : (recordLines t').2 = [] ∨ (recordLines t').2 = (recordLines t).2

theorem replaces_self (h : Ended t) : Replaces files a t t where
  nil := id
  begins h := ⟨Key.SECTION, by decide, h⟩
  ended := h
  lines header body ss hlines _ hblocks := by
    refine ⟨body, hlines, ?_⟩
    have hfile : FileLines files a (ss ++ []) (body ++ []) := fileLines_of_blocks hblocks .nil
    rwa [List.append_nil, List.append_nil] at hfile
  unread := .inr rfl

theorem Replaces.fresh {t' : Str} (h : Replaces files a t t') (ht : Parts.Begins t) : Fresh t' := by
  have hkeys : ∀ key ∈ fileKeys, key.head? ≠ some 35 := by decide
  obtain ⟨key, hmem, hkey⟩ := h.begins ht
  exact fresh_of_keyed hkey (hkeys key hmem)

/-- A division of lines behind lines that start no section. -/
theorem split_header {header body ls ls' : List Str} (h : ls ++ ls' = header ++ body)
    (hheader : ∀ l ∈ header, ¬ Keyed Key.SECTION l) (hls' : ∀ l ∈ ls'.head?, Keyed Key.SECTION l) :
    ∃ u, ls = header ++ u ∧ body = u ++ ls' := by
  obtain ⟨u, rfl, rfl⟩ | ⟨u, rfl, rfl⟩ := List.append_eq_append_iff.mp h
  · cases u with
    | nil => exact ⟨[], (List.append_nil _).symm ▸ (List.append_nil _).symm, rfl⟩
    | cons l u =>
      exact absurd (hls' l rfl) (hheader l (List.mem_append_right _ List.mem_cons_self))
  · exact ⟨u, rfl, rfl⟩

theorem Parts.Begins.head_keyed (h : Parts.Begins t) :
    ∀ l ∈ (recordLines t).1.head?, Keyed Key.SECTION l := by
  obtain ⟨m, ls, -, hm, hlines⟩ := h.head
  rw [hlines]
  rintro l hl
  rw [← Option.some.inj hl]
  exact keyed_dropWhite.mpr hm

/-- What follows a piece of the text can be replaced. -/
theorem Replaces.append {after' : Str} (hb : Parts.Boundary before after)
    (h : Whole (before ++ after)) (hr : Replaces files a after after') :
    Replaces files a (before ++ after) (before ++ after') := by
  obtain ⟨rfl, hbefore⟩ | ⟨hbegins, hfull, -, -, hread, hlines⟩ := hb.split h
  · rw [hr.nil rfl]
    exact replaces_self h.1
  have hlines' : recordLines (before ++ after') =
      ((recordLines before).1 ++ (recordLines after').1, (recordLines after').2) :=
    hfull.scanLines_append (hr.fresh hbegins) hread
  constructor
  · intro hnil
    exact absurd (List.append_eq_nil_iff.mp hnil).2 hbegins.ne_nil
  · intro hstart
    cases hfull with
    | nil => exact hr.begins hbegins
    | line hl _ =>
      rw [List.append_assoc, List.cons_append, Parts.Begins, lines_line hl] at hstart
      rw [List.append_assoc, List.cons_append, lines_line hl]
      exact ⟨Key.SECTION, by decide, hstart⟩
  · exact hfull.ended.mpr hr.ended
  · intro header body ss heq hheader hblocks
    rw [hlines] at heq
    obtain ⟨u, hu, rfl⟩ := split_header heq hheader hbegins.head_keyed
    obtain ⟨ss₁, ss₂, rfl, h₁, h₂⟩ := hblocks.split (headed_sectionLines a) hbegins.head_keyed
    obtain ⟨body', hbody', hfile⟩ := hr.lines [] _ ss₂ rfl (List.forall_mem_nil _) h₂
    -- the sections of the piece before stand in both texts
    refine ⟨u ++ body', ?_, fileLines_of_blocks h₁ hfile⟩
    rw [hlines', hbody', hu, List.nil_append, List.append_assoc]
  · rw [hlines, hlines']
    exact hr.unread

/-! ## Names of files -/

theorem fileLine_readAs {name : Str} (h : FileName name) :
    ReadAs Key.FILE readname (Parts.fileLine name) name := by
  obtain ⟨hlength, hname, hnull, hdrop⟩ := h
  have hword : firstWord (Parts.fileLine name) = (Key.FILE, 32 :: name) :=
    firstWord_word (by decide +kernel) (by decide) (by decide)
  have hblank : OnLine (32 :: name) := onLine_cons.mpr ⟨by decide, by decide, hname⟩
  have hdrop' : dropWhite (32 :: name) = name := hdrop
  have hline : OnLine (Parts.fileLine name) := by
    have hkey : (10 : UInt8) ∉ Key.FILE ∧ (255 : UInt8) ∉ Key.FILE := by decide
    rw [Parts.fileLine]
    constructor
    · simpa [List.mem_append, not_or] using ⟨hkey.1, hname.1⟩
    · simpa [List.mem_append, not_or] using ⟨hkey.2, hname.2⟩
  have hrun := readname_clean hblank (by rwa [hdrop'])
  rw [hdrop', cstr_eq_self hnull] at hrun
  refine readAs_iff.mpr ⟨hline, ?_, ?_, ?_⟩
  · rw [hword]
    exact (by decide : Key.FILE.length < 64)
  · rw [Keyed, hword]
    exact (by decide : Key.FILE ≠ [] ∧ cstr Key.FILE = Key.FILE)
  · rwa [hword]

/-- A group of sections can be replaced by the name of a file that holds it. -/
theorem Replaces.file {after' inner' name : Str} (hbegins : Parts.Begins before)
    (hb : Parts.Boundary before after) (h : Whole (before ++ after))
    (hinner : Replaces files a before inner') (hr : Replaces files a after after')
    (hname : FileName name) (hfile : files name = some inner') :
    Replaces files a (before ++ after) (Parts.fileLine name ++ 10 :: after') := by
  have hread := fileLine_readAs hname
  have hlines' : recordLines (Parts.fileLine name ++ 10 :: after') =
      (Parts.fileLine name :: (recordLines after').1, (recordLines after').2) := by
    have hskip := hread.keyed.not_skipped (by decide)
    rw [recordLines, lines_line hread.1, scanLines_record hskip]
    rfl
  -- the lines of both pieces
  obtain ⟨hlines, hstart, hunread⟩ : (recordLines (before ++ after)).1 =
      (recordLines before).1 ++ (recordLines after).1 ∧
      (∀ l ∈ (recordLines after).1.head?, Keyed Key.SECTION l) ∧
      ((recordLines after').2 = [] ∨ (recordLines after').2 = (recordLines (before ++ after)).2) := by
    obtain ⟨rfl, -⟩ | ⟨hbegins', -, -, -, -, hlines⟩ := hb.split h
    · rw [List.append_nil, hr.nil rfl]
      exact ⟨(List.append_nil _).symm, fun _ hl => absurd hl (Option.not_mem_none _), .inl rfl⟩
    · rw [hlines]
      exact ⟨rfl, hbegins'.head_keyed, hr.unread⟩
  constructor
  · intro hnil
    exact absurd (List.append_eq_nil_iff.mp hnil).1 hbegins.ne_nil
  · intro _
    rw [lines_line hread.1]
    exact ⟨Key.FILE, by decide, hread.keyed⟩
  · exact (ended_line hread.1).mpr hr.ended
  · intro header body ss heq hheader hblocks
    rw [hlines] at heq
    -- the group starts with a section
    obtain ⟨m, ls, -, hm, hm'⟩ := hbegins.head
    obtain rfl : header = [] := by
      cases header with
      | nil => rfl
      | cons l header =>
        rw [hm', List.cons_append, List.cons_append] at heq
        obtain ⟨rfl, -⟩ := List.cons_eq_cons.mp heq
        exact absurd (keyed_dropWhite.mpr hm) (hheader _ List.mem_cons_self)
    rw [List.nil_append] at heq
    rw [← heq] at hblocks
    obtain ⟨ss₁, ss₂, rfl, h₁, h₂⟩ := hblocks.split (headed_sectionLines a) hstart
    obtain ⟨body₁, hbody₁, hfile₁⟩ := hinner.lines [] _ ss₁ rfl (List.forall_mem_nil _) h₁
    obtain ⟨body₂, hbody₂, hfile₂⟩ := hr.lines [] _ ss₂ rfl (List.forall_mem_nil _) h₂
    rw [List.nil_append] at hbody₁ hbody₂
    rw [← hbody₁] at hfile₁
    refine ⟨Parts.fileLine name :: body₂, ?_, .file hread hfile hfile₁ hfile₂⟩
    rw [hlines', hbody₂]
    rfl
  · rw [hlines']
    exact hunread

/-! ## Any depth -/

namespace Parts

theorem replaces {p : Parts} (hcut : p.Cut) (h : Whole p.whole)
    (hstored : ∀ q ∈ p.stored, FileName q.1 ∧ files q.1 = some q.2) :
    Replaces files a p.whole p.rendered ∧ ∀ q ∈ p.stored, Ended q.2 := by
  induction p with
  | nil => exact ⟨replaces_self h.1, List.forall_mem_nil _⟩
  | text t rest ih =>
    obtain ⟨hb, hcut⟩ := hcut
    have hrest : Whole rest.whole := by
      obtain ⟨hnil, -⟩ | ⟨-, -, -, hrest, -⟩ := hb.split h
      · rw [hnil]
        exact ⟨ended_nil, List.forall_mem_nil _⟩
      · exact hrest
    obtain ⟨hr, hended⟩ := ih hcut hrest hstored
    exact ⟨hr.append hb h, hended⟩
  | file name inner rest ihinner ihrest =>
    obtain ⟨hbegins, hb, hcut₁, hcut₂⟩ := hcut
    -- the piece in the file and what follows it can be read by themselves
    have hpieces : Whole inner.whole ∧ Whole rest.whole := by
      obtain ⟨hnil, hinner⟩ | ⟨-, -, hinner, hrest, -⟩ := hb.split h
      · rw [hnil]
        exact ⟨hinner, ended_nil, List.forall_mem_nil _⟩
      · exact ⟨hinner, hrest⟩
    obtain ⟨hfile, hstored⟩ := List.forall_mem_cons.mp hstored
    obtain ⟨hstored₁, hstored₂⟩ := List.forall_mem_append.mp hstored
    obtain ⟨hr₁, hended₁⟩ := ihinner hcut₁ hpieces.1 hstored₁
    obtain ⟨hr₂, hended₂⟩ := ihrest hcut₂ hpieces.2 hstored₂
    refine ⟨.file hbegins hb h hr₁ hr₂ hfile.1 hfile.2, ?_⟩
    exact List.forall_mem_cons.mpr ⟨hr₁.ended, List.forall_mem_append.mpr ⟨hended₁, hended₂⟩⟩

end Parts

/-! ## The same course -/

/-- The text is the only file. -/
def single (root text : Str) : Str → Option Str :=
  fun name => if name = root then some text else none

/-- More files make no difference to a clean run. -/
theorem readsections_refines {files' : Str → Option Str}
    (h : ∀ name text, files name = some text → files' name = some text) (n : ℕ) :
    Refines (readsections files a n) (readsections files' a n) := by
  induction n with
  | zero => exact Refines.refl _
  | succ n ih =>
    have hopen (name : Str) : Refines (openfile files name) (openfile files' name) := by
      intro s u s' hrun
      rw [openfile] at hrun ⊢
      rcases hfile : files name with _ | text
      · rw [hfile] at hrun
        obtain ⟨_, hstop, -⟩ := clean_seq.mp hrun
        exact absurd hstop not_clean_stop
      · rw [hfile] at hrun
        rwa [h name text hfile]
    rw [readsections_succ, readsections_succ]
    refine (Refines.refl _).bind fun _ => (Refines.refl _).bind fun _ => .ite ?_ (Refines.refl _)
    refine (Refines.refl _).bind fun _ => .ite ?_ ?_
    · exact (Refines.refl _).bind fun _ => (hopen _).bind fun _ => ih
    refine (Refines.refl _).bind fun _ => .ite ?_ (Refines.refl _)
    exact (Refines.refl _).bind fun _ => (Refines.refl _).bind fun _ =>
      (Refines.refl _).bind fun _ => ih.bind fun _ => Refines.refl _

theorem readroot_refines {files' : Str → Option Str}
    (h : ∀ name text, files name = some text → files' name = some text) (n : ℕ) :
    Refines (readroot files n) (readroot files' n) := by
  refine (Refines.refl _).bind fun _ => Refines.bind ?_ fun _ => Refines.refl _
  rw [readcourse_eq, readcourse_eq]
  exact (Refines.refl _).bind fun _ => (Refines.refl _).bind fun _ => (Refines.refl _).bind fun _ =>
    (Refines.refl _).bind fun _ => (readsections_refines h n).bind fun _ => Refines.refl _

/-- The files that a text with replaced sections names. -/
def Parts.named (p : Parts) (files : Str → Option Str) (name : Str) : Option Str :=
  if name ∈ p.stored.map Prod.fst then files name else none

/-- A text that is accepted as a single file is accepted, and read as the same course, when whole
sections of it are moved to files of their own, which `FILE` lines name. -/
theorem readfile_includes {p : Parts} {root root' : Str} {c : Course} {n : ℕ}
    (hascii : 255 ∉ p.whole) (hfree : ∀ l ∈ lines p.whole, ¬ Keyed Key.FILE l)
    (hrun : readfile (single root p.whole) root n = .ok (c, 0)) (hcut : p.Cut)
    (hroot : files root' = some p.rendered)
    (hstored : ∀ q ∈ p.stored, FileName q.1 ∧ files q.1 = some q.2) :
    ∃ m, ∀ k ≥ m, readfile files root' k = .ok (c, 0) := by
  have hsingle : AsciiFiles (single root p.whole) := by
    intro name text hname
    rw [single] at hname
    split_ifs at hname
    rwa [← Option.some.inj hname]
  obtain ⟨s', hrun⟩ := (readfile_eq_ok (if_pos rfl)).mp hrun
  obtain ⟨⟨header, body, hlines, hheader, hbody⟩, hclosed, hended⟩ :=
    readroot_reads hsingle hascii hrun
  have hwhole : Whole p.whole :=
    ⟨hended, fun l hl hkey => hkey.not_skipped (by decide) (hclosed.skipped l hl)⟩
  have hnamed : ∀ q ∈ p.stored, FileName q.1 ∧ p.named files q.1 = some q.2 := by
    intro q hq
    obtain ⟨hname, hfile⟩ := hstored q hq
    refine ⟨hname, ?_⟩
    rw [Parts.named, if_pos (List.mem_map_of_mem hq), hfile]
  obtain ⟨hr, htexts⟩ := Parts.replaces (a := c.assignments) hcut hwhole hnamed
  -- neither a section of the text nor a line before the sections names a file
  have hnofile : ∀ l ∈ body, ¬ Keyed Key.FILE l := by
    intro l hl hkey
    have hmem : l ∈ (recordLines p.whole).1 := hlines ▸ List.mem_append_right _ hl
    obtain ⟨m, hm, rfl⟩ := mem_scanLines hmem
    exact hfree m hm (keyed_dropWhite.mp hkey)
  have hnosection : ∀ l ∈ header, ¬ Keyed Key.SECTION l := by
    have hne : ∀ key ∈ headerKeys, key ≠ Key.SECTION := by decide
    intro l hl hkey
    obtain ⟨key, hmem, hkey'⟩ := hheader.keyed l hl
    exact hne key hmem (hkey'.unique hkey)
  obtain ⟨body', hbody', hfile⟩ :=
    hr.lines header body c.sections hlines hnosection (hbody.blocks hnofile)
  have hclosed' : Closed (recordLines p.rendered).2 := by
    obtain hnil | heq := hr.unread
    · exact .inl hnil
    · rwa [heq]
  have hended' : ∀ name text, p.named files name = some text → Ended text := by
    intro name text hname
    rw [Parts.named] at hname
    split_ifs at hname with hmem
    obtain ⟨q, hq, rfl⟩ := List.mem_map.mp hmem
    rw [(hstored q hq).2] at hname
    rw [← Option.some.inj hname]
    exact htexts q hq
  obtain ⟨s'', m, hm⟩ :=
    readroot_settles hended' hr.ended ⟨header, body', hbody', hheader, hfile⟩ hclosed'
  refine ⟨m, fun k hk => (readfile_eq_ok hroot).mpr ⟨s'', ?_⟩⟩
  refine readroot_refines (fun name text hname => ?_) k _ _ _ (hm k hk)
  rw [Parts.named] at hname
  split_ifs at hname
  exact hname

/-- Two sections, the first one in the file `x`, the second one in a file that `x` names. -/
def nestedParts : Parts :=
  .text (ascii ['C', 'O', 'U', 'R', 'S', 'E', ' ', 'c', ' ', 't', '\n'])
    (.file (ascii ['x']) (.text (ascii ['S', 'E', 'C', 'T', 'I', 'O', 'N', ' ', '1', '\n'])
      (.file (ascii ['y']) (.text (ascii ['S', 'E', 'C', 'T', 'I', 'O', 'N', ' ', '2', '\n']) .nil)
        .nil)) .nil)

def nestedCourse : Course :=
  ⟨ascii ['c'], ascii ['t'], none, [], [⟨ascii ['1'], none, []⟩, ⟨ascii ['2'], none, []⟩]⟩

def nestedFiles (name : Str) : Option Str :=
  if name = ascii ['r'] then some nestedParts.rendered
  else (nestedParts.stored.find? fun q => q.1 = name).map Prod.snd

theorem readfile_includes_example :
    ∃ m, ∀ k ≥ m, readfile nestedFiles (ascii ['r']) k = .ok (nestedCourse, 0) := by
  have hname (name : Str) (h : name = ascii ['x'] ∨ name = ascii ['y']) : FileName name := by
    obtain rfl | rfl := h
    · exact ⟨by decide, ⟨by decide, by decide⟩, by decide, by decide⟩
    · exact ⟨by decide, ⟨by decide, by decide⟩, by decide, by decide⟩
  have hrun : readfile (single (ascii ['r']) nestedParts.whole) (ascii ['r']) 10 =
    .ok (nestedCourse, 0) := by decide_cbv
  refine readfile_includes (by decide_cbv) (by decide_cbv) hrun ?_ (by decide_cbv) ?_
  · refine ⟨.inr ⟨?_, .inr (by decide)⟩, ?_, .inl rfl, ⟨.inr ⟨?_, .inr (by decide)⟩, ?_, .inl rfl,
      ⟨.inl rfl, trivial⟩, trivial⟩, trivial⟩
    · decide_cbv
    · decide_cbv
    · decide_cbv
    · decide_cbv
  · exact List.forall_mem_cons.mpr ⟨⟨hname _ (.inl rfl), by decide_cbv⟩,
      List.forall_mem_singleton.mpr ⟨hname _ (.inr rfl), by decide_cbv⟩⟩

end CLanguage.Gradebook
