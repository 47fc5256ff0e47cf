import CLanguage.Gradebook.Lines
import Mathlib.Data.List.DropRight

/-!
# The lines that are read

`recordLines` divides a text into the lines with records, up to the first line of
white space that is not skipped, and the lines from there on. What
`gobbleblanklines` skips makes no difference to it (`recordLines_skipBlanks`), and a
line that is read is its first line (`recordLines_line`).
-/

namespace CLanguage.Gradebook

open Lib Grades

/-- The lines of a text; the last one is what follows the last newline. -/
def lines : Str → List Str
  | [] => [[]]
  | b :: t => if b = 10 then [] :: lines t else (b :: (lines t).headD []) :: (lines t).tail

/-- The lines with records and the rest. `blank` says that the line before was empty, so that white
space at the start of the line is dropped. -/
def scanLines : Bool → List Str → List Str × List Str
  | _, [] => ([], [])
  | blank, l :: ls =>
    let l' := if blank then dropWhite l else l
    if l' = [] then scanLines true ls
    else if l'.head? = some 35 then scanLines false ls
    -- a line of white space ends the file
    else if dropWhite l' = [] then ([], l :: ls)
    else (dropWhite l' :: (scanLines false ls).1, (scanLines false ls).2)

/-- The lines of a text that are read, without white space at their start, and those that are not. -/
def recordLines (t : Str) : List Str × List Str := scanLines false (lines t)

variable {l rest t t' : Str}

/-! ## Words and lines -/

theorem lineEnd_newline (h : 255 ∉ t) : LineEnd (10 :: t) := by
  refine ⟨fun hb => ?_, .inr ⟨t, rfl⟩⟩
  obtain hb | hb := List.mem_cons.mp hb
  · exact absurd hb (by decide)
  · exact h hb

theorem dropWhite_append (l : Str) (h : LineEnd rest) :
    dropWhite (l ++ rest) = dropWhite l ++ rest := by
  induction l with
  | nil =>
    rcases h.2 with rfl | ⟨t, rfl⟩
    · rfl
    · rfl
  | cons b l ih =>
    rw [List.cons_append, dropWhite, dropWhite, List.dropWhile_cons, List.dropWhile_cons]
    split
    · exact ih
    · rfl

theorem takeWhile_plain_append (l : Str) (h : LineEnd rest) :
    (l ++ rest).takeWhile isplain = l.takeWhile isplain ∧
      (l ++ rest).dropWhile isplain = l.dropWhile isplain ++ rest := by
  induction l with
  | nil =>
    rcases h.2 with rfl | ⟨t, rfl⟩
    · exact ⟨rfl, rfl⟩
    · exact ⟨rfl, rfl⟩
  | cons b l ih =>
    rw [List.cons_append, List.takeWhile_cons, List.dropWhile_cons, List.takeWhile_cons,
      List.dropWhile_cons, ih.1]
    split
    · exact ⟨rfl, ih.2⟩
    · exact ⟨rfl, rfl⟩

/-- The first word of a text is on its first line, if there is one. -/
theorem firstWord_append (l : Str) (h : LineEnd rest) :
    firstWord (l ++ rest) = ((firstWord l).1, (firstWord l).2 ++ rest) := by
  rw [firstWord, dropWhite_append l h, (takeWhile_plain_append _ h).1,
    (takeWhile_plain_append _ h).2]
  rfl

theorem dropWhite_dropWhite (l : Str) : dropWhite (dropWhite l) = dropWhite l :=
  List.dropWhile_idempotent iswhitespace l

theorem firstWord_dropWhite (l : Str) : firstWord (dropWhite l) = firstWord l := by
  rw [firstWord, dropWhite_dropWhite]
  rfl

theorem firstWord_suffix (l : Str) : (firstWord l).2 <:+ l :=
  (List.dropWhile_suffix _).trans (dropWhite_suffix l)

/-- Only white space has no first word. -/
theorem firstWord_eq_nil (h : OnLine l) : (firstWord l).1 = [] ↔ dropWhite l = [] := by
  constructor
  · intro hword
    rcases hd : dropWhite l with _ | ⟨b, u⟩
    · rfl
    have hwhite : iswhitespace b = false := by
      have hhead := List.head?_dropWhile_not iswhitespace l
      rw [dropWhite] at hd
      rw [hd] at hhead
      simpa using hhead
    have hb : b ≠ 10 := by
      rintro rfl
      exact (h.suffix (dropWhite_suffix l)).1 (hd ▸ List.mem_cons_self)
    have hplain : isplain b = true := by simp [isplain, hwhite, hb]
    rw [firstWord, hd, List.takeWhile_cons, hplain] at hword
    exact absurd hword (by simp)
  · intro hd
    rw [firstWord, hd]
    rfl

theorem lines_line (h : OnLine l) (t : Str) : lines (l ++ 10 :: t) = l :: lines t := by
  induction l with
  | nil => rfl
  | cons b l ih =>
    obtain ⟨hb, -, hl⟩ := onLine_cons.mp h
    rw [List.cons_append, lines, if_neg hb, ih hl]
    rfl

theorem lines_cut (h : OnLine l) : lines l = [l] := by
  induction l with
  | nil => rfl
  | cons b l ih =>
    obtain ⟨hb, -, hl⟩ := onLine_cons.mp h
    rw [lines, if_neg hb, ih hl]
    rfl

/-- The first line of a text and the others. -/
theorem lines_append (h : OnLine l) (hrest : LineEnd rest) :
    lines (l ++ rest) = l :: (lines rest).tail := by
  rcases hrest.2 with rfl | ⟨t, rfl⟩
  · rw [List.append_nil, lines_cut h]
    rfl
  · rw [lines_line h]
    rfl

/-! ## One line -/

/-- The line is white or a comment. -/
def Skipped (l : Str) : Prop := (firstWord l).1 = [] ∨ (firstWord l).1.head? = some 35

theorem skipped_dropWhite : Skipped (dropWhite l) ↔ Skipped l := by
  rw [Skipped, firstWord_dropWhite]
  rfl

theorem skipped_comment (h : l.head? = some 35) : Skipped l := by
  cases l with
  | nil => exact absurd h nofun
  | cons b l =>
    obtain rfl := Option.some.inj h
    exact .inr rfl

/-- What becomes of the first line: it is skipped, it ends the file, or it is read. -/
theorem scanLines_cons (blank : Bool) (l : Str) :
    (Skipped l ∧ ∃ blank', ∀ ls, scanLines blank (l :: ls) = scanLines blank' ls) ∨
      (Skipped l ∧ ∀ ls, scanLines blank (l :: ls) = ([], l :: ls)) ∨
      ∀ ls, scanLines blank (l :: ls) =
        (dropWhite l :: (scanLines false ls).1, (scanLines false ls).2) := by
  have hdrop : Skipped (if blank = true then dropWhite l else l) ↔ Skipped l := by
    split
    · exact skipped_dropWhite
    · rfl
  have hwhite : dropWhite (if blank = true then dropWhite l else l) = dropWhite l := by
    split
    · exact dropWhite_dropWhite l
    · rfl
  simp only [scanLines, hwhite]
  generalize (if blank = true then dropWhite l else l) = l' at hdrop
  -- the tests of the source in its order: an empty line, a comment, a line of white space
  by_cases hnil : l' = []
  · exact .inl ⟨hdrop.mp (.inl (by rw [hnil]; rfl)), true, fun ls => if_pos hnil⟩
  by_cases hcomment : l'.head? = some 35
  · exact .inl ⟨hdrop.mp (skipped_comment hcomment), false, fun ls => by
      rw [if_neg hnil, if_pos hcomment]⟩
  simp only [if_neg hnil, if_neg hcomment]
  by_cases hstop : dropWhite l = []
  · refine .inr (.inl ⟨.inl ?_, fun ls => if_pos hstop⟩)
    rw [firstWord, hstop]
    rfl
  · exact .inr (.inr fun ls => if_neg hstop)

theorem scanLines_record (h : ¬ Skipped l) (blank : Bool) (ls : List Str) :
    scanLines blank (l :: ls) = (dropWhite l :: (scanLines false ls).1, (scanLines false ls).2) := by
  obtain ⟨hskip, -⟩ | ⟨hskip, -⟩ | hread := scanLines_cons blank l
  · exact absurd hskip h
  · exact absurd hskip h
  · exact hread ls

/-! ## What is skipped -/

theorem scanLines_white (ls : List Str) (l : Str) :
    scanLines true (l :: ls) = scanLines false (dropWhite l :: ls) := by
  simp only [scanLines, if_true, Bool.false_eq_true, if_false]
  split
  · rfl
  split
  · rfl
  · next hne _ =>
    rw [if_neg (by rwa [dropWhite_dropWhite])]
    rw [if_neg (by rwa [dropWhite_dropWhite])]

/-- Behind an empty line the white space at the start of the next one makes no difference. -/
theorem scanLines_lines (h : 255 ∉ t) :
    scanLines true (lines t) = recordLines (dropWhite t) := by
  obtain ⟨l, rest, rfl, hl, hrest⟩ := exists_line h
  rw [recordLines, dropWhite_append l hrest, lines_append hl hrest,
    lines_append (hl.suffix (dropWhite_suffix l)) hrest, scanLines_white]

theorem recordLines_skipBlanks (h : 255 ∉ t) (hok : skipBlanks t = .ok t') :
    recordLines t = recordLines t' := by
  induction t using skipBlanks_cases with
  | hrecord t hr =>
    rw [skipBlanks_record h hr] at hok
    rw [Except.ok.inj hok]
  | hcomment t ih =>
    have ht : 255 ∉ t := not_mem_of_suffix h (List.suffix_cons 35 t)
    rw [skipBlanks_comment ht] at hok
    rcases hline : skipLine t with _ | u
    · rw [hline] at hok
      exact absurd hok nofun
    rw [hline] at hok
    have hrest := ih u hline (not_mem_of_suffix ht (skipLine_suffix hline)) hok
    obtain ⟨l, rest, rfl, hl, hend⟩ := exists_line ht
    -- the comment ends with a newline, since the file goes on behind it
    rcases hend.2 with rfl | ⟨v, rfl⟩
    · rw [List.append_nil, skipLine_cut hl] at hline
      exact absurd hline nofun
    · rw [skipLine_end hl] at hline
      obtain rfl := Option.some.inj hline
      have hcomment : OnLine (35 :: l) := onLine_cons.mpr ⟨by decide, by decide, hl⟩
      rw [← hrest, recordLines, ← List.cons_append, lines_line hcomment, scanLines]
      rfl
  | hnewline t ih =>
    have ht : 255 ∉ t := not_mem_of_suffix h (List.suffix_cons 10 t)
    rw [skipBlanks_newline ht] at hok
    rw [← ih (not_mem_of_suffix ht (dropWhite_suffix t)) hok, ← scanLines_lines ht]
    rfl

/-! ## What is read -/

/-- A line with a record. -/
theorem recordLines_line (hl : OnLine l) (hr : AtRecord (l ++ 10 :: t))
    (hword : (firstWord l).1 ≠ []) :
    recordLines (l ++ 10 :: t) = (dropWhite l :: (recordLines t).1, (recordLines t).2) := by
  have hwhite : dropWhite l ≠ [] := mt (firstWord_eq_nil hl).mpr hword
  have hne : l ≠ [] := by
    rintro rfl
    exact hwhite rfl
  have hcomment : l.head? ≠ some 35 := by
    intro hhead
    have hmem : 35 ∈ (l ++ 10 :: t).head? := by
      rw [List.head?_append, hhead]
      rfl
    exact (hr 35 hmem).1 rfl
  rw [recordLines, lines_line hl, scanLines]
  simp only [Bool.false_eq_true, if_false]
  rw [if_neg hne, if_neg hcomment, if_neg hwhite]
  rfl

/-- Where there is no word, nothing is read any more. -/
theorem recordLines_white (hl : OnLine l) (hrest : LineEnd rest) (hr : AtRecord (l ++ rest))
    (hword : (firstWord l).1 = []) :
    recordLines (l ++ rest) = ([], if l = [] then [] else l :: (lines rest).tail) := by
  have hwhite := (firstWord_eq_nil hl).mp hword
  rw [recordLines, lines_append hl hrest, scanLines]
  simp only [Bool.false_eq_true, if_false]
  rcases eq_or_ne l [] with rfl | hne
  · rcases hrest.2 with rfl | ⟨t, rfl⟩
    · rfl
    · exact absurd rfl (hr 10 rfl).2
  · rw [if_neg hne]
    have hcomment : l.head? ≠ some 35 := by
      intro hhead
      obtain ⟨u, rfl⟩ : ∃ u, l = 35 :: u := by
        cases l with
        | nil => exact absurd hhead nofun
        | cons b u => exact ⟨u, by rw [Option.some.inj hhead]⟩
      exact absurd hwhite (by simp [dropWhite, iswhitespace])
    rw [if_neg hcomment, if_pos hwhite, if_neg hne]

/-! ## The lines that are skipped -/

theorem mem_scanLines {blank : Bool} {ls : List Str} (h : l ∈ (scanLines blank ls).1) :
    ∃ m ∈ ls, l = dropWhite m := by
  induction ls generalizing blank with
  | nil => exact absurd h List.not_mem_nil
  | cons m ls ih =>
    have hrest {blank' : Bool} (h : l ∈ (scanLines blank' ls).1) : ∃ n ∈ m :: ls, l = dropWhite n := by
      obtain ⟨n, hn, rfl⟩ := ih h
      exact ⟨n, List.mem_cons_of_mem _ hn, rfl⟩
    obtain ⟨-, blank', hskip⟩ | ⟨-, hstop⟩ | hread := scanLines_cons blank m
    · exact hrest (hskip ls ▸ h)
    · rw [hstop] at h
      exact absurd h List.not_mem_nil
    · rw [hread] at h
      obtain rfl | h := List.mem_cons.mp h
      · exact ⟨m, List.mem_cons_self, rfl⟩
      · exact hrest h

/-- Nothing but lines that are skipped stands behind the line of white space at which the reading
stops. -/
def Closed (unread : List Str) : Prop :=
  unread = [] ∨ ∃ l ls, unread = l :: ls ∧ Skipped l ∧ scanLines true ls = ([], [])

theorem skipped_of_scanLines {blank : Bool} {ls : List Str} (h : scanLines blank ls = ([], [])) :
    ∀ l ∈ ls, Skipped l := by
  induction ls generalizing blank with
  | nil => exact List.forall_mem_nil _
  | cons l ls ih =>
    obtain ⟨hl, blank', hskip⟩ | ⟨-, hstop⟩ | hread := scanLines_cons blank l
    · exact List.forall_mem_cons.mpr ⟨hl, ih (hskip ls ▸ h)⟩
    · rw [hstop] at h
      exact absurd (Prod.mk.inj h).2 (List.cons_ne_nil _ _)
    · rw [hread] at h
      exact absurd (Prod.mk.inj h).1 (List.cons_ne_nil _ _)

theorem Closed.skipped {unread : List Str} (h : Closed unread) : ∀ l ∈ unread, Skipped l := by
  obtain rfl | ⟨l, ls, rfl, hl, hls⟩ := h
  · exact List.forall_mem_nil _
  · exact List.forall_mem_cons.mpr ⟨hl, skipped_of_scanLines hls⟩

/-! ## The end of a text -/

/-- What follows the last newline is white. -/
def Ended (t : Str) : Prop := 255 ∉ t ∧ dropWhite ((lines t).getLastD []) = []

theorem ended_nil : Ended [] := ⟨List.not_mem_nil, rfl⟩

theorem lines_ne_nil (t : Str) : lines t ≠ [] := by
  cases t with
  | nil => exact List.cons_ne_nil _ _
  | cons b t =>
    rw [lines]
    split_ifs
    · exact List.cons_ne_nil _ _
    · exact List.cons_ne_nil _ _

theorem getLastD_lines (l : Str) (t : Str) :
    (l :: lines t).getLastD [] = (lines t).getLastD [] := by
  rcases h : lines t with _ | ⟨m, ls⟩
  · exact absurd h (lines_ne_nil t)
  · rfl

theorem ended_line (hl : OnLine l) : Ended (l ++ 10 :: t) ↔ Ended t := by
  have hascii : 255 ∉ l ++ 10 :: t ↔ 255 ∉ t := by
    constructor
    · exact fun h hb => h (List.mem_append_right _ (List.mem_cons_of_mem _ hb))
    · exact fun h => hl.ascii_append (lineEnd_newline h)
  rw [Ended, Ended, lines_line hl, getLastD_lines, hascii]

theorem ended_cut (hl : OnLine l) : Ended l ↔ dropWhite l = [] := by
  rw [Ended, lines_cut hl]
  exact and_iff_right hl.2

theorem ended_dropWhite (h : 255 ∉ t) : Ended (dropWhite t) ↔ Ended t := by
  obtain ⟨l, rest, rfl, hl, hrest⟩ := exists_line h
  have hdrop := hl.suffix (dropWhite_suffix l)
  rw [dropWhite_append l hrest]
  obtain rfl | ⟨u, rfl⟩ := hrest.2
  · rw [List.append_nil, List.append_nil, ended_cut hl, ended_cut hdrop, dropWhite_dropWhite]
  · rw [ended_line hl, ended_line hdrop]

theorem ended_skipBlanks (h : 255 ∉ t) (hskip : skipBlanks t = .ok t') : Ended t' ↔ Ended t := by
  induction t using skipBlanks_cases with
  | hrecord t hr =>
    rw [skipBlanks_record h hr] at hskip
    rw [Except.ok.inj hskip]
  | hcomment t ih =>
    have ht : 255 ∉ t := not_mem_of_suffix h (List.suffix_cons 35 t)
    rw [skipBlanks_comment ht] at hskip
    obtain ⟨l, rest, rfl, hl, hend⟩ := exists_line ht
    rcases hend.2 with rfl | ⟨u, rfl⟩
    · rw [List.append_nil, skipLine_cut hl] at hskip
      exact absurd hskip nofun
    rw [skipLine_end hl] at hskip
    have hu : 255 ∉ u := fun hb => hend.1 (List.mem_cons_of_mem _ hb)
    have hcomment : OnLine (35 :: l) := onLine_cons.mpr ⟨by decide, by decide, hl⟩
    rw [← List.cons_append, ended_line hcomment]
    exact ih u (skipLine_end hl u) hu hskip
  | hnewline t ih =>
    have ht : 255 ∉ t := not_mem_of_suffix h (List.suffix_cons 10 t)
    rw [skipBlanks_newline ht] at hskip
    have hrest := ih (not_mem_of_suffix ht (dropWhite_suffix t)) hskip
    rw [hrest, ended_dropWhite ht, ← List.nil_append (10 :: t), ended_line onLine_nil]

/-- Where a text ends with white space, skipping does not run into an incomplete comment. -/
theorem skipBlanks_ended (h : Ended t) : ∃ t', skipBlanks t = .ok t' := by
  induction t using skipBlanks_cases with
  | hrecord t hr => exact ⟨t, skipBlanks_record h.1 hr⟩
  | hcomment t ih =>
    have ht : 255 ∉ t := not_mem_of_suffix h.1 (List.suffix_cons 35 t)
    obtain ⟨l, rest, rfl, hl, hend⟩ := exists_line ht
    have hcomment : OnLine (35 :: l) := onLine_cons.mpr ⟨by decide, by decide, hl⟩
    rw [← List.cons_append] at h
    rcases hend.2 with rfl | ⟨u, rfl⟩
    · rw [List.append_nil, ended_cut hcomment] at h
      exact absurd h (List.cons_ne_nil _ _)
    · rw [skipBlanks_comment ht, skipLine_end hl]
      exact ih u (skipLine_end hl u) ((ended_line hcomment).mp h)
  | hnewline t ih =>
    have ht : 255 ∉ t := not_mem_of_suffix h.1 (List.suffix_cons 10 t)
    rw [skipBlanks_newline ht]
    rw [← List.nil_append (10 :: t), ended_line onLine_nil] at h
    exact ih ((ended_dropWhite ht).mpr h)

end CLanguage.Gradebook
