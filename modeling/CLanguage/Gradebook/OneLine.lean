import CLanguage.Gradebook.Tokens
import CLanguage.Gradebook.Scan

/-!
# Readers that stay on a line

What a reader does on a line does not depend on what follows the line: it behaves
on the line alone as it does in the text (`StaysOnLine`). The readers of a whole
record end with the line (`EndsLine`), so that a record can be described by the line
alone, without the text around it (`ReadAs`).
-/

namespace CLanguage.Gradebook

open Lib Lib.Reporting Grades

variable {α β : Type} {l rest t : Str} {prev : List Str}

/-! ## Tokens of a line -/

theorem takeToken_line (h : OnLine l) (hrest : LineEnd rest) :
    takeToken (skipWhitespace (l ++ rest)) = ((firstWord l).1, (firstWord l).2 ++ rest) := by
  have hascii := h.ascii_append hrest
  rw [skipWhitespace_eq hascii, takeToken_eq (not_mem_of_suffix hascii (dropWhite_suffix _)),
    ← firstWord_append l hrest]
  rfl

/-- The rest of a line is read if the line is complete. -/
theorem takeLine_line (h : OnLine l) (hrest : LineEnd rest) {r : Str × Str} :
    takeLine (skipWhitespace (l ++ rest)) = some r ↔ rest ≠ [] ∧ r = (dropWhite l, rest) := by
  rw [skipWhitespace_eq (h.ascii_append hrest), dropWhite_append l hrest]
  have hdrop := h.suffix (dropWhite_suffix l)
  obtain hnil | ⟨t, rfl⟩ := hrest.2
  · rw [hnil, List.append_nil, takeLine_cut hdrop]
    simp
  · rw [takeLine_end hdrop, Option.some.injEq, eq_comm]
    exact (and_iff_right (List.cons_ne_nil 10 t)).symm

theorem firstWord_subset (l : Str) : (firstWord l).1 ⊆ l := fun _ hb =>
  (dropWhite_suffix l).subset ((List.takeWhile_prefix isplain).subset hb)

theorem not_mem_terminated {w : Str} (h : 10 ∉ w) : 10 ∉ terminated w := by
  rw [terminated]
  split_ifs
  · exact List.not_mem_nil
  · simpa using h

/-! ## Staying on the line -/

/-- The same place of a line in two texts; in the second one the line is complete. -/
def Beside (rest : Str) (prev : List Str) (t : Str) (prev' : List Str) (s s' : Input) : Prop :=
  ∃ token l, 10 ∉ token ∧ OnLine l ∧ s = ⟨token, l ++ rest, prev⟩ ∧ s' = ⟨token, l ++ 10 :: t, prev'⟩

/-- What the reader does without an error does not depend on what follows the line. -/
def StaysOnLine (x : Reader α) : Prop :=
  ∀ rest prev t prev', LineEnd rest → 255 ∉ t → Follows (Beside rest prev t prev') x

theorem StaysOnLine.bind {x : Reader α} {f : α → Reader β} (hx : StaysOnLine x)
    (hf : ∀ a, StaysOnLine (f a)) : StaysOnLine (x >>= f) :=
  fun rest prev t prev' hrest ht =>
    (hx rest prev t prev' hrest ht).bind fun a => hf a rest prev t prev' hrest ht

theorem StaysOnLine.pure (a : α) : StaysOnLine (pure a : Reader α) :=
  fun _ _ _ _ _ _ => Follows.pure a

theorem StaysOnLine.report : StaysOnLine (report : Reader Unit) :=
  fun _ _ _ _ _ _ => Follows.report

theorem StaysOnLine.stop (e : Stop) : StaysOnLine (stop e : Reader α) :=
  fun _ _ _ _ _ _ => Follows.stop e

theorem StaysOnLine.ite {c : Prop} [Decidable c] {x y : Reader α} (hx : StaysOnLine x)
    (hy : StaysOnLine y) : StaysOnLine (if c then x else y) :=
  fun rest prev t prev' hrest ht =>
    (hx rest prev t prev' hrest ht).ite (hy rest prev t prev' hrest ht)

theorem staysOnLine_tokenText : StaysOnLine tokenText := by
  rintro rest prev t prev' - - s s' w s₁ ⟨token, l, htoken, hl, rfl, rfl⟩ hrun
  obtain ⟨rfl, rfl⟩ := clean_tokenText.mp hrun
  exact ⟨_, ⟨_, l, htoken, hl, rfl, rfl⟩, clean_tokenText.mpr ⟨rfl, rfl⟩⟩

theorem staysOnLine_flushtoken : StaysOnLine flushtoken := by
  rintro rest prev t prev' - - s s' w s₁ ⟨token, l, -, hl, rfl, rfl⟩ hrun
  obtain rfl := clean_flushtoken.mp hrun
  exact ⟨_, ⟨[], l, List.not_mem_nil, hl, rfl, rfl⟩, clean_flushtoken.mpr rfl⟩

theorem staysOnLine_advancetoken : StaysOnLine advancetoken := by
  rintro rest prev t prev' hrest ht s s' w s₁ ⟨token, l, -, hl, rfl, rfl⟩ hrun
  rw [clean_advancetoken, takeToken_line hl hrest] at hrun
  obtain ⟨hnil, hlength, rfl⟩ := hrun
  have hword : 10 ∉ (firstWord l).1 := fun hb => hl.1 (firstWord_subset l hb)
  refine ⟨⟨terminated (firstWord l).1, (firstWord l).2 ++ 10 :: t, prev'⟩,
    ⟨_, _, not_mem_terminated hword, hl.suffix (firstWord_suffix l), rfl, rfl⟩, ?_⟩
  rw [clean_advancetoken, takeToken_line hl (lineEnd_newline ht)]
  exact ⟨hnil, hlength, rfl⟩

theorem staysOnLine_advanceeol : StaysOnLine advanceeol := by
  rintro rest prev t prev' hrest ht s s' w s₁ ⟨token, l, -, hl, rfl, rfl⟩ hrun
  obtain ⟨hnil, w, input, hline, hlength, rfl⟩ := clean_advanceeol.mp hrun
  obtain ⟨-, heq⟩ := (takeLine_line hl hrest).mp hline
  obtain ⟨rfl, rfl⟩ := Prod.mk.inj heq
  have hword : 10 ∉ dropWhite l ++ [0] := by
    simpa using (hl.suffix (dropWhite_suffix l)).1
  refine ⟨⟨dropWhite l ++ [0], 10 :: t, prev'⟩, ⟨_, [], hword, onLine_nil, rfl, rfl⟩, ?_⟩
  have hnewline : (10 : UInt8) :: t ≠ [] := List.cons_ne_nil _ _
  exact clean_advanceeol.mpr
    ⟨hnil, _, _, (takeLine_line hl (lineEnd_newline ht)).mpr ⟨hnewline, rfl⟩, hlength, rfl⟩

theorem staysOnLine_needtoken : StaysOnLine needtoken := by
  intro rest prev t prev' hrest ht s s' w s₁ hbeside hrun
  have hbeside' := hbeside
  obtain ⟨token, l, htoken, hl, rfl, rfl⟩ := hbeside'
  obtain ⟨hne, rfl⟩ | ⟨hnil, hadvance⟩ := clean_needtoken.mp hrun
  · exact ⟨_, hbeside, clean_needtoken.mpr (.inl ⟨hne, rfl⟩)⟩
  · obtain ⟨s₂, hbeside₂, hadvance₂⟩ :=
      staysOnLine_advancetoken rest prev t prev' hrest ht _ _ _ _ hbeside hadvance
    exact ⟨s₂, hbeside₂, clean_needtoken.mpr (.inr ⟨hnil, hadvance₂⟩)⟩

theorem staysOnLine_checktoken (key : Str) : StaysOnLine (checktoken key) :=
  staysOnLine_needtoken.bind fun _ => staysOnLine_tokenText.bind fun _ =>
    .ite (staysOnLine_flushtoken.bind fun _ => .pure _) (.pure _)

/-! ## Words, numbers and clauses -/

theorem staysOnLine_readword : StaysOnLine readword := by
  refine staysOnLine_needtoken.bind fun _ => staysOnLine_tokenText.bind fun token => ?_
  refine .ite (StaysOnLine.report.bind fun _ => ?_) ?_
  · exact staysOnLine_flushtoken.bind fun _ => .pure _
  · exact staysOnLine_flushtoken.bind fun _ => .pure _

theorem staysOnLine_scantoken : StaysOnLine scantoken := by
  refine staysOnLine_tokenText.bind fun token => ?_
  rcases (if token = [] then none else scanFloat (cstr token)) with _ | f
  · exact .pure _
  · exact staysOnLine_flushtoken.bind fun _ => .pure _

theorem staysOnLine_readfloat (default : Binary32) : StaysOnLine (readfloat default) := by
  refine staysOnLine_scantoken.bind fun r => ?_
  cases r with
  | none => exact StaysOnLine.report.bind fun _ => .pure _
  | some f => exact .pure f

theorem staysOnLine_readweight (a : Assignment) : StaysOnLine (readweight a) := by
  refine staysOnLine_advancetoken.bind fun _ => staysOnLine_scantoken.bind fun r => ?_
  cases r with
  | none => exact StaysOnLine.report.bind fun _ => .pure _
  | some f => exact .pure _

theorem staysOnLine_readmax (a : Assignment) : StaysOnLine (readmax a) := by
  refine staysOnLine_advancetoken.bind fun _ => staysOnLine_scantoken.bind fun r => ?_
  cases r with
  | none => exact StaysOnLine.report.bind fun _ => .pure _
  | some f => exact .pure _

theorem staysOnLine_readnorm (n : ℕ) (found : Bool) (a : Assignment) :
    StaysOnLine (readnorm found a n) := by
  induction n generalizing found a with
  | zero => exact .stop _
  | succ n ih =>
    rw [readnorm]
    -- one case for each keyword
    refine (staysOnLine_checktoken _).bind fun _ => .ite (ih _ _) ?_
    refine (staysOnLine_checktoken _).bind fun _ => .ite (ih _ _) ?_
    refine (staysOnLine_checktoken _).bind fun _ => .ite ?_ ?_
    · exact staysOnLine_advancetoken.bind fun _ => (staysOnLine_readfloat _).bind fun _ =>
        staysOnLine_advancetoken.bind fun _ => (staysOnLine_readfloat _).bind fun _ => ih _ _
    refine (staysOnLine_checktoken _).bind fun _ => .ite (ih _ _) ?_
    refine (staysOnLine_checktoken _).bind fun _ => .ite ?_ ?_
    · exact staysOnLine_advancetoken.bind fun _ => (staysOnLine_readfloat _).bind fun _ => ih _ _
    refine (staysOnLine_checktoken _).bind fun _ => .ite (ih _ _) ?_
    refine (staysOnLine_checktoken _).bind fun _ => .ite (ih _ _) ?_
    exact .ite (.pure _) (StaysOnLine.report.bind fun _ => .pure _)

theorem staysOnLine_readcode : StaysOnLine readcode :=
  staysOnLine_advanceeol.bind fun _ => staysOnLine_tokenText.bind fun _ =>
    staysOnLine_flushtoken.bind fun _ => .pure _

theorem staysOnLine_readgrade (ap : Assignment) : StaysOnLine (readgrade ap) := by
  have hcode (g : Str → Grade) : StaysOnLine (readcode >>= fun code => pure (g code)) :=
    staysOnLine_readcode.bind fun _ => .pure _
  refine (staysOnLine_checktoken _).bind fun _ => .ite ?_ ?_
  · exact staysOnLine_needtoken.bind fun _ => (staysOnLine_readfloat _).bind fun _ => hcode _
  refine (staysOnLine_checktoken _).bind fun _ => .ite ?_ ?_
  · refine staysOnLine_needtoken.bind fun _ => staysOnLine_scantoken.bind fun r => ?_
    cases r with
    | none => exact StaysOnLine.report.bind fun _ => hcode _
    | some f =>
      exact .ite (hcode _) (StaysOnLine.report.bind fun _ => hcode _)
  refine (staysOnLine_checktoken _).bind fun _ => .ite (hcode _) ?_
  refine (staysOnLine_checktoken _).bind fun _ => .ite (hcode _) ?_
  exact staysOnLine_needtoken.bind fun _ => (staysOnLine_readfloat _).bind fun _ => .pure _

theorem staysOnLine_readscore (a : List Assignment) : StaysOnLine (readscore a) := by
  refine staysOnLine_needtoken.bind fun _ => staysOnLine_tokenText.bind fun token => ?_
  refine .ite (.stop _) ?_
  rcases findAssignment a (cstr token) with _ | ⟨ap, i⟩
  · exact .stop _
  · exact staysOnLine_flushtoken.bind fun _ => (staysOnLine_readgrade ap).bind fun _ => .pure _

/-! ## Whole lines -/

/-- The line `l` alone starts with `key` and is read by `x` as `a`; nothing of it is left. -/
def ReadAs (key : Str) (x : Reader α) (l : Str) (a : α) : Prop :=
  OnLine l ∧ Clean (expecttoken key >>= fun _ => x) ⟨[], l ++ [10], []⟩ a ⟨[], [], []⟩

/-- The reader goes to the end of its line and over the blank lines behind it. -/
def EndsLine (x : Reader α) : Prop :=
  ∀ token l rest prev a s', 10 ∉ token → OnLine l → LineEnd rest →
    (Clean x ⟨token, l ++ rest, prev⟩ a s' ↔ ∃ t t', rest = 10 :: t ∧ skipBlanks t = .ok t' ∧
      s' = ⟨[], t', prev⟩ ∧ Clean x ⟨token, l ++ [10], []⟩ a ⟨[], [], []⟩)

theorem endsLine_expectnewline : EndsLine expectnewline := by
  intro token l rest prev u s' htoken hl hrest
  have hnil : (255 : UInt8) ∉ ([] : Str) := List.not_mem_nil
  rw [clean_expectnewline htoken, clean_expectnewline htoken]
  simp only [skipWhitespace_eq (hl.ascii_append hrest),
    skipWhitespace_eq (hl.ascii_append (lineEnd_newline hnil)),
    dropWhite_append l (lineEnd_newline hnil), dropWhite_append l hrest]
  constructor
  · rintro ⟨rfl, t, t', hspace, hskip, rfl⟩
    -- the line has no newline of its own
    have hdrop := hl.suffix (dropWhite_suffix l)
    rcases hd : dropWhite l with _ | ⟨b, w⟩
    · rw [hd, List.nil_append] at hspace
      exact ⟨t, t', hspace, hskip, rfl, rfl, [], [], rfl, rfl, rfl⟩
    · rw [hd] at hspace hdrop
      obtain ⟨rfl, -⟩ := List.cons_eq_cons.mp hspace
      exact absurd List.mem_cons_self hdrop.1
  · rintro ⟨t, t', rfl, hskip, rfl, rfl, v, v', hspace, -, -⟩
    refine ⟨rfl, t, t', ?_, hskip, rfl⟩
    have hdrop := hl.suffix (dropWhite_suffix l)
    rcases hd : dropWhite l with _ | ⟨b, w⟩
    · rfl
    · rw [hd] at hspace hdrop
      obtain ⟨rfl, -⟩ := List.cons_eq_cons.mp hspace
      exact absurd List.mem_cons_self hdrop.1

theorem StaysOnLine.endsLine {x : Reader α} {f : α → Reader β} (hx : StaysOnLine x)
    (hf : ∀ a, EndsLine (f a)) : EndsLine (x >>= f) := by
  intro token l rest prev b s' htoken hl hrest
  have hnil : (255 : UInt8) ∉ ([] : Str) := List.not_mem_nil
  rw [clean_bind]
  constructor
  · rintro ⟨a, s₁, hx₁, hf₁⟩
    obtain ⟨s₂, ⟨token', l', htoken', hl', rfl, rfl⟩, hx₂⟩ :=
      hx rest prev [] [] hrest hnil _ _ _ _ ⟨token, l, htoken, hl, rfl, rfl⟩ hx₁
    obtain ⟨t, t', rfl, hskip, rfl, hf₂⟩ := (hf a token' l' rest prev b s' htoken' hl' hrest).mp hf₁
    exact ⟨t, t', rfl, hskip, rfl, hx₂.bind hf₂⟩
  · rintro ⟨t, t', rfl, hskip, rfl, hrun⟩
    obtain ⟨a, s₁, hx₁, hf₁⟩ := clean_bind.mp hrun
    have ht : 255 ∉ t := fun hb => hrest.1 (List.mem_cons_of_mem _ hb)
    obtain ⟨s₂, ⟨token', l', htoken', hl', rfl, rfl⟩, hx₂⟩ :=
      hx [10] [] t prev (lineEnd_newline hnil) ht _ _ _ _ ⟨token, l, htoken, hl, rfl, rfl⟩ hx₁
    exact ⟨a, _, hx₂, (hf a token' l' _ prev b _ htoken' hl' hrest).mpr
      ⟨t, t', rfl, hskip, rfl, hf₁⟩⟩

theorem EndsLine.map {x : Reader α} (hx : EndsLine x) (g : α → β) :
    EndsLine (x >>= fun a => pure (g a)) := by
  intro token l rest prev b s' htoken hl hrest
  simp only [clean_bind, clean_pure]
  constructor
  · rintro ⟨a, s₁, hx₁, rfl, rfl⟩
    obtain ⟨t, t', rfl, hskip, rfl, hx₂⟩ := (hx token l rest prev a _ htoken hl hrest).mp hx₁
    exact ⟨t, t', rfl, hskip, rfl, a, _, hx₂, rfl, rfl⟩
  · rintro ⟨t, t', rfl, hskip, rfl, a, s₁, hx₁, rfl, rfl⟩
    exact ⟨a, _, (hx token l _ prev a _ htoken hl hrest).mpr ⟨t, t', rfl, hskip, rfl, hx₁⟩, rfl, rfl⟩

theorem endsLine_readname : EndsLine readname := by
  refine staysOnLine_advanceeol.endsLine fun _ => staysOnLine_tokenText.endsLine fun token => ?_
  have hend : EndsLine (flushtoken >>= fun _ => expectnewline >>= fun _ => pure (cstr token)) :=
    staysOnLine_flushtoken.endsLine fun _ => endsLine_expectnewline.map _
  split
  · exact StaysOnLine.report.endsLine fun _ => hend
  · exact hend

end CLanguage.Gradebook
