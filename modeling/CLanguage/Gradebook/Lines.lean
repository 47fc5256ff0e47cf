import CLanguage.Gradebook.Readers

/-!
# The text as lines

A text without the byte 255 is seen as its lines. `gobbleblanklines` skips the lines
that are empty and those that start with `#`; behind an empty line, and only there,
it drops the white space at the start of the next one. `scanLines` are the lines
that are read this way, up to the first one that is nothing but white space.
-/

namespace CLanguage.Gradebook

open Lib Grades

/-- The text behind the white space at its start. -/
def dropWhite (l : Str) : Str := l.dropWhile iswhitespace

/-- The characters that tokens are made of. -/
def isplain (b : UInt8) : Bool := !(iswhitespace b || b = 10)

/-- The first token of a text, and what follows it. -/
def firstWord (l : Str) : Str × Str :=
  ((dropWhite l).takeWhile isplain, (dropWhite l).dropWhile isplain)

/-- A part of a line. -/
def OnLine (l : Str) : Prop := 10 ∉ l ∧ 255 ∉ l

/-- What follows on a line: the text is at its end, or the next line begins. -/
def LineEnd (rest : Str) : Prop := 255 ∉ rest ∧ (rest = [] ∨ ∃ t, rest = 10 :: t)

/-- `gobbleblanklines`, on the rest of a file. -/
def skipBlanks (input : Str) : Except Stop Str := skipBlankLines (input.length + 1) input

/-! ## The loops of the reader -/

section Loops

variable {l rest t : Str} {b : UInt8}

theorem not_mem_of_suffix {l' : Str} (h : 255 ∉ l) (hs : l' <:+ l) : 255 ∉ l' :=
  fun hb => h (hs.subset hb)

theorem OnLine.suffix {l' : Str} (h : OnLine l) (hs : l' <:+ l) : OnLine l' :=
  ⟨fun hb => h.1 (hs.subset hb), fun hb => h.2 (hs.subset hb)⟩

theorem onLine_nil : OnLine [] := ⟨List.not_mem_nil, List.not_mem_nil⟩

theorem onLine_cons : OnLine (b :: l) ↔ b ≠ 10 ∧ b ≠ 255 ∧ OnLine l := by
  simp only [OnLine, List.mem_cons, not_or, ne_eq, eq_comm (b := b)]
  tauto

theorem OnLine.ascii_append (h : OnLine l) (hr : LineEnd rest) : 255 ∉ l ++ rest := by
  intro hb
  rcases List.mem_append.mp hb with hb | hb
  · exact h.2 hb
  · exact hr.1 hb

theorem skipWhitespace_eq (h : 255 ∉ l) : skipWhitespace l = dropWhite l := by
  induction l with
  | nil => rfl
  | cons b l ih =>
    obtain ⟨hb, hl⟩ := not_or.mp (mt List.mem_cons.mpr h)
    rw [skipWhitespace, if_neg (Ne.symm hb), ih hl, dropWhite, dropWhite, List.dropWhile_cons]

theorem takeToken_eq (h : 255 ∉ l) : takeToken l = (l.takeWhile isplain, l.dropWhile isplain) := by
  induction l with
  | nil => rfl
  | cons b l ih =>
    obtain ⟨hb, hl⟩ := not_or.mp (mt List.mem_cons.mpr h)
    rw [takeToken, if_neg (Ne.symm hb), ih hl, List.takeWhile_cons, List.dropWhile_cons]
    cases hw : iswhitespace b || b = 10 <;> simp [isplain, hw]

theorem takeLine_end (h : OnLine l) (t : Str) : takeLine (l ++ 10 :: t) = some (l, 10 :: t) := by
  induction l with
  | nil => rfl
  | cons b l ih =>
    obtain ⟨hb, hb', hl⟩ := onLine_cons.mp h
    rw [List.cons_append, takeLine, if_neg hb', if_neg hb, ih hl]
    rfl

theorem takeLine_cut (h : OnLine l) : takeLine l = none := by
  induction l with
  | nil => rfl
  | cons b l ih =>
    obtain ⟨hb, hb', hl⟩ := onLine_cons.mp h
    rw [takeLine, if_neg hb', if_neg hb, ih hl]
    rfl

theorem skipLine_end (h : OnLine l) (t : Str) : skipLine (l ++ 10 :: t) = some t := by
  induction l with
  | nil => rfl
  | cons b l ih =>
    obtain ⟨hb, hb', hl⟩ := onLine_cons.mp h
    rw [List.cons_append, skipLine, if_neg hb', if_neg hb, ih hl]

theorem skipLine_cut (h : OnLine l) : skipLine l = none := by
  induction l with
  | nil => rfl
  | cons b l ih =>
    obtain ⟨hb, hb', hl⟩ := onLine_cons.mp h
    rw [skipLine, if_neg hb', if_neg hb, ih hl]

theorem skipLine_length {t' : Str} (h : skipLine t = some t') : t'.length < t.length := by
  induction t with
  | nil => exact absurd h nofun
  | cons b t ih =>
    rw [skipLine] at h
    split_ifs at h
    · rw [← Option.some.inj h]
      exact Nat.lt_succ_self _
    · exact Nat.lt_succ_of_lt (ih h)

/-- The text is at its end or not. -/
theorem exists_line (h : 255 ∉ t) : ∃ l rest, t = l ++ rest ∧ OnLine l ∧ LineEnd rest := by
  induction t with
  | nil => exact ⟨[], [], rfl, onLine_nil, List.not_mem_nil, .inl rfl⟩
  | cons b t ih =>
    obtain ⟨hb, ht⟩ := not_or.mp (mt List.mem_cons.mpr h)
    by_cases hn : b = 10
    · exact ⟨[], b :: t, rfl, onLine_nil, h, .inr ⟨t, hn ▸ rfl⟩⟩
    · obtain ⟨l, rest, rfl, hl, hrest⟩ := ih ht
      exact ⟨b :: l, rest, rfl, onLine_cons.mpr ⟨hn, Ne.symm hb, hl⟩, hrest⟩

end Loops

/-! ## Blank lines and comments -/

section Blanks

variable {l rest t t' : Str}

theorem dropWhite_suffix (l : Str) : dropWhite l <:+ l := List.dropWhile_suffix _

theorem skipLine_suffix (h : skipLine t = some t') : t' <:+ t := by
  induction t with
  | nil => exact absurd h nofun
  | cons b t ih =>
    rw [skipLine] at h
    split_ifs at h
    · rw [← Option.some.inj h]
      exact List.suffix_cons b t
    · exact (ih h).trans (List.suffix_cons b t)

/-- Fuel for the whole text is enough. -/
theorem skipBlankLines_enough {n m : ℕ} (h : 255 ∉ t) (hn : t.length < n) (hm : t.length < m) :
    skipBlankLines n t = skipBlankLines m t := by
  induction n generalizing t m with
  | zero => exact absurd hn (Nat.not_lt_zero _)
  | succ n ih =>
    cases m with
    | zero => exact absurd hm (Nat.not_lt_zero _)
    | succ m =>
      cases t with
      | nil => rfl
      | cons b t =>
        obtain ⟨hb, ht⟩ := not_or.mp (mt List.mem_cons.mpr h)
        have hb' : ¬ b = 255 := Ne.symm hb
        rw [List.length_cons] at hn hm
        simp only [skipBlankLines, getc, ungetc, if_neg hb']
        -- a comment, a white line or a line that is kept
        split
        · rcases hline : skipLine t with _ | u
          · rfl
          · have hlength := skipLine_length hline
            exact ih (not_mem_of_suffix ht (skipLine_suffix hline)) (by omega) (by omega)
        split
        · have hle : (dropWhite t).length ≤ t.length := (dropWhite_suffix t).length_le
          rw [skipWhitespace_eq ht]
          exact ih (not_mem_of_suffix ht (dropWhite_suffix t)) (by omega) (by omega)
        · rfl

theorem skipBlanks_comment (h : 255 ∉ t) : skipBlanks (35 :: t) =
    match skipLine t with
    | none => .error .fatal
    | some t => skipBlanks t := by
  have hget : getc (35 :: t) = (some 35, t) := rfl
  rw [skipBlanks, List.length_cons, skipBlankLines]
  rcases hline : skipLine t with _ | u
  · simp [hget, hline]
  · have hlength := skipLine_length hline
    simp only [hget, hline, if_true]
    exact skipBlankLines_enough (not_mem_of_suffix h (skipLine_suffix hline)) (by omega) (by omega)

theorem skipBlanks_newline (h : 255 ∉ t) : skipBlanks (10 :: t) = skipBlanks (dropWhite t) := by
  have hle : (dropWhite t).length ≤ t.length := (dropWhite_suffix t).length_le
  have hget : getc (10 :: t) = (some 10, t) := rfl
  have hcomment : ¬ some (10 : UInt8) = some 35 := by decide
  rw [skipBlanks, List.length_cons, skipBlankLines]
  simp only [hget, ungetc, skipWhitespace_eq h, if_neg hcomment, if_true]
  exact skipBlankLines_enough (not_mem_of_suffix h (dropWhite_suffix t)) (by omega) (by omega)

/-- The text starts neither with an empty line nor with a comment. -/
def AtRecord (t : Str) : Prop := ∀ b ∈ t.head?, b ≠ 35 ∧ b ≠ 10

theorem skipBlanks_record (h : 255 ∉ t) (hr : AtRecord t) : skipBlanks t = .ok t := by
  cases t with
  | nil => rfl
  | cons b t =>
    obtain ⟨hcomment, hnewline⟩ := hr b rfl
    have hb : ¬ b = 255 := fun heq => h (heq ▸ List.mem_cons_self)
    simp [skipBlanks, skipBlankLines, getc, ungetc, hb, hcomment, hnewline]

/-- One step of the skipping: nothing is left to skip, or a comment or an empty line is. -/
theorem skipBlanks_cases (P : Str → Prop) (hrecord : ∀ t, AtRecord t → P t)
    (hcomment : ∀ t, (∀ u, skipLine t = some u → P u) → P (35 :: t))
    (hnewline : ∀ t, P (dropWhite t) → P (10 :: t)) (t : Str) : P t := by
  induction hn : t.length using Nat.strong_induction_on generalizing t with
  | _ n ih =>
    subst hn
    cases t with
    | nil => exact hrecord [] nofun
    | cons b t =>
      rw [List.length_cons] at ih
      by_cases hb : b = 35
      · subst hb
        refine hcomment t fun u hu => ih _ ?_ u rfl
        exact Nat.lt_succ_of_lt (skipLine_length hu)
      by_cases hb' : b = 10
      · subst hb'
        refine hnewline t (ih _ ?_ _ rfl)
        exact Nat.lt_succ_of_le (dropWhite_suffix t).length_le
      · apply hrecord
        rintro c hc
        obtain rfl := Option.some.inj hc
        exact ⟨hb, hb'⟩

theorem skipBlanks_ok (h : 255 ∉ t) (hok : skipBlanks t = .ok t') : AtRecord t' ∧ t' <:+ t := by
  induction t using skipBlanks_cases with
  | hrecord t hr =>
    rw [skipBlanks_record h hr] at hok
    obtain rfl := Except.ok.inj hok
    exact ⟨hr, List.suffix_refl t⟩
  | hcomment t ih =>
    have ht : 255 ∉ t := not_mem_of_suffix h (List.suffix_cons 35 t)
    rw [skipBlanks_comment ht] at hok
    rcases hline : skipLine t with _ | u
    · rw [hline] at hok
      exact absurd hok nofun
    · rw [hline] at hok
      have hu := skipLine_suffix hline
      obtain ⟨hr, hs⟩ := ih u hline (not_mem_of_suffix ht hu) hok
      exact ⟨hr, (hs.trans hu).trans (List.suffix_cons 35 t)⟩
  | hnewline t ih =>
    have ht : 255 ∉ t := not_mem_of_suffix h (List.suffix_cons 10 t)
    rw [skipBlanks_newline ht] at hok
    have hd := dropWhite_suffix t
    obtain ⟨hr, hs⟩ := ih (not_mem_of_suffix ht hd) hok
    exact ⟨hr, (hs.trans hd).trans (List.suffix_cons 10 t)⟩

end Blanks

end CLanguage.Gradebook
