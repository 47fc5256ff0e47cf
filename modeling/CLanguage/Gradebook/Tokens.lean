import CLanguage.Gradebook.Lines

/-!
# Clean runs of the token functions

What each function on the token buffer does when it reports nothing.
-/

namespace CLanguage.Gradebook

open Lib Lib.Reporting Grades

variable {s s' : Input} {u : Unit} {b : Bool} {key w : Str}

@[simp] theorem clean_istoken : Clean istoken s b s' ↔ b = decide (s.token ≠ []) ∧ s' = s := by
  simp [Clean, istoken, eq_comm]

@[simp] theorem clean_tokenText : Clean tokenText s w s' ↔ w = s.token ∧ s' = s := by
  simp [Clean, tokenText, eq_comm]

@[simp] theorem clean_flushtoken : Clean flushtoken s u s' ↔ s' = { s with token := [] } := by
  simp [Clean, flushtoken, eq_comm]

@[simp] theorem clean_gobblewhitespace : Clean gobblewhitespace s u s' ↔
    s' = if s.token = [] then { s with input := skipWhitespace s.input } else s := by
  rw [Clean, gobblewhitespace]
  by_cases hs : s.token = []
  · simp [hs, eq_comm]
  · simp [hs, eq_comm]

@[simp] theorem clean_fillToken {input : Str} : Clean (fillToken w input) s u s' ↔
    w.length < 64 ∧ s' = { s with token := w ++ [0], input := input } := by
  rw [Clean, fillToken]
  by_cases hw : w.length < 64
  · simp [hw, eq_comm]
  · simp [hw]

/-- What stands in the buffer when a token has been read. -/
def terminated (w : Str) : Str := if w = [] then [] else w ++ [0]

theorem clean_advancetoken : Clean advancetoken s u s' ↔ s.token = [] ∧
    (takeToken (skipWhitespace s.input)).1.length < 64 ∧
    s' = ⟨terminated (takeToken (skipWhitespace s.input)).1,
      (takeToken (skipWhitespace s.input)).2, s.prev⟩ := by
  obtain ⟨token, input, prev⟩ := s
  cases token with
  | nil =>
    rw [Clean, advancetoken]
    simp only [bind, istoken, flushtoken, gobblewhitespace, fillToken, terminated]
    by_cases hw : (takeToken (skipWhitespace input)).1 = []
    · simp [hw, eq_comm]
    by_cases hlength : (takeToken (skipWhitespace input)).1.length < 64
    · simp [hw, hlength, eq_comm]
    · simp [hw, hlength]
  | cons b token => simp [advancetoken, clean_bind]

theorem clean_advanceeol : Clean advanceeol s u s' ↔ s.token = [] ∧
    ∃ w input, takeLine (skipWhitespace s.input) = some (w, input) ∧ w.length < 64 ∧
      s' = ⟨w ++ [0], input, s.prev⟩ := by
  obtain ⟨token, input, prev⟩ := s
  cases token with
  | nil =>
    rw [Clean, advanceeol]
    simp only [bind, istoken, flushtoken, gobblewhitespace, fillToken]
    rcases hline : takeLine (skipWhitespace input) with _ | ⟨w, rest⟩
    · simp [hline]
    by_cases hlength : w.length < 64
    · simp [hline, hlength, eq_comm]
    · simp [hline, hlength]
  | cons b token => simp [advanceeol, clean_bind]

theorem clean_needtoken : Clean needtoken s u s' ↔
    (s.token ≠ [] ∧ s' = s) ∨ (s.token = [] ∧ Clean advancetoken s u s') := by
  by_cases hs : s.token = []
  · simp [needtoken, clean_bind, hs]
  · simp [needtoken, clean_bind, hs, eq_comm]

theorem clean_checktoken : Clean (checktoken key) s b s' ↔ ∃ s₁, Clean needtoken s () s₁ ∧
    ((b = true ∧ (s₁.token ≠ [] ∧ cstr s₁.token = key) ∧ s' = { s₁ with token := [] }) ∨
      (b = false ∧ ¬ (s₁.token ≠ [] ∧ cstr s₁.token = key) ∧ s' = s₁)) := by
  rw [checktoken, clean_bind]
  simp only [clean_bind, clean_tokenText, clean_ite, clean_flushtoken, clean_pure]
  constructor
  · rintro ⟨u, s₁, hneed, w, s₂, ⟨rfl, rfl⟩, hcase⟩
    refine ⟨s₂, hneed, ?_⟩
    split at hcase
    · next htoken =>
      obtain ⟨u, s₃, rfl, rfl, rfl⟩ := hcase
      exact .inl ⟨rfl, htoken, rfl⟩
    · next htoken => exact .inr ⟨hcase.1.symm, htoken, hcase.2.symm⟩
  · rintro ⟨s₁, hneed, ⟨rfl, htoken, rfl⟩ | ⟨rfl, htoken, rfl⟩⟩
    · refine ⟨(), s₁, hneed, _, s₁, ⟨rfl, rfl⟩, ?_⟩
      rw [if_pos htoken]
      exact ⟨(), _, rfl, rfl, rfl⟩
    · refine ⟨(), s', hneed, _, s', ⟨rfl, rfl⟩, ?_⟩
      rw [if_neg htoken]
      exact ⟨rfl, rfl⟩

theorem clean_expecttoken :
    Clean (expecttoken key) s u s' ↔ Clean (checktoken key) s true s' := by
  rw [expecttoken, clean_checktoken, clean_bind]
  simp only [clean_bind, clean_tokenText, clean_ite, clean_flushtoken, not_clean_report]
  constructor
  · rintro ⟨u, s₁, hneed, w, s₂, ⟨rfl, rfl⟩, hcase⟩
    split at hcase
    · next htoken => exact ⟨s₂, hneed, .inl ⟨trivial, htoken, hcase⟩⟩
    · exact hcase.elim
  · rintro ⟨s₁, hneed, ⟨-, htoken, rfl⟩ | ⟨hfalse, -⟩⟩
    · refine ⟨(), s₁, hneed, _, s₁, ⟨rfl, rfl⟩, ?_⟩
      rw [if_pos htoken]
    · cases hfalse

theorem clean_gobbleblanklines : Clean gobbleblanklines s u s' ↔
    (s.token ≠ [] ∧ s' = s) ∨
      (s.token = [] ∧ ∃ t, skipBlanks s.input = .ok t ∧ s' = { s with input := t }) := by
  by_cases hs : s.token = []
  · rcases hskip : skipBlanks s.input with e | t
    · rw [skipBlanks] at hskip
      simp [Clean, gobbleblanklines, hs, hskip]
    · rw [skipBlanks] at hskip
      simp [Clean, gobbleblanklines, hs, hskip, eq_comm]
  · simp [Clean, gobbleblanklines, hs, eq_comm]

theorem clean_nextchar {c : UInt8} : Clean nextchar s c s' ↔
    (∃ token, s.token = c :: token ∧ s' = { s with token := token }) ∨
      (s.token = [] ∧ ∃ t, getc s.input = (some c, t) ∧ s' = { s with input := t }) := by
  obtain ⟨token, input, prev⟩ := s
  cases token with
  | nil =>
    rcases hget : getc input with ⟨_ | b, t⟩
    · simp [Clean, nextchar, hget]
    · simp [Clean, nextchar, hget, eq_comm]
  | cons b token => simp [Clean, nextchar, eq_comm]

theorem getc_some {input t : Str} {c : UInt8} (h : getc input = (some c, t)) : input = c :: t := by
  cases input with
  | nil => cases h
  | cons b input =>
    rw [getc] at h
    split_ifs at h
    · cases h
    · rw [Prod.mk.injEq, Option.some.injEq] at h
      rw [h.1, h.2]

/-- A new line follows if nothing but white space is left of the line, and blank lines are skipped
behind it. -/
theorem clean_expectnewline (h : 10 ∉ s.token) : Clean expectnewline s u s' ↔ s.token = [] ∧
    ∃ t t', skipWhitespace s.input = 10 :: t ∧ skipBlanks t = .ok t' ∧ s' = ⟨[], t', s.prev⟩ := by
  obtain ⟨token, input, prev⟩ := s
  rw [expectnewline]
  simp only [clean_bind, clean_gobblewhitespace, clean_nextchar, clean_ite, not_clean_report]
  constructor
  · rintro ⟨-, s₁, rfl, c, s₂, hchar, hcase⟩
    obtain rfl : c = 10 := by
      by_contra hc
      rw [if_neg hc] at hcase
      obtain ⟨-, -, hreport, -⟩ := hcase
      exact hreport
    rw [if_pos rfl, clean_gobbleblanklines] at hcase
    cases token with
    | nil =>
      obtain ⟨token, htoken, -⟩ | ⟨-, t, hget, rfl⟩ := hchar
      · cases htoken
      obtain ⟨hne, -⟩ | ⟨-, t', hskip, rfl⟩ := hcase
      · exact absurd rfl hne
      · exact ⟨rfl, t, t', getc_some hget, hskip, rfl⟩
    | cons b token =>
      -- a character of a token is no newline
      obtain ⟨token', htoken, -⟩ | ⟨hnil, -⟩ := hchar
      · obtain ⟨rfl, -⟩ := List.cons_eq_cons.mp htoken
        exact absurd List.mem_cons_self h
      · cases hnil
  · rintro ⟨hs, t, t', hspace, hskip, rfl⟩
    obtain rfl : token = [] := hs
    refine ⟨(), _, rfl, 10, ⟨[], t, prev⟩, .inr ⟨rfl, t, ?_, rfl⟩, ?_⟩
    · rw [if_pos rfl]
      exact congrArg getc hspace
    · rw [if_pos rfl, clean_gobbleblanklines]
      exact .inr ⟨rfl, t', hskip, rfl⟩

theorem clean_scantoken {r : Option Binary32} : Clean scantoken s r s' ↔
    r = (if s.token = [] then none else scanFloat (cstr s.token)) ∧
      s' = if r = none then s else { s with token := [] } := by
  rw [scantoken, Clean.bind_iff (clean_tokenText.mpr ⟨rfl, rfl⟩)]
  rcases hscan : (if s.token = [] then none else scanFloat (cstr s.token)) with _ | f
  · constructor
    · intro hrun
      obtain ⟨rfl, rfl⟩ := clean_pure.mp hrun
      exact ⟨rfl, rfl⟩
    · rintro ⟨rfl, rfl⟩
      exact clean_pure.mpr ⟨rfl, rfl⟩
  · have hflush : Clean flushtoken s () { s with token := [] } := clean_flushtoken.mpr rfl
    rw [hflush.bind_iff, clean_pure]
    constructor
    · rintro ⟨rfl, rfl⟩
      exact ⟨rfl, rfl⟩
    · rintro ⟨rfl, rfl⟩
      exact ⟨rfl, rfl⟩

end CLanguage.Gradebook
