import CLanguage.Gradebook.Ahead

/-!
# Reading what is written

Clean runs of the readers of words and names on a line that is known.
-/

namespace CLanguage.Gradebook

open Lib Lib.Reporting Grades

variable {l w t : Str} {b : UInt8} {prev : List Str}

theorem cstr_eq_self (h : 0 ∉ w) : cstr w = w := by
  refine List.takeWhile_eq_self_iff.mpr fun b hb => ?_
  have hne : b ≠ 0 := fun hzero => h (hzero ▸ hb)
  simpa using hne

/-- A word ends at the next character that is not plain. -/
theorem firstWord_word (hw : ∀ b ∈ w, isplain b = true) (hne : w ≠ []) (hb : isplain b = false) :
    firstWord (w ++ b :: l) = (w, b :: l) := by
  have hdrop : dropWhite (w ++ b :: l) = w ++ b :: l := by
    cases w with
    | nil => exact absurd rfl hne
    | cons c w =>
      have hc := hw c List.mem_cons_self
      have hwhite : iswhitespace c = false := by
        simp [isplain] at hc
        exact hc.1
      rw [List.cons_append, dropWhite, List.dropWhile_cons, hwhite]
      rfl
  rw [firstWord, hdrop, List.takeWhile_append_of_pos hw, List.dropWhile_append_of_pos hw,
    List.takeWhile_cons, List.dropWhile_cons, hb]
  simp

/-- A name reaches to the end of its line. -/
theorem readname_clean (h : OnLine l) (hshort : (dropWhite l).length < 64) :
    Clean readname ⟨[], l ++ [10], []⟩ (cstr (dropWhite l)) ⟨[], [], []⟩ := by
  have hrest : LineEnd [10] := lineEnd_newline List.not_mem_nil
  have hadvance : Clean advanceeol ⟨[], l ++ [10], []⟩ () ⟨dropWhite l ++ [0], [10], []⟩ :=
    clean_advanceeol.mpr ⟨rfl, _, _, (takeLine_line h hrest).mpr ⟨by simp, rfl⟩, hshort, rfl⟩
  have htoken : Clean tokenText ⟨dropWhite l ++ [0], [10], []⟩ (dropWhite l ++ [0])
      ⟨dropWhite l ++ [0], [10], []⟩ := clean_tokenText.mpr ⟨rfl, rfl⟩
  have hflush : Clean flushtoken ⟨dropWhite l ++ [0], [10], []⟩ () ⟨[], [10], []⟩ :=
    clean_flushtoken.mpr rfl
  have hnewline : Clean expectnewline ⟨[], [10], []⟩ () ⟨[], [], []⟩ :=
    (clean_expectnewline List.not_mem_nil).mpr ⟨rfl, [], [], rfl, rfl, rfl⟩
  rw [readname, hadvance.bind_iff, htoken.bind_iff, if_neg (by simp), hflush.bind_iff,
    hnewline.bind_iff, clean_pure, cstr_append_null]
  exact ⟨rfl, rfl⟩

end CLanguage.Gradebook
