import CLanguage.Gradebook.Write
import Mathlib

/-!
# Written lines are read back

Each line that the writer produces is read as its record. The text of a course is a
sequence of such lines (`Shows`), so that the grammar says what it is read as.
-/

namespace CLanguage.Gradebook

open Lib Lib.Reporting Grades

variable {w i key : Str} {b : UInt8} {prev : List Str} {f : Binary32}

/-! ## Numbers -/

theorem scanFloat_sixPlaces (f : Binary32) : scanFloat (printFloat f) = some f.sixPlaces := by
  cases f with
  | finite q =>
    have hround : 0 ≤ roundEven (|q| * 10 ^ 6) := le_roundEven (by push_cast; positivity)
    have hcast : (((roundEven (|q| * 10 ^ 6)).toNat : ℕ) : ℚ) = roundEven (|q| * 10 ^ 6) := by
      exact_mod_cast Int.toNat_of_nonneg hround
    rw [printFloat_finite, scanFloat_signed, hcast, Binary32.sixPlaces, Binary32.nearestDecimal]
    congr 2
    by_cases hq : q < 0
    · rw [if_pos (decide_eq_true hq), if_pos hq, neg_one_mul]
    · rw [if_neg (by simpa using hq), if_neg hq, one_mul]
  | infinite negative => cases negative <;> decide
  | nan => decide

theorem length_digits (ds : List ℕ) : (digits ds).length = ds.length := List.length_map ..

theorem length_numeral_le {n k : ℕ} (hk : 0 < k) (h : n < 10 ^ k) : (numeral n).length ≤ k := by
  rw [numeral]
  split_ifs with hn
  · exact hk
  · rw [List.length_reverse]
    exact (Nat.digits_length_le_iff (by decide) n).mpr h

theorem length_printFloat (hf : f.Valid) : (printFloat f).length < 64 := by
  cases f with
  | finite q =>
    have hq : |q| * 10 ^ 6 ≤ ((2 ^ 128 * 10 ^ 6 : ℤ) : ℚ) := by
      have hscaled : |q| * 10 ^ 6 ≤ 2 ^ 128 * 10 ^ 6 :=
        mul_le_mul_of_nonneg_right hf.bound.le (by norm_num)
      exact_mod_cast hscaled
    have hround : (roundEven (|q| * 10 ^ 6)).toNat ≤ 2 ^ 128 * 10 ^ 6 :=
      Int.toNat_le.mpr (by exact_mod_cast roundEven_le hq)
    have hnumeral : (numeral ((roundEven (|q| * 10 ^ 6)).toNat / 10 ^ 6)).length ≤ 39 := by
      apply length_numeral_le (by decide)
      calc (roundEven (|q| * 10 ^ 6)).toNat / 10 ^ 6 ≤ 2 ^ 128 * 10 ^ 6 / 10 ^ 6 :=
            Nat.div_le_div_right hround
        _ < 10 ^ 39 := by norm_num
    have hsign : (if decide (q < 0) then [45] else ([] : Str)).length ≤ 1 := by
      split_ifs
      · exact le_rfl
      · exact Nat.zero_le 1
    rw [printFloat_finite, List.length_append, pointed, List.length_append, List.length_cons,
      length_digits, length_digits, length_fixedNumeral]
    omega
  | infinite negative => cases negative <;> decide
  | nan => decide

/-- The first character of a printed number, and those that can follow. -/
theorem mem_printFloat (hb : b ∈ printFloat f) : b = 45 ∨ (∃ k < 12, b = UInt8.ofNat (46 + k)) ∨
    b ∈ ascii ['i', 'n', 'f', 'a'] := by
  have hletters : ∀ negative : Bool, ∀ b ∈ printFloat (.infinite negative), b = 45 ∨
      b ∈ ascii ['i', 'n', 'f', 'a'] := by decide +kernel
  have hnan : ∀ b ∈ printFloat .nan, b ∈ ascii ['i', 'n', 'f', 'a'] := by decide +kernel
  cases f with
  | finite q =>
    rw [printFloat_finite] at hb
    rcases List.mem_append.mp hb with hb | hb
    · split_ifs at hb
      · exact .inl (List.mem_singleton.mp hb)
      · exact absurd hb List.not_mem_nil
    · exact .inr (.inl (mem_pointed hb))
  | infinite negative =>
    rcases hletters negative b hb with h | h
    · exact .inl h
    · exact .inr (.inr h)
  | nan => exact .inr (.inr (hnan b hb))

/-- A printed number is a word, and it is none that starts with `U`. -/
theorem isWord_printFloat (hf : f.Valid) : IsWord (printFloat f) ∧ 85 ∉ printFloat f := by
  have hsign : isplain 45 = true ∧ (45 : UInt8) ≠ 0 ∧ (45 : UInt8) ≠ 255 ∧ (45 : UInt8) ≠ 85 := by
    decide
  have hpoint : ∀ k < 12, isplain (UInt8.ofNat (46 + k)) = true ∧ UInt8.ofNat (46 + k) ≠ 0 ∧
      UInt8.ofNat (46 + k) ≠ 255 ∧ UInt8.ofNat (46 + k) ≠ 85 := by decide
  have hletter : ∀ b ∈ ascii ['i', 'n', 'f', 'a'], isplain b = true ∧ b ≠ 0 ∧ b ≠ 255 ∧ b ≠ 85 := by
    decide +kernel
  have hall : ∀ b ∈ printFloat f, isplain b = true ∧ b ≠ 0 ∧ b ≠ 255 ∧ b ≠ 85 := by
    intro b hb
    rcases mem_printFloat hb with rfl | ⟨k, hk, rfl⟩ | hb
    · exact hsign
    · exact hpoint k hk
    · exact hletter b hb
  have hne : printFloat f ≠ [] := by
    intro hnil
    have hscan := scanFloat_sixPlaces f
    have hnone : scanFloat [] = none := by decide
    rw [hnil, hnone] at hscan
    exact absurd hscan.symm (Option.some_ne_none _)
  refine ⟨⟨hne, fun b hb => (hall b hb).1, length_printFloat hf, ?_, ?_⟩, ?_⟩
  · exact fun hb => (hall 0 hb).2.1 rfl
  · exact fun hb => (hall 255 hb).2.2.1 rfl
  · exact fun hb => (hall 85 hb).2.2.2 rfl

/-! ## Tokens of a line

In front of the reader is a space, a word and what follows the word. -/

section Tokens

variable {s s' : Input}

theorem firstWord_space (hw : IsWord w) (hb : isplain b = false) :
    firstWord (32 :: (w ++ b :: i)) = (w, b :: i) := firstWord_word hw.plain hw.ne_nil hb

theorem lookahead_space (hw : IsWord w) (hb : isplain b = false) :
    lookahead (32 :: (w ++ b :: i)) prev = ⟨w ++ [0], b :: i, prev⟩ := by
  rw [lookahead, firstWord_space hw hb, terminated, if_neg hw.ne_nil]

theorem IsWord.space_ascii (hw : IsWord w) (hi : 255 ∉ b :: i) : 255 ∉ 32 :: (w ++ b :: i) := by
  rw [List.mem_cons, List.mem_append, not_or, not_or]
  exact ⟨by decide, hw.ascii, hi⟩

theorem keyed_space (hw : IsWord w) (hb : isplain b = false) :
    Keyed key (32 :: (w ++ b :: i)) ↔ key = w := by
  rw [Keyed, firstWord_space hw hb, cstr_eq_self hw.nonull, eq_comm (a := key)]
  exact and_iff_right hw.ne_nil

/-- The word is taken if it is the one that is asked for. -/
theorem checktoken_space (hw : IsWord w) (hb : isplain b = false) (hi : 255 ∉ b :: i)
    (hs : Before s (32 :: (w ++ b :: i)) prev) :
    Clean (checktoken w) s true ⟨[], b :: i, prev⟩ := by
  rw [checktoken_before (hw.space_ascii hi) hs, firstWord_space hw hb, keyed_space hw hb]
  exact ⟨hw.short, .inl ⟨rfl, rfl, rfl⟩⟩

theorem before_lookahead (hw : IsWord w) (hb : isplain b = false) :
    Before (lookahead (32 :: (w ++ b :: i)) prev) (32 :: (w ++ b :: i)) prev :=
  .inr ⟨by rw [firstWord_space hw hb]; exact hw.short, rfl⟩

/-- Otherwise it is kept. -/
theorem checktoken_other (hw : IsWord w) (hb : isplain b = false) (hi : 255 ∉ b :: i)
    (hs : Before s (32 :: (w ++ b :: i)) prev) (key : Str) (hkey : key ≠ w) :
    Clean (checktoken key) s false (lookahead (32 :: (w ++ b :: i)) prev) := by
  rw [checktoken_before (hw.space_ascii hi) hs, firstWord_space hw hb, keyed_space hw hb]
  exact ⟨hw.short, .inr ⟨rfl, hkey, rfl⟩⟩

/-- There is no further word on the line. -/
theorem checktoken_end (hi : 255 ∉ i) :
    Clean (checktoken key) ⟨[], 10 :: i, prev⟩ false ⟨[], 10 :: i, prev⟩ := by
  have hascii : 255 ∉ (10 : UInt8) :: i := (lineEnd_newline hi).1
  refine (checktoken_before hascii (.inl rfl)).mpr ⟨(by decide : 0 < 64), .inr ⟨rfl, ?_, rfl⟩⟩
  exact fun hkey => hkey.1 rfl

theorem needtoken_space (hw : IsWord w) (hb : isplain b = false) (hi : 255 ∉ b :: i)
    (hs : Before s (32 :: (w ++ b :: i)) prev) :
    Clean needtoken s () ⟨w ++ [0], b :: i, prev⟩ := by
  rw [needtoken_before (hw.space_ascii hi) hs, firstWord_space hw hb, lookahead_space hw hb]
  exact ⟨hw.short, rfl⟩

theorem advancetoken_space (hw : IsWord w) (hb : isplain b = false) (hi : 255 ∉ b :: i) :
    Clean advancetoken ⟨[], 32 :: (w ++ b :: i), prev⟩ () ⟨w ++ [0], b :: i, prev⟩ := by
  rw [advancetoken_ascii (hw.space_ascii hi), firstWord_space hw hb, lookahead_space hw hb]
  exact ⟨hw.short, rfl⟩

theorem readword_space (hw : IsWord w) (hb : isplain b = false) (hi : 255 ∉ b :: i)
    (hs : Before s (32 :: (w ++ b :: i)) prev) :
    Clean readword s w ⟨[], b :: i, prev⟩ := by
  have htoken : Clean tokenText ⟨w ++ [0], b :: i, prev⟩ (w ++ [0]) ⟨w ++ [0], b :: i, prev⟩ :=
    clean_tokenText.mpr ⟨rfl, rfl⟩
  have hflush : Clean flushtoken ⟨w ++ [0], b :: i, prev⟩ () ⟨[], b :: i, prev⟩ :=
    clean_flushtoken.mpr rfl
  rw [readword, (needtoken_space hw hb hi hs).bind_iff, htoken.bind_iff, if_neg (by simp),
    hflush.bind_iff, clean_pure, cstr_append_null, cstr_eq_self hw.nonull]
  exact ⟨rfl, rfl⟩

/-- A printed number that has become a token. -/
theorem scantoken_printFloat (hf : f.Valid) : Clean scantoken ⟨printFloat f ++ [0], i, prev⟩
    (some f.sixPlaces) ⟨[], i, prev⟩ := by
  refine clean_scantoken.mpr ⟨?_, rfl⟩
  rw [if_neg (by simp), cstr_append_null, cstr_eq_self (isWord_printFloat hf).1.nonull,
    scanFloat_sixPlaces]

theorem readfloat_printFloat (hf : f.Valid) (default : Binary32) :
    Clean (readfloat default) ⟨printFloat f ++ [0], i, prev⟩ f.sixPlaces ⟨[], i, prev⟩ :=
  (scantoken_printFloat hf).bind (clean_pure.mpr ⟨rfl, rfl⟩)

theorem expectnewline_end : Clean expectnewline ⟨[], [10], prev⟩ () ⟨[], [], prev⟩ :=
  (clean_expectnewline List.not_mem_nil).mpr ⟨rfl, [], [], rfl, rfl, rfl⟩

theorem readcode_end {l : Str} (hl : OnLine l) (hname : IsName (dropWhite l)) :
    Clean readcode ⟨[], l ++ [10], prev⟩ (dropWhite l) ⟨[], [10], prev⟩ := by
  have hrest : LineEnd [10] := lineEnd_newline List.not_mem_nil
  have hadvance : Clean advanceeol ⟨[], l ++ [10], prev⟩ () ⟨dropWhite l ++ [0], [10], prev⟩ :=
    clean_advanceeol.mpr ⟨rfl, _, _, (takeLine_line hl hrest).mpr ⟨by simp, rfl⟩, hname.short, rfl⟩
  have htoken : Clean tokenText ⟨dropWhite l ++ [0], [10], prev⟩ (dropWhite l ++ [0])
      ⟨dropWhite l ++ [0], [10], prev⟩ := clean_tokenText.mpr ⟨rfl, rfl⟩
  have hflush : Clean flushtoken ⟨dropWhite l ++ [0], [10], prev⟩ () ⟨[], [10], prev⟩ :=
    clean_flushtoken.mpr rfl
  rw [readcode, hadvance.bind_iff, htoken.bind_iff, hflush.bind_iff, clean_pure, cstr_append_null,
    cstr_eq_self hname.nonull]
  exact ⟨rfl, rfl⟩

/-- A name behind white space, up to the end of the line. -/
theorem readname_end {l : Str} (hl : OnLine l) (hname : IsName (dropWhite l)) :
    Clean readname ⟨[], l ++ [10], []⟩ (dropWhite l) ⟨[], [], []⟩ := by
  have hrun := readname_clean hl hname.short
  rwa [cstr_eq_self hname.nonull] at hrun

end Tokens

/-! ## Lines -/

section Lines

variable {α : Type} {rest text text' : Str} {ls ls' : List Str} {n : ℕ}

/-- A word that can start a line. -/
structure IsKeyword (key : Str) : Prop extends IsWord key where
  nocomment : key.head? ≠ some 35

instance : DecidablePred IsWord := fun w =>
  decidable_of_iff (w ≠ [] ∧ w.all isplain = true ∧ w.length < 64 ∧ 0 ∉ w ∧ 255 ∉ w)
    ⟨fun h => ⟨h.1, List.all_eq_true.mp h.2.1, h.2.2.1, h.2.2.2.1, h.2.2.2.2⟩,
      fun h => ⟨h.ne_nil, List.all_eq_true.mpr h.plain, h.short, h.nonull, h.ascii⟩⟩

instance : DecidablePred IsName := fun w =>
  decidable_of_iff ((10 ∉ w ∧ 255 ∉ w) ∧ dropWhite w = w ∧ w.length < 64 ∧ 0 ∉ w)
    ⟨fun h => ⟨h.1, h.2.1, h.2.2.1, h.2.2.2⟩, fun h => ⟨h.onLine, h.start, h.short, h.nonull⟩⟩

instance : DecidablePred IsKeyword := fun w =>
  decidable_of_iff (IsWord w ∧ w.head? ≠ some 35)
    ⟨fun h => ⟨h.1, h.2⟩, fun h => ⟨h.toIsWord, h.nocomment⟩⟩

/-- The text is read as these lines, whatever follows it. -/
structure Shows (text : Str) (ls : List Str) : Prop where
  lines : ∀ t, recordLines (text ++ t) = (ls ++ (recordLines t).1, (recordLines t).2)
  ended : ∀ t, Ended (text ++ t) ↔ Ended t

theorem Shows.nil : Shows [] [] := ⟨fun _ => rfl, fun _ => Iff.rfl⟩

theorem Shows.append (h : Shows text ls) (h' : Shows text' ls') :
    Shows (text ++ text') (ls ++ ls') := by
  constructor
  · intro t
    rw [List.append_assoc, h.lines, h'.lines, List.append_assoc]
  · intro t
    rw [List.append_assoc, h.ended, h'.ended]

/-- The pieces of a text, one for each value. -/
theorem Shows.flatMap {write : α → Str} {R : α → List Str → Prop} {as : List α}
    (h : ∀ a ∈ as, ∃ ls, Shows (write a) ls ∧ R a ls) :
    ∃ ls, Shows (as.flatMap write) ls ∧ Blocks R as ls := by
  induction as with
  | nil => exact ⟨[], .nil, .nil⟩
  | cons a as ih =>
    obtain ⟨ha, has⟩ := List.forall_mem_cons.mp h
    obtain ⟨ls, hls, hR⟩ := ha
    obtain ⟨ls', hls', hblocks⟩ := ih has
    exact ⟨ls ++ ls', hls.append hls', .cons hR hblocks⟩

theorem dropWhite_indent (n : ℕ) (l : Str) :
    dropWhite (List.replicate n 32 ++ l) = dropWhite l := by
  induction n with
  | zero => rfl
  | succ n ih => exact ih

theorem IsWord.onLine (hw : IsWord w) : OnLine w :=
  ⟨fun hb => absurd (hw.plain 10 hb) (by decide), hw.ascii⟩

theorem OnLine.append {l l' : Str} (h : OnLine l) (h' : OnLine l') : OnLine (l ++ l') := by
  constructor
  · rw [List.mem_append, not_or]
    exact ⟨h.1, h'.1⟩
  · rw [List.mem_append, not_or]
    exact ⟨h.2, h'.2⟩

theorem OnLine.space {l : Str} (h : OnLine l) : OnLine (32 :: l) :=
  onLine_cons.mpr ⟨by decide, by decide, h⟩

theorem firstWord_key (hkey : IsWord key) : firstWord (key ++ 32 :: rest) = (key, 32 :: rest) :=
  firstWord_word hkey.plain hkey.ne_nil (by decide)

theorem Shows.line (hkey : IsKeyword key) (hrest : OnLine rest) :
    Shows (line n key rest) [key ++ 32 :: rest] := by
  obtain ⟨l, hl⟩ : ∃ l, l = List.replicate n 32 ++ (key ++ 32 :: rest) := ⟨_, rfl⟩
  have htext (t : Str) : Gradebook.line n key rest ++ t = l ++ 10 :: t := by
    simp [Gradebook.line, hl]
  have honLine : OnLine l := by
    have hindent : OnLine (List.replicate n 32) := by
      constructor
      · exact fun hb => absurd (List.eq_of_mem_replicate hb) (by decide)
      · exact fun hb => absurd (List.eq_of_mem_replicate hb) (by decide)
    rw [hl]
    exact hindent.append (hkey.onLine.append hrest.space)
  have hword : firstWord l = (key, 32 :: rest) := by
    rw [firstWord, hl, dropWhite_indent]
    exact firstWord_key hkey.toIsWord
  have hdrop : dropWhite l = key ++ 32 :: rest := by
    rw [hl, dropWhite_indent]
    rcases hk : key with _ | ⟨b, key'⟩
    · exact absurd hk hkey.ne_nil
    · have hplain := hkey.plain b (hk ▸ List.mem_cons_self)
      have hwhite : iswhitespace b = false := by
        simp [isplain] at hplain
        exact hplain.1
      rw [List.cons_append, dropWhite, List.dropWhile_cons, hwhite]
      rfl
  have hread : ¬ Skipped l := by
    rw [Skipped, hword, not_or]
    exact ⟨hkey.ne_nil, hkey.nocomment⟩
  constructor
  · intro t
    rw [htext, recordLines, lines_line honLine, scanLines_record hread, hdrop]
    rfl
  · intro t
    rw [htext, ended_line honLine]

/-- A line is read as what its reader makes of the rest of it. -/
theorem readAs_line (hkey : IsWord key) (hrest : OnLine rest) {x : Reader α} {a : α}
    (h : Clean x ⟨[], 32 :: rest ++ [10], []⟩ a ⟨[], [], []⟩) :
    ReadAs key x (key ++ 32 :: rest) a := by
  refine readAs_iff.mpr ⟨hkey.onLine.append hrest.space, ?_, ?_, ?_⟩
  · rw [firstWord_key hkey]
    exact hkey.short
  · rw [Keyed, firstWord_key hkey]
    exact ⟨hkey.ne_nil, cstr_eq_self hkey.nonull⟩
  · rw [firstWord_key hkey]
    exact h

end Lines

/-! ## Persons, students and titles -/

section Records

variable {n : ℕ} {name : Str}

theorem IsName.space_end (h : IsName name) :
    Clean readname ⟨[], 32 :: name ++ [10], []⟩ name ⟨[], [], []⟩ := by
  have hdrop : dropWhite (32 :: name) = name := h.start
  have hrun := readname_end h.onLine.space (hdrop.symm ▸ h)
  rwa [hdrop] at hrun

theorem IsName.comma_end (h : IsName name) :
    Clean readname ⟨[], 44 :: 32 :: name ++ [10], []⟩ name ⟨[], [], []⟩ := by
  have hdrop : dropWhite (44 :: 32 :: name) = name := h.start
  have hrun := readname_end (onLine_cons.mpr ⟨by decide, by decide, h.onLine.space⟩) (hdrop.symm ▸ h)
  rwa [hdrop] at hrun

theorem IsName.ascii_end (h : IsName name) (hb : b ≠ 255) : 255 ∉ b :: 32 :: name ++ [10] := by
  have hline := h.onLine.2
  simp [hline, Ne.symm hb]

theorem courserecord_written (hw : IsWord w) (h : IsName name) :
    Clean courserecord ⟨[], 32 :: (w ++ 32 :: name) ++ [10], []⟩ (w, name) ⟨[], [], []⟩ := by
  have hascii : 255 ∉ (32 : UInt8) :: name ++ [10] := h.onLine.space.ascii_append (lineEnd_newline
    List.not_mem_nil)
  rw [List.cons_append, List.append_assoc]
  exact (readword_space hw (by decide) hascii (.inl rfl)).bind
    (h.space_end.bind (clean_pure.mpr ⟨rfl, rfl⟩))

theorem personrecord_written {p : Person} (h : IsPerson p) :
    Clean personrecord ⟨[], 32 :: (p.surname ++ 44 :: 32 :: p.name) ++ [10], []⟩ p ⟨[], [], []⟩ := by
  rw [List.cons_append, List.append_assoc]
  exact (readword_space h.surname (by decide) (h.name.ascii_end (by decide)) (.inl rfl)).bind
    (h.name.comma_end.bind (clean_pure.mpr ⟨rfl, rfl⟩))

theorem OnLine.comma {l : Str} (h : OnLine l) : OnLine (44 :: 32 :: l) :=
  onLine_cons.mpr ⟨by decide, by decide, h.space⟩

theorem shows_writeperson (hkey : IsKeyword key) {p : Option Person} (h : ∀ q ∈ p, IsPerson q) :
    ∃ ls, Shows (writeperson key p) ls ∧ PersonLine key p ls := by
  cases p with
  | none => exact ⟨[], .nil, rfl⟩
  | some p =>
    have hp : IsPerson p := h p rfl
    have hline : OnLine (p.surname ++ 44 :: 32 :: p.name) :=
      hp.surname.onLine.append hp.name.onLine.comma
    exact ⟨_, .line hkey hline, _, rfl,
      readAs_line hkey.toIsWord hline (personrecord_written hp)⟩

theorem studentrecord_written {a : List Assignment} {st : Student} (h : IsStudent a st) :
    Clean studentrecord ⟨[], 32 :: (st.id ++ 32 :: st.surname ++ 44 :: 32 :: st.name) ++ [10], []⟩
      (st.id, st.surname, st.name) ⟨[], [], []⟩ := by
  have hname := h.name.ascii_end (b := 44) (by decide)
  have hascii : 255 ∉ (32 : UInt8) :: (st.surname ++ 44 :: 32 :: st.name ++ [10]) := by
    have h := h.surname.space_ascii (b := 44) hname
    rwa [List.append_assoc]
  have hinput : 32 :: (st.id ++ 32 :: st.surname ++ 44 :: 32 :: st.name) ++ [10] =
      32 :: (st.id ++ 32 :: (st.surname ++ 44 :: 32 :: st.name ++ [10])) := by simp
  rw [hinput]
  refine (readword_space h.id (by decide) hascii (.inl rfl)).bind ?_
  rw [List.append_assoc]
  exact (readword_space h.surname (by decide) hname (.inl rfl)).bind
    (h.name.comma_end.bind (clean_pure.mpr ⟨rfl, rfl⟩))

end Records

/-! ## Scores -/

section Scores

variable {ap : Assignment} {code : Str} {a : List Assignment} {score : Score}

theorem IsName.code_end (h : IsName code) :
    Clean readcode ⟨[], 32 :: (code ++ [10]), prev⟩ code ⟨[], [10], prev⟩ := by
  have hdrop : dropWhite (32 :: code) = code := h.start
  have hrun : Clean readcode ⟨[], 32 :: code ++ [10], prev⟩ _ ⟨[], [10], prev⟩ :=
    readcode_end h.onLine.space (hdrop.symm ▸ h)
  rwa [hdrop] at hrun

/-- The keyword that the code of a normalized score gets is a part of it from then on. -/
theorem IsName.prefix_word (h : IsName code) (hw : IsWord w) (hshort : (w ++ 32 :: code).length < 64) :
    IsName (w ++ 32 :: code) where
  onLine := hw.onLine.append h.onLine.space
  start := by
    rcases hword : w with _ | ⟨b, w'⟩
    · exact absurd hword hw.ne_nil
    · have hplain := hw.plain b (hword ▸ List.mem_cons_self)
      have hwhite : iswhitespace b = false := by
        simp [isplain] at hplain
        exact hplain.1
      rw [List.cons_append, dropWhite, List.dropWhile_cons, hwhite]
      rfl
  short := hshort
  nonull := by
    rw [List.mem_append, List.mem_cons, not_or, not_or]
    exact ⟨hw.nonull, by decide, h.nonull⟩

theorem IsName.ascii_newline (h : IsName code) : 255 ∉ (32 : UInt8) :: (code ++ [10]) :=
  h.onLine.space.ascii_append (lineEnd_newline List.not_mem_nil)

/-- `USERAW` and its number. -/
theorem readgrade_useRaw (hf : f.Valid) (h : IsName code) :
    Clean (readgrade ap) ⟨[], 32 :: (Key.USERAW ++ 32 :: (printFloat f ++ 32 :: (code ++ [10]))), prev⟩
      (.useRaw f.sixPlaces code) ⟨[], [10], prev⟩ := by
  have hword := (isWord_printFloat hf).1
  have hraw := checktoken_space (w := Key.USERAW) (s := ⟨[], _, prev⟩) (by decide) (by decide)
    (hword.space_ascii h.ascii_newline) (.inl rfl)
  rw [readgrade, hraw.bind_iff, if_pos rfl]
  exact (needtoken_space hword (by decide) h.ascii_newline (.inl rfl)).bind
    ((readfloat_printFloat hf _).bind (h.code_end.bind (clean_pure.mpr ⟨rfl, rfl⟩)))

/-- `USENORM` and its number, which has to be in the range of the policy. -/
theorem readgrade_useNorm (hf : f.Valid) (h : IsName code)
    (hrange : normInRange ap f.sixPlaces = true) :
    Clean (readgrade ap) ⟨[], 32 :: (Key.USENORM ++ 32 :: (printFloat f ++ 32 :: (code ++ [10]))), prev⟩
      (.useNorm f.sixPlaces code) ⟨[], [10], prev⟩ := by
  have hword := (isWord_printFloat hf).1
  have hascii := hword.space_ascii h.ascii_newline
  have hother := checktoken_other (w := Key.USENORM) (s := ⟨[], _, prev⟩) (by decide) (by decide)
    hascii (.inl rfl) Key.USERAW (by decide)
  have hnorm := checktoken_space (w := Key.USENORM) (s := lookahead _ prev) (by decide) (by decide) hascii
    (before_lookahead (by decide) (by decide))
  rw [readgrade, hother.bind_iff, if_neg Bool.false_ne_true, hnorm.bind_iff, if_pos rfl,
    (needtoken_space hword (by decide) h.ascii_newline (.inl rfl)).bind_iff,
    (scantoken_printFloat hf).bind_iff]
  simp only [hrange, if_true]
  exact h.code_end.bind (clean_pure.mpr ⟨rfl, rfl⟩)

/-- The substitutions without a number. -/
theorem readgrade_useLikeAvg (h : IsName code) :
    Clean (readgrade ap) ⟨[], 32 :: (Key.USELIKEAVG ++ 32 :: (code ++ [10])), prev⟩
      (.useLikeAvg code) ⟨[], [10], prev⟩ := by
  have hother {s : Input} (hs : Before s (32 :: (Key.USELIKEAVG ++ 32 :: (code ++ [10]))) prev) :=
    checktoken_other (by decide) (by decide) h.ascii_newline hs
  have hnext : Before (lookahead (32 :: (Key.USELIKEAVG ++ 32 :: (code ++ [10]))) prev)
      (32 :: (Key.USELIKEAVG ++ 32 :: (code ++ [10]))) prev :=
    before_lookahead (by decide) (by decide)
  have hcheck := checktoken_space (by decide) (by decide) h.ascii_newline hnext
  rw [readgrade, (hother (.inl rfl) Key.USERAW (by decide)).bind_iff,
    if_neg Bool.false_ne_true, (hother hnext Key.USENORM (by decide)).bind_iff,
    if_neg Bool.false_ne_true, hcheck.bind_iff, if_pos rfl]
  exact h.code_end.bind (clean_pure.mpr ⟨rfl, rfl⟩)

theorem readgrade_useClassAvg (h : IsName code) :
    Clean (readgrade ap) ⟨[], 32 :: (Key.USECLASSAVG ++ 32 :: (code ++ [10])), prev⟩
      (.useClassAvg code) ⟨[], [10], prev⟩ := by
  have hother {s : Input} (hs : Before s (32 :: (Key.USECLASSAVG ++ 32 :: (code ++ [10]))) prev) :=
    checktoken_other (by decide) (by decide) h.ascii_newline hs
  have hnext : Before (lookahead (32 :: (Key.USECLASSAVG ++ 32 :: (code ++ [10]))) prev)
      (32 :: (Key.USECLASSAVG ++ 32 :: (code ++ [10]))) prev :=
    before_lookahead (by decide) (by decide)
  have hcheck := checktoken_space (by decide) (by decide) h.ascii_newline hnext
  rw [readgrade, (hother (.inl rfl) Key.USERAW (by decide)).bind_iff,
    if_neg Bool.false_ne_true, (hother hnext Key.USENORM (by decide)).bind_iff,
    if_neg Bool.false_ne_true, (hother hnext Key.USELIKEAVG (by decide)).bind_iff,
    if_neg Bool.false_ne_true, hcheck.bind_iff, if_pos rfl]
  exact h.code_end.bind (clean_pure.mpr ⟨rfl, rfl⟩)

/-- A number alone is none of the keywords. -/
theorem readgrade_valid (hf : f.Valid) :
    Clean (readgrade ap) ⟨[], 32 :: (printFloat f ++ [10]), prev⟩ (.valid f.sixPlaces)
      ⟨[], [10], prev⟩ := by
  obtain ⟨hword, hU⟩ := isWord_printFloat hf
  have hascii : (255 : UInt8) ∉ [10] := by decide
  have hother {s : Input} (hs : Before s (32 :: (printFloat f ++ [10])) prev) (key : Str)
      (hkey : 85 ∈ key) := checktoken_other hword (by decide) hascii hs key fun heq => hU (heq ▸ hkey)
  have hnext : Before (lookahead (32 :: (printFloat f ++ [10])) prev)
      (32 :: (printFloat f ++ [10])) prev := before_lookahead hword (by decide)
  rw [readgrade, (hother (.inl rfl) Key.USERAW (by decide)).bind_iff,
    if_neg Bool.false_ne_true, (hother hnext Key.USENORM (by decide)).bind_iff,
    if_neg Bool.false_ne_true, (hother hnext Key.USELIKEAVG (by decide)).bind_iff,
    if_neg Bool.false_ne_true, (hother hnext Key.USECLASSAVG (by decide)).bind_iff,
    if_neg Bool.false_ne_true, (needtoken_space hword (by decide) hascii hnext).bind_iff]
  exact (readfloat_printFloat hf _).bind (clean_pure.mpr ⟨rfl, rfl⟩)

/-- What is written for a grade is read back. -/
theorem readgrade_written {g : Grade} (h : IsGrade ap g) (hfits : g.Fits ap) :
    Clean (readgrade ap.reread) ⟨[], writegrade ap g ++ [10], prev⟩ (g.reread ap) ⟨[], [10], prev⟩ := by
  cases g with
  | valid grade => exact readgrade_valid h
  | useRaw grade code =>
    have hinput : writegrade ap (.useRaw grade code) ++ [10] =
        32 :: (Key.USERAW ++ 32 :: (printFloat grade ++ 32 :: (code ++ [10]))) := by
      simp [writegrade]
    rw [hinput]
    exact readgrade_useRaw h.1 h.2
  | useNorm norm code =>
    obtain ⟨hf, hcode, -⟩ := h
    by_cases hraw : ap.npolicy = .raw
    · -- the fall through leaves only the second keyword
      have hinput : writegrade ap (.useNorm norm code) ++ [10] =
          32 :: (Key.USELIKEAVG ++ 32 :: (code ++ [10])) := by
        simp [writegrade, writenormalized, hraw]
      rw [hinput, Grade.reread, if_pos hraw]
      exact readgrade_useLikeAvg hcode
    · obtain ⟨hshort, hrange⟩ := hfits.resolve_left hraw
      have hnorm : writenormalized ap norm = 32 :: Key.USENORM ++ 32 :: printFloat norm := by
        rw [writenormalized]
        split
        · exact absurd ‹_› hraw
        · rfl
        · rfl
        · rfl
      have hinput : writegrade ap (.useNorm norm code) ++ [10] =
          32 :: (Key.USENORM ++ 32 :: (printFloat norm ++ 32 ::
            ((Key.USELIKEAVG ++ 32 :: code) ++ [10]))) := by
        simp [writegrade, hnorm]
      rw [hinput, Grade.reread, if_neg hraw]
      exact readgrade_useNorm hf (hcode.prefix_word (by decide) hshort) hrange
  | useLikeAvg code =>
    have hinput : writegrade ap (.useLikeAvg code) ++ [10] =
        32 :: (Key.USELIKEAVG ++ 32 :: (code ++ [10])) := by simp [writegrade]
    rw [hinput]
    exact readgrade_useLikeAvg h
  | useClassAvg code =>
    have hinput : writegrade ap (.useClassAvg code) ++ [10] =
        32 :: (Key.USECLASSAVG ++ 32 :: (code ++ [10])) := by simp [writegrade]
    rw [hinput]
    exact readgrade_useClassAvg h

theorem writegrade_cons (ap : Assignment) (g : Grade) : ∃ l, writegrade ap g = 32 :: l := by
  cases g with
  | valid grade => exact ⟨_, rfl⟩
  | useRaw grade code => exact ⟨_, rfl⟩
  | useNorm norm code =>
    rw [writegrade, writenormalized]
    split
    · exact ⟨_, rfl⟩
    · exact ⟨_, rfl⟩
    · exact ⟨_, rfl⟩
    · exact ⟨_, rfl⟩
  | useLikeAvg code => exact ⟨_, rfl⟩
  | useClassAvg code => exact ⟨_, rfl⟩

theorem onLine_writegrade {g : Grade} (h : IsGrade ap g) : OnLine (writegrade ap g) := by
  have hkeys : ∀ key ∈ [Key.USERAW, Key.USENORM, Key.USELIKEAVG, Key.USECLASSAVG], OnLine key := by
    have hword : ∀ key ∈ [Key.USERAW, Key.USENORM, Key.USELIKEAVG, Key.USECLASSAVG], IsWord key := by
      decide
    exact fun key hkey => (hword key hkey).onLine
  have hnumber {f : Binary32} (hf : f.Valid) : OnLine (32 :: printFloat f) :=
    (isWord_printFloat hf).1.onLine.space
  cases g with
  | valid grade => exact hnumber h
  | useRaw grade code =>
    exact ((hkeys _ (by simp)).space.append (hnumber h.1)).append h.2.onLine.space
  | useNorm norm code =>
    have hnorm : OnLine (writenormalized ap norm) := by
      have hword := (hkeys Key.USENORM (by simp)).space.append (hnumber h.1)
      rw [writenormalized]
      split
      · exact onLine_nil
      · exact hword
      · exact hword
      · exact hword
    exact (hnorm.append (hkeys _ (by simp)).space).append h.2.1.onLine.space
  | useLikeAvg code => exact (hkeys _ (by simp)).space.append h.onLine.space
  | useClassAvg code => exact (hkeys _ (by simp)).space.append h.onLine.space

theorem findAssignment_reread (a : List Assignment) (name : Str) :
    findAssignment (a.map Assignment.reread) name =
      (findAssignment a name).map fun r => (r.1.reread, r.2) := by
  rw [findAssignment, findAssignment, List.zipIdx_map, List.find?_map]
  rfl

theorem getElem?_of_findAssignment {n : ℕ} (h : findAssignment a w = some (ap, n)) :
    a[n]? = some ap ∧ ap.name = w := by
  refine ⟨?_, by simpa using List.find?_some h⟩
  exact List.mk_mem_zipIdx_iff_getElem?.mp (List.mem_of_find?_eq_some h)

/-- A score is read for the assignment that it was written for. -/
theorem scorerecord_written (hname : IsWord ap.name)
    (hfind : findAssignment a ap.name = some (ap, score.asgt)) (h : IsGrade ap score.grade)
    (hfits : score.grade.Fits ap) : Clean (scorerecord (a.map Assignment.reread))
      ⟨[], 32 :: (ap.name ++ writegrade ap score.grade) ++ [10], []⟩
      ⟨score.asgt, score.grade.reread ap⟩ ⟨[], [], []⟩ := by
  obtain ⟨l, hl⟩ := writegrade_cons ap score.grade
  have hgrade : Clean (readgrade ap.reread) ⟨[], writegrade ap score.grade ++ [10], []⟩
      (score.grade.reread ap) ⟨[], [10], []⟩ := readgrade_written h hfits
  have hascii : 255 ∉ (32 : UInt8) :: (l ++ [10]) := by
    have honLine := onLine_writegrade h
    rw [hl] at honLine
    exact honLine.ascii_append (lineEnd_newline List.not_mem_nil)
  have hinput : 32 :: (ap.name ++ writegrade ap score.grade) ++ [10] =
      32 :: (ap.name ++ 32 :: (l ++ [10])) := by simp [hl]
  have htoken : Clean tokenText ⟨ap.name ++ [0], 32 :: (l ++ [10]), []⟩ (ap.name ++ [0])
      ⟨ap.name ++ [0], 32 :: (l ++ [10]), []⟩ := clean_tokenText.mpr ⟨rfl, rfl⟩
  have hflush : Clean flushtoken ⟨ap.name ++ [0], 32 :: (l ++ [10]), []⟩ ()
      ⟨[], 32 :: (l ++ [10]), []⟩ := clean_flushtoken.mpr rfl
  have hscore : Clean (readscore (a.map Assignment.reread)) ⟨[], 32 :: (ap.name ++ 32 :: (l ++ [10])), []⟩
      ⟨score.asgt, score.grade.reread ap⟩ ⟨[], [10], []⟩ := by
    rw [readscore, (needtoken_space hname (by decide) hascii (.inl rfl)).bind_iff, htoken.bind_iff,
      if_neg (by simp), cstr_append_null, cstr_eq_self hname.nonull, findAssignment_reread, hfind]
    rw [hl] at hgrade
    exact hflush.bind (hgrade.bind (clean_pure.mpr ⟨rfl, rfl⟩))
  rw [hinput]
  exact hscore.bind (expectnewline_end.bind (clean_pure.mpr ⟨rfl, rfl⟩))

/-- The line of a score. -/
theorem shows_writescore (hnames : ∀ ap ∈ a, IsWord ap.name) (h : IsScore a score)
    (hfits : ∀ ap ∈ a[score.asgt]?, score.grade.Fits ap) : ∃ ls, Shows (writescore a score) ls ∧
      ∃ l, ls = [l] ∧
        ReadAs Key.SCORE (scorerecord (a.map Assignment.reread)) l (score.reread a) := by
  obtain ⟨ap, hfind, hgrade⟩ := h
  obtain ⟨hget, -⟩ := getElem?_of_findAssignment hfind
  have hname : IsWord ap.name := hnames ap (List.mem_of_getElem? hget)
  have hline : OnLine (ap.name ++ writegrade ap score.grade) :=
    hname.onLine.append (onLine_writegrade hgrade)
  have hwrite : writescore a score = line 3 Key.SCORE (ap.name ++ writegrade ap score.grade) := by
    rw [writescore, hget]
  have hreread : score.reread a = ⟨score.asgt, score.grade.reread ap⟩ := by
    rw [Score.reread, hget]
  rw [hwrite, hreread]
  exact ⟨_, .line (by decide) hline, _, rfl, readAs_line (by decide) hline
    (scorerecord_written hname hfind hgrade (hfits ap hget))⟩

end Scores

end CLanguage.Gradebook
