import CLanguage.Gradebook.Parser
import CLanguage.Gradebook.Tokens

/-!
# The token buffer in memory

`tokenbuf` has 64 characters, and `tokenptr` and `tokenend` point into it. Neither
`advancetoken` nor `advanceeol` looks at the size of the buffer when it stores a
character. So the pointers and the stores of a run stay inside exactly if every token and
every line that the run reads into the buffer fits (`tokenbuf_inside_iff`). As long as they do, the
parser on this buffer is the reader (`visits_readroot`).
-/

namespace CLanguage.Gradebook

open Lib Lib.Reporting Grades

/-- The buffer and the open files. The memory goes on behind the buffer. -/
structure Cursor where
  tokenbuf : ℕ → UInt8
  tokenptr : ℕ
  tokenend : ℕ
  /-- the places at which characters have been stored -/
  stored : List ℕ
  input : Str
  prev : List Str

namespace Cursor

/-! ### The source -/

/-- `istoken` -/
def istoken (c : Cursor) : Bool := c.tokenptr ≠ c.tokenend

/-- `tokensize` -/
def tokensize (c : Cursor) : ℕ := c.tokenend - c.tokenptr

/-- The characters of the token. -/
def text (c : Cursor) : Str := (List.range' c.tokenptr c.tokensize).map c.tokenbuf

/-- `flushtoken` -/
def flushtoken (c : Cursor) : Cursor := { c with tokenptr := 0, tokenend := 0 }

/-- `*tokenend++ = b` -/
def put (c : Cursor) (b : UInt8) : Cursor :=
  { c with
    tokenbuf := Function.update c.tokenbuf c.tokenend b
    tokenend := c.tokenend + 1
    stored := c.tokenend :: c.stored }

/-- The file that is read stands at `input`. -/
def seek (c : Cursor) (input : Str) : Cursor := { c with input := input }

/-- `gobblewhitespace` -/
def gobblewhitespace (c : Cursor) : Cursor :=
  if c.istoken then c else c.seek (skipWhitespace c.input)

/-- The loop of `advancetoken`. -/
def tokenLoop : Str → Cursor → Cursor
  | [], c => c.seek []
  | b :: input, c =>
    if b = 255 then c.seek input
    else if iswhitespace b || b = 10 then c.seek (b :: input)
    else tokenLoop input (c.put b)

/-- `advancetoken` -/
def advancetoken (c : Cursor) : Cursor :=
  let c := c.flushtoken.gobblewhitespace
  let c := tokenLoop c.input c
  if c.tokenend ≠ c.tokenptr then c.put 0 else c

/-- The loop of `advanceeol`, and whether it came to the end of the file. -/
def lineLoop : Str → Cursor → Bool × Cursor
  | [], c => (true, c.seek [])
  | b :: input, c =>
    if b = 255 then (true, c.seek input)
    else if b = 10 then (false, c.seek (b :: input))
    else lineLoop input (c.put b)

end Cursor

/-- What the functions do to the buffer, also when they stop. -/
def Op.exec : ∀ β, Op β → Cursor → Except Stop (β × ℕ) × Cursor
  | _, .istoken, c => (.ok (c.istoken, 0), c)
  | _, .tokenText, c => (.ok (c.text, 0), c)
  | _, .flushtoken, c => (.ok ((), 0), c.flushtoken)
  | _, .gobblewhitespace, c => (.ok ((), 0), c.gobblewhitespace)
  | _, .gobbleblanklines, c =>
    if c.istoken then (.ok ((), 0), c)
    else
      match skipBlankLines (c.input.length + 1) c.input with
      | .error e => (.error e, c)
      | .ok input => (.ok ((), 0), c.seek input)
  | _, .nextchar, c =>
    if c.istoken then (.ok (c.tokenbuf c.tokenptr, 0), { c with tokenptr := c.tokenptr + 1 })
    else
      match getc c.input with
      | (none, input) => (.error .fatal, c.flushtoken.seek input)
      | (some b, input) => (.ok (b, 0), c.flushtoken.seek input)
  | _, .skipline, c =>
    match skipLine c.input with
    | none => (.error .fatal, c.flushtoken)
    | some input => (.ok ((), 0), c.flushtoken.seek input)
  | _, .advancetoken, c => (.ok ((), if c.istoken then 1 else 0), c.advancetoken)
  | _, .advanceeol, c =>
    let start := c.flushtoken.gobblewhitespace
    match Cursor.lineLoop start.input start with
    | (true, c') => (.error .fatal, c')
    | (false, c') => (.ok ((), if c.istoken then 1 else 0), c'.put 0)
  | _, .previousfile, c =>
    match c.prev with
    | [] => (.error .fatal, c)
    | input :: prev => (.ok ((), 0), { c.seek input with prev := prev })
  | _, .openFiles, c => (.ok (c.prev.length + 1, 0), c)
  | _, .openfile text, c => (.ok ((), 0), { c.seek text with prev := c.input :: c.prev })
  | _, .expecteof, c =>
    let (b, input) := if c.istoken then (some 0, c.input) else getc c.input
    if c.istoken = false ∧ b = none ∧ c.prev = [] then (.ok ((), 0), c.seek input)
    else
      -- the file at the bottom of the stack
      (.ok ((), 1), { c.flushtoken.seek ((c.input :: c.prev).getLastD []) with prev := [] })
  | _, .report, c => (.ok ((), 1), c)

/-! ### Inside the buffer -/

/-- The pointers are in order and inside the buffer, and so are all characters that have been
stored. -/
structure Cursor.Inside (c : Cursor) : Prop where
  ordered : c.tokenptr ≤ c.tokenend
  inside : c.tokenend ≤ 64
  stored : ∀ i ∈ c.stored, i < 64

/-- What is ahead fits into the buffer: a token with the null byte behind it, or a line, which gets
one if it is complete. -/
def Op.Fits : ∀ β, Op β → Cursor → Prop
  | _, .advancetoken, c => (takeToken (skipWhitespace c.input)).1.length < 64
  | _, .advanceeol, c =>
    match takeLine (skipWhitespace c.input) with
    | some (line, _) => line.length < 64
    | none => ((skipWhitespace c.input).takeWhile (· ≠ 255)).length ≤ 64
  | _, _, _ => True

namespace Cursor

variable {c : Cursor} {w input : Str} {b : UInt8} {i : ℕ}

/-- Storing several characters. -/
def puts (c : Cursor) (w : Str) : Cursor := w.foldl put c

theorem puts_snoc : c.puts (w ++ [b]) = (c.puts w).put b := List.foldl_append ..

@[simp] theorem tokenptr_puts : (c.puts w).tokenptr = c.tokenptr := by
  induction w generalizing c with
  | nil => rfl
  | cons b w ih => exact ih

@[simp] theorem tokenend_puts : (c.puts w).tokenend = c.tokenend + w.length := by
  induction w generalizing c with
  | nil => rfl
  | cons b w ih =>
    rw [puts, List.foldl_cons, ← puts, ih, List.length_cons]
    exact Nat.add_right_comm _ _ _

@[simp] theorem input_puts : (c.puts w).input = c.input := by
  induction w generalizing c with
  | nil => rfl
  | cons b w ih => exact ih

@[simp] theorem prev_puts : (c.puts w).prev = c.prev := by
  induction w generalizing c with
  | nil => rfl
  | cons b w ih => exact ih

theorem mem_stored_puts : i ∈ (c.puts w).stored ↔
    i ∈ c.stored ∨ (c.tokenend ≤ i ∧ i < c.tokenend + w.length) := by
  induction w generalizing c with
  | nil =>
    rw [puts, List.foldl_nil, List.length_nil]
    exact (or_iff_left (by omega)).symm
  | cons b w ih =>
    rw [puts, List.foldl_cons, ← puts, ih, List.length_cons]
    simp only [put, List.mem_cons]
    by_cases hi : i ∈ c.stored
    · simp [hi]
    · simp only [hi, or_false, false_or]
      omega

theorem text_put (h : c.tokenptr ≤ c.tokenend) : (c.put b).text = c.text ++ [b] := by
  have hsize : (c.put b).tokensize = c.tokensize + 1 := Nat.succ_sub h
  have hlast : c.tokenptr + c.tokensize = c.tokenend := Nat.add_sub_cancel' h
  rw [text, hsize, List.range'_1_concat, List.map_append, text]
  congr 1
  · -- the token so far is before the place that is stored to
    refine List.map_congr_left fun i hi => ?_
    have hlt : i < c.tokenptr + c.tokensize := (List.mem_range'_1.mp hi).2
    exact Function.update_of_ne (by omega) _ _
  · change [Function.update c.tokenbuf c.tokenend b (c.tokenptr + c.tokensize)] = [b]
    rw [hlast, Function.update_self]

theorem text_puts (h : c.tokenptr ≤ c.tokenend) : (c.puts w).text = c.text ++ w := by
  induction w generalizing c with
  | nil => exact (List.append_nil _).symm
  | cons b w ih =>
    rw [puts, List.foldl_cons, ← puts, ih (Nat.le_succ_of_le h), text_put h, List.append_assoc]
    rfl

@[simp] theorem text_flushtoken : c.flushtoken.text = [] := rfl

@[simp] theorem text_seek : (c.seek input).text = c.text := rfl

/-- There is a token exactly if it has a character. -/
theorem istoken_iff (h : c.tokenptr ≤ c.tokenend) : c.istoken = true ↔ c.text ≠ [] := by
  rw [istoken, decide_eq_true_iff, text, Ne, Ne, List.map_eq_nil_iff, List.range'_eq_nil_iff,
    tokensize]
  omega

theorem puts_seek : (c.seek input).puts w = (c.puts w).seek input := by
  induction w generalizing c with
  | nil => rfl
  | cons b w ih => exact ih (c := c.put b)

/-! ### The two loops -/

theorem tokenLoop_eq (input : Str) (c : Cursor) :
    tokenLoop input c = (c.puts (takeToken input).1).seek (takeToken input).2 := by
  induction input generalizing c with
  | nil => rfl
  | cons b input ih =>
    rw [tokenLoop, takeToken]
    split
    · rfl
    split
    · rfl
    · exact ih _

theorem lineLoop_eq (input : Str) (c : Cursor) :
    lineLoop input c =
      match takeLine input with
      | some (w, rest) => (false, (c.puts w).seek rest)
      | none =>
        (true, (c.puts (input.takeWhile (· ≠ 255))).seek ((input.dropWhile (· ≠ 255)).drop 1)) := by
  induction input generalizing c with
  | nil => rfl
  | cons b input ih =>
    rw [lineLoop, takeLine]
    split
    · next hb =>
      subst hb
      rfl
    split
    · rfl
    · next hb hb' =>
      rw [ih]
      cases takeLine input with
      | none => simp [hb, puts]
      | some r => rfl

theorem advancetoken_eq (c : Cursor) : c.advancetoken =
    (c.flushtoken.puts (terminated (takeToken (skipWhitespace c.input)).1)).seek
      (takeToken (skipWhitespace c.input)).2 := by
  have hstart : c.flushtoken.gobblewhitespace = c.flushtoken.seek (skipWhitespace c.input) := rfl
  have hinput : (c.flushtoken.seek (skipWhitespace c.input)).input = skipWhitespace c.input := rfl
  rw [advancetoken, hstart, tokenLoop_eq, puts_seek, hinput]
  generalize takeToken (skipWhitespace c.input) = r
  -- `tokenptr` is still at the start of the buffer
  have hptr : (c.flushtoken.puts r.1).tokenptr = 0 := tokenptr_puts
  have hend : (c.flushtoken.puts r.1).tokenend = 0 + r.1.length := tokenend_puts
  change (if (c.flushtoken.puts r.1).tokenend ≠ (c.flushtoken.puts r.1).tokenptr then _ else _) =
    _
  rw [hend, hptr, terminated]
  by_cases hw : r.1 = []
  · rw [hw, if_pos rfl, if_neg (by simp)]
    rfl
  · have hpos : 0 + r.1.length ≠ 0 := by
      rw [Nat.zero_add]
      exact Nat.ne_of_gt (List.length_pos_of_ne_nil hw)
    rw [if_neg hw, if_pos hpos, puts_snoc]
    rfl

/-! ### What keeps the pointers inside -/

/-- Filling the buffer from its start on. -/
theorem inside_fill (h : c.Inside) :
    ((c.flushtoken.puts w).seek input).Inside ↔ w.length ≤ 64 := by
  have hend : ((c.flushtoken.puts w).seek input).tokenend = w.length :=
    tokenend_puts.trans (Nat.zero_add _)
  constructor
  · intro hfill
    rw [← hend]
    exact hfill.inside
  · intro hw
    refine ⟨?_, hend.trans_le hw, fun i hi => ?_⟩
    · rw [hend]
      exact tokenptr_puts.trans_le (Nat.zero_le _)
    · obtain hold | hnew := mem_stored_puts.mp hi
      · exact h.stored i hold
      · have hlt : i < 0 + w.length := hnew.2
        omega

theorem inside_flushtoken (h : c.Inside) : c.flushtoken.Inside :=
  ⟨Nat.le_refl 0, Nat.zero_le 64, h.stored⟩

theorem inside_seek : (c.seek input).Inside ↔ c.Inside :=
  ⟨fun h => ⟨h.ordered, h.inside, h.stored⟩, fun h => ⟨h.ordered, h.inside, h.stored⟩⟩

end Cursor

/-- The functions keep the pointers inside exactly if what is ahead fits. -/
theorem exec_inside (β : Type) (o : Op β) (c : Cursor) (h : c.Inside) :
    (Op.exec β o c).2.Inside ↔ Op.Fits β o c := by
  cases o with
  | istoken | tokenText | openFiles | report => exact iff_of_true h trivial
  | flushtoken => exact iff_of_true (Cursor.inside_flushtoken h) trivial
  | gobblewhitespace =>
    refine iff_of_true ?_ trivial
    rw [Op.exec, Cursor.gobblewhitespace]
    split
    · exact h
    · exact Cursor.inside_seek.mpr h
  | gobbleblanklines =>
    refine iff_of_true ?_ trivial
    rw [Op.exec]
    split
    · exact h
    split
    · exact h
    · exact Cursor.inside_seek.mpr h
  | nextchar =>
    refine iff_of_true ?_ trivial
    rw [Op.exec]
    split
    · next htoken =>
      -- there is a character, so that `tokenptr` is below `tokenend`
      have hne : c.tokenptr ≠ c.tokenend := of_decide_eq_true htoken
      exact ⟨Nat.lt_of_le_of_ne h.ordered hne, h.inside, h.stored⟩
    · split <;> exact Cursor.inside_seek.mpr (Cursor.inside_flushtoken h)
  | skipline =>
    refine iff_of_true ?_ trivial
    rw [Op.exec]
    split
    · exact Cursor.inside_flushtoken h
    · exact Cursor.inside_seek.mpr (Cursor.inside_flushtoken h)
  | advancetoken =>
    -- a token is stored with a null byte, no token is stored without one
    change c.advancetoken.Inside ↔ _
    rw [Cursor.advancetoken_eq, Cursor.inside_fill h, Op.Fits, terminated]
    split
    · next hw => simp [hw]
    · rw [List.length_append, List.length_singleton]
      exact Nat.succ_le_iff
  | advanceeol =>
    have hstart : c.flushtoken.gobblewhitespace = c.flushtoken.seek (skipWhitespace c.input) := rfl
    have hinput : (c.flushtoken.seek (skipWhitespace c.input)).input = skipWhitespace c.input := rfl
    rw [Op.exec, Op.Fits, hstart, Cursor.lineLoop_eq, hinput]
    cases takeLine (skipWhitespace c.input) with
    | none =>
      -- the end of the file is fatal, but what was before it has been stored
      dsimp only
      rw [Cursor.puts_seek]
      exact Cursor.inside_fill h
    | some r =>
      obtain ⟨w, rest⟩ := r
      dsimp only
      have hfill : ((c.flushtoken.puts (w ++ [0])).seek rest).Inside ↔ _ := Cursor.inside_fill h
      rw [Cursor.puts_snoc, List.length_append, List.length_singleton] at hfill
      rw [Cursor.puts_seek]
      exact hfill
  | previousfile =>
    refine iff_of_true ?_ trivial
    rw [Op.exec]
    split
    · exact h
    · exact ⟨h.ordered, h.inside, h.stored⟩
  | openfile text => exact iff_of_true ⟨h.ordered, h.inside, h.stored⟩ trivial
  | expecteof =>
    refine iff_of_true ?_ trivial
    rw [Op.exec]
    split
    split
    · exact Cursor.inside_seek.mpr h
    · exact ⟨Nat.le_refl 0, Nat.zero_le 64, h.stored⟩

/-! ### The buffer as a list of characters -/

/-- What the readers see. -/
def Cursor.shows (c : Cursor) : Input := ⟨c.text, c.input, c.prev⟩

/-- A token of which a character is left. -/
theorem Cursor.text_cons {c : Cursor} (h : c.Inside) (htoken : c.istoken = true) :
    c.text = c.tokenbuf c.tokenptr :: { c with tokenptr := c.tokenptr + 1 : Cursor }.text := by
  have hne : c.tokenptr ≠ c.tokenend := of_decide_eq_true htoken
  have hle := h.ordered
  have hsize : c.tokensize = (c.tokenend - (c.tokenptr + 1)) + 1 := by
    rw [tokensize]
    omega
  rw [text, hsize, List.range'_succ]
  rfl

theorem Cursor.shows_fill (c : Cursor) (w input : Str) :
    ((c.flushtoken.puts w).seek input).shows = ⟨w, input, c.prev⟩ := by
  rw [shows, text_seek, text_puts (Nat.le_refl 0), text_flushtoken, List.nil_append]
  exact congrArg (Input.mk w input) prev_puts

/-- What both functions do before they fill the buffer. -/
theorem advance_apply (fill : Reader Unit) (s : Input) :
    (do
      if ← istoken then report
      flushtoken
      gobblewhitespace
      fill : Reader Unit) s =
      match fill ⟨[], skipWhitespace s.input, s.prev⟩ with
      | .error e => .error e
      | .ok (u, n, s') => .ok (u, (if s.token ≠ [] then 1 else 0) + n, s') := by
  have hstart : ∀ s : Input, (do
      flushtoken
      gobblewhitespace
      fill : Reader Unit) s = fill ⟨[], skipWhitespace s.input, s.prev⟩ := by
    intro s
    have hflush : Clean flushtoken s () { s with token := [] } := clean_flushtoken.mpr rfl
    have hgobble : Clean gobblewhitespace { s with token := [] } ()
        ⟨[], skipWhitespace s.input, s.prev⟩ := clean_gobblewhitespace.mpr rfl
    rw [hflush.bind_apply, hgobble.bind_apply]
  rw [(clean_istoken.mpr ⟨rfl, rfl⟩).bind_apply]
  -- a token that has not been used up is reported
  by_cases htoken : s.token = []
  · rw [if_neg (by simp [htoken]), if_neg (by simp [htoken])]
    refine (hstart s).trans ?_
    rcases fill ⟨[], skipWhitespace s.input, s.prev⟩ with e | ⟨u, n, s'⟩
    · rfl
    · simp only [Nat.zero_add]
  · rw [if_pos (by simp [htoken]), if_pos htoken, bind_apply, report]
    dsimp only
    rw [hstart]
    rcases fill ⟨[], skipWhitespace s.input, s.prev⟩ with e | ⟨u, n, s'⟩ <;> rfl

theorem advancetoken_apply (s : Input) (h : (takeToken (skipWhitespace s.input)).1.length < 64) :
    advancetoken s = .ok ((), if s.token ≠ [] then 1 else 0,
      ⟨terminated (takeToken (skipWhitespace s.input)).1, (takeToken (skipWhitespace s.input)).2,
        s.prev⟩) := by
  refine (advance_apply _ s).trans ?_
  generalize takeToken (skipWhitespace s.input) = r at h ⊢
  by_cases hr : r.1 = []
  · simp only [if_pos hr, terminated, Nat.add_zero]
  · simp only [if_neg hr, fillToken, if_pos h, terminated, Nat.add_zero]

theorem advanceeol_apply (s : Input) :
    advanceeol s =
      match takeLine (skipWhitespace s.input) with
      | none => .error .fatal
      | some (line, input) =>
        if line.length < 64 then
          .ok ((), if s.token ≠ [] then 1 else 0, ⟨line ++ [0], input, s.prev⟩)
        else .error .overrun := by
  refine (advance_apply _ s).trans ?_
  dsimp only
  cases takeLine (skipWhitespace s.input) with
  | none => rfl
  | some r =>
    by_cases hr : r.1.length < 64
    · simp only [fillToken, if_pos hr, Nat.add_zero]
    · simp only [fillToken, if_neg hr]

/-- As long as what is ahead fits, the functions do on the buffer what they do on a list of
characters. -/
theorem exec_agrees (β : Type) (o : Op β) (c : Cursor) (h : c.Inside) (fits : Op.Fits β o c) :
    Work.Agrees Op.exec Op.reader Cursor.shows o c := by
  have htoken : c.istoken = true ↔ c.shows.token ≠ [] := Cursor.istoken_iff h.ordered
  have hreports : (if c.shows.token ≠ [] then 1 else 0) = if c.istoken then 1 else 0 :=
    if_congr htoken.symm rfl rfl
  rw [Work.Agrees]
  cases o with
  | istoken =>
    have hbool : decide (c.shows.token ≠ []) = c.istoken := by
      rw [Bool.eq_iff_iff, decide_eq_true_iff, htoken]
    exact congrArg (fun b => Except.ok (b, 0, c.shows)) hbool
  | tokenText | flushtoken | openFiles | report | openfile => rfl
  | gobblewhitespace =>
    rw [Op.reader, gobblewhitespace, Op.exec, Cursor.gobblewhitespace]
    by_cases ht : c.istoken = true
    · rw [if_pos (htoken.mp ht), if_pos ht]
    · rw [if_neg (mt htoken.mpr ht), if_neg ht]
      rfl
  | gobbleblanklines =>
    rw [Op.reader, gobbleblanklines, Op.exec]
    by_cases ht : c.istoken = true
    · rw [if_pos (htoken.mp ht), if_pos ht]
    · rw [if_neg (mt htoken.mpr ht), if_neg ht, show c.shows.input = c.input from rfl]
      cases skipBlankLines (c.input.length + 1) c.input <;> rfl
  | nextchar =>
    rw [Op.reader, nextchar, Op.exec]
    by_cases ht : c.istoken = true
    · rw [show c.shows.token = _ from Cursor.text_cons h ht, if_pos ht]
      rfl
    · rw [show c.shows.token = [] from not_not.mp (mt htoken.mpr ht), if_neg ht]
      dsimp only
      rw [show c.shows.input = c.input from rfl]
      rcases getc c.input with ⟨_ | b, input⟩ <;> rfl
  | skipline =>
    have hflush : Clean flushtoken c.shows () { c.shows with token := [] } :=
      clean_flushtoken.mpr rfl
    refine hflush.bind_apply.trans ?_
    rw [Op.exec, show c.shows.input = c.input from rfl]
    cases skipLine c.input <;> rfl
  | advancetoken =>
    rw [Op.reader, advancetoken_apply c.shows fits, hreports, Op.exec, Cursor.advancetoken_eq]
    dsimp only
    rw [Cursor.shows_fill]
    rfl
  | advanceeol =>
    have hstart : c.flushtoken.gobblewhitespace = c.flushtoken.seek (skipWhitespace c.input) := rfl
    have hinput : (c.flushtoken.seek (skipWhitespace c.input)).input = skipWhitespace c.input := rfl
    rw [Op.reader, advanceeol_apply, hreports, Op.exec, hstart, Cursor.lineLoop_eq, hinput,
      show c.shows.input = c.input from rfl]
    rw [Op.Fits] at fits
    cases hline : takeLine (skipWhitespace c.input) with
    | none => rfl
    | some r =>
      obtain ⟨w, rest⟩ := r
      rw [hline] at fits
      dsimp only
      rw [if_pos fits, Cursor.puts_seek]
      have hshows := Cursor.shows_fill c (w ++ [0]) rest
      rw [Cursor.puts_snoc] at hshows
      exact congrArg (fun s => Except.ok ((), if c.istoken = true then 1 else 0, s)) hshows.symm
  | previousfile =>
    rw [Op.reader, previousfile, Op.exec, show c.shows.prev = c.prev from rfl]
    cases c.prev <;> rfl
  | expecteof =>
    rw [Op.reader, expecteof, Op.exec, show c.shows.input = c.input from rfl,
      show c.shows.prev = c.prev from rfl]
    by_cases ht : c.istoken = true
    · have hne := htoken.mp ht
      simp only [ht, if_true, hne, false_and, Bool.true_eq_false, if_false]
      rfl
    · have hnil : c.shows.token = [] := not_not.mp (mt htoken.mpr ht)
      have hfalse : c.istoken = false := Bool.eq_false_of_not_eq_true ht
      simp only [hnil, hfalse, if_true, Bool.false_eq_true, if_false, true_and]
      by_cases hend : (getc c.input).1 = none ∧ c.prev = []
      · simp only [if_pos hend]
        change _ = Except.ok ((), 0, (⟨c.shows.token, _, _⟩ : Input))
        rw [hnil]
        rfl
      · simp only [if_neg hend]
        rfl

/-! ### Reading a file -/

/-- `readfile` with the text of the root, which is open and of which nothing is read yet. -/
def reading (files : Str → Option Str) (text : Str) (fuel : ℕ) : Work Op Stop Cursor Course :=
  ⟨Parser.readroot files fuel, ⟨fun _ => 0, 0, 0, [], text, []⟩, 0⟩

/-- A state of the run. -/
abbrev Visits (files : Str → Option Str) (text : Str) (fuel : ℕ) (w : Work Op Stop Cursor Course) :
    Prop :=
  Work.Reaches Op.exec (reading files text fuel) w

variable {files : Str → Option Str} {text : Str} {fuel : ℕ}

theorem reading_inside : (reading files text fuel).state.Inside :=
  ⟨Nat.le_refl 0, Nat.zero_le 64, nofun⟩

/-- The run ends, and if everything that is read into the buffer fits, with what the readers
deliver. -/
theorem visits_readroot (fits : ∀ w, Visits files text fuel w → w.Fits Op.Fits) :
    ∃ w, Visits files text fuel w ∧ w.Ended ∧
      w.result Op.reader Cursor.shows = readroot files fuel ⟨[], text, []⟩ := by
  obtain ⟨w, hreach, hended⟩ : ∃ w, Visits files text fuel w ∧ w.Ended :=
    Work.exists_ended (reading files text fuel).script (reading files text fuel).state 0
  refine ⟨w, hreach, hended, ?_⟩
  -- what is delivered in the end is what the script means at its start
  rw [Work.Reaches.result_eq hreach exec_inside exec_agrees reading_inside fits]
  have hreader : (reading files text fuel).script.interp Op.reader = readroot files fuel :=
    Parser.reader_readroot fuel
  rw [Work.result, hreader]
  change (readroot files fuel ⟨[], text, []⟩).map _ = _
  rcases readroot files fuel ⟨[], text, []⟩ with e | ⟨c, n, s⟩
  · rfl
  · exact congrArg (fun n => Except.ok (c, n, s)) (Nat.zero_add n)

/-- While a file is read, the pointers are in order and inside the buffer, so is every character
that is stored, and what is too long is reported, exactly if every token and every line that is
read into the buffer fits. -/
theorem tokenbuf_inside_iff (files : Str → Option Str) (text : Str) (fuel : ℕ) :
    (∀ w, Visits files text fuel w →
      w.state.Inside ∧ (¬ w.Fits Op.Fits → w.Reports Op.exec)) ↔
        ∀ w, Visits files text fuel w → w.Fits Op.Fits := by
  have hiff : (∀ w, Visits files text fuel w → w.state.Inside) ↔ _ :=
    Work.invariant_iff_fits exec_inside reading_inside
  constructor
  · exact fun h => hiff.mp fun w hvisits => (h w hvisits).1
  · exact fun h w hvisits => ⟨hiff.mpr h w hvisits, fun hlong => absurd (h w hvisits) hlong⟩

/-- A token of 64 characters at the start of a file: its null byte is stored behind the buffer. -/
theorem long_token_overruns : ¬ ∀ w, Visits (fun _ => none) (List.replicate 64 65) 1 w →
    w.state.Inside ∧ (¬ w.Fits Op.Fits → w.Reports Op.exec) := by
  intro h
  have hinside := (h _ (Work.reaches_advance 3 _)).1
  have hstored : 64 ∈ (Work.advance Op.exec 3
      (reading (fun _ => none) (List.replicate 64 65) 1)).state.stored := by decide_cbv
  exact absurd (hinside.stored 64 hstored) (by decide)

end CLanguage.Gradebook
