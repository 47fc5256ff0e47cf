import CLanguage.Imprimer.Prompt

/-!
# Command files

`-i` is meant to do what typing the lines of the file would do. The two loops agree up to
the first `cancel`, `pause`, `resume`, `disable` or `enable`: these five leave the loop
over the file, so the line and what follows it are dropped. That the loop over a file has
no dispatch makes no difference before such a line, because no printer is enabled yet.
-/

namespace CLanguage.Imprimer

open CLanguage.Lib

variable {s s' : Tables} {flow : Flow} {input : Str} {lines rest : List Str} {c : Command}

/-! ### Lines of a file -/

/-- What `fgets` reads into a buffer of 100 characters, up to the end of the file: `room` characters
fit behind those read so far, `line` in reverse order. The newline is overwritten. -/
def fgets (room : ℕ) (line : Str) : Str → List Str
  | [] => if line = [] then [] else [line.reverse]
  | ch :: text =>
    if ch = '\n' then line.reverse :: fgets 99 [] text
    else if room = 1 then (ch :: line).reverse :: fgets 99 [] text
    else fgets (room - 1) (ch :: line) text

/-- The lines of a text. The last one may lack its newline. -/
def textLines : Str → List Str
  | [] => []
  | ch :: text =>
    if ch = '\n' then [] :: textLines text
    else match textLines text with
      | [] => [[ch]]
      | line :: lines => (ch :: line) :: lines

/-- Put in front of the first line of a text. -/
def prepend (line : Str) : List Str → List Str
  | [] => if line = [] then [] else [line]
  | first :: lines => (line ++ first) :: lines

theorem textLines_cons {ch : Char} {text : Str} (h : ch ≠ '\n') :
    textLines (ch :: text) = prepend [ch] (textLines text) := by
  rw [textLines, if_neg h]
  cases textLines text with
  | nil => rfl
  | cons first lines => rfl

theorem prepend_prepend {ch : Char} (line : Str) (lines : List Str) :
    prepend line (prepend [ch] lines) = prepend (line ++ [ch]) lines := by
  cases lines with
  | nil =>
    have hne : line ++ [ch] ≠ [] := List.append_ne_nil_of_right_ne_nil line nofun
    simp only [prepend, if_neg hne]
    rfl
  | cons first lines => simp only [prepend, List.append_assoc]

/-- Lines that are short are read one at a time. -/
theorem fgets_eq (text : Str) (room : ℕ) (line : Str)
    (short : ∀ l ∈ prepend line.reverse (textLines text), l.length < 99)
    (hroom : room + line.length = 99) :
    fgets room line text = prepend line.reverse (textLines text) := by
  induction text generalizing room line with
  | nil =>
    rw [fgets, textLines, prepend]
    simp only [List.reverse_eq_nil_iff]
  | cons ch text ih =>
    rw [fgets]
    by_cases hch : ch = '\n'
    · rw [if_pos hch]
      rw [textLines, if_pos hch, prepend, List.append_nil] at short ⊢
      rw [ih 99 [] (fun l hl => short l (List.mem_cons_of_mem _ ?_)) rfl]
      · cases textLines text with
        | nil => rfl
        | cons first lines => rfl
      · revert hl
        cases textLines text with
        | nil => exact id
        | cons first lines => exact id
    · rw [textLines_cons hch, prepend_prepend] at short ⊢
      rw [if_neg hch]
      -- the line ends behind this character at the earliest, so it has more than one place left
      have hlong : (line.reverse ++ [ch]).length < 99 := by
        cases htext : textLines text with
        | nil =>
          rw [htext, prepend] at short
          refine short _ ?_
          rw [if_neg (List.append_ne_nil_of_right_ne_nil _ (List.cons_ne_nil ch []))]
          exact List.mem_singleton_self _
        | cons first lines =>
          rw [htext, prepend] at short
          have := short _ List.mem_cons_self
          rw [List.length_append] at this
          omega
      rw [List.length_append, List.length_reverse, List.length_singleton] at hlong
      rw [if_neg (by omega)]
      have hreverse : line.reverse ++ [ch] = (ch :: line).reverse := List.reverse_cons.symm
      rw [hreverse] at short ⊢
      exact ih (room - 1) (ch :: line) short (by rw [List.length_cons]; omega)

/-! ### The first line that is dropped -/

/-- The line leaves the loop over a command file without being executed. -/
def Interrupts (input : Str) : Prop := ∃ c, lineCommand input = some c ∧ c.Interrupts

theorem interrupts_iff : Interrupts input ↔ (lineCommand input).any (decide ·.Interrupts) = true := by
  rw [Option.any_eq_true]
  simp only [Interrupts, decide_eq_true_eq]

instance : DecidablePred Interrupts := fun _ => decidable_of_iff' _ interrupts_iff

/-- The line ends the program. -/
def Quits (input : Str) : Prop := lineCommand input = some .quit

/-- In front of every line that interrupts the file there is a `quit`, or the program fails. -/
def Uninterrupted (s : Tables) (lines : List Str) : Prop :=
  ∀ before input after, lines = before ++ input :: after → Interrupts input →
    (∃ q ∈ before, Quits q) ∨ ∃ fault, s.typeLines before = .error fault

/-- A line that both loops go on from can be taken off. -/
theorem uninterrupted_cons (stays : ¬ Interrupts input) (hquit : ¬ Quits input)
    (hstep : ∀ lines, s.typeLines (input :: lines) = s'.typeLines lines) :
    Uninterrupted s (input :: lines) ↔ Uninterrupted s' lines := by
  constructor
  · intro h before l after hlines hl
    obtain ⟨q, hq, hquits⟩ | ⟨fault, hfault⟩ := h (input :: before) l after
      (congrArg (input :: ·) hlines) hl
    · obtain rfl | hq := List.mem_cons.mp hq
      · exact absurd hquits hquit
      · exact .inl ⟨q, hq, hquits⟩
    · exact .inr ⟨fault, (hstep before).symm.trans hfault⟩
  · intro h before l after hlines hl
    cases before with
    | nil =>
      obtain ⟨rfl, -⟩ := List.cons.inj hlines
      exact absurd hl stays
    | cons q before =>
      obtain ⟨rfl, htail⟩ := List.cons.inj hlines
      obtain ⟨q, hq, hquits⟩ | ⟨fault, hfault⟩ := h before l after htail hl
      · exact .inl ⟨q, List.mem_cons_of_mem _ hq, hquits⟩
      · exact .inr ⟨fault, (hstep before).trans hfault⟩

/-- Nothing is reached behind a `quit` or a fault. -/
theorem uninterrupted_of_stop (stays : ¬ Interrupts input)
    (stop : Quits input ∨ ∃ fault, ∀ lines, s.typeLines (input :: lines) = .error fault) :
    Uninterrupted s (input :: lines) := by
  intro before l after hlines hl
  cases before with
  | nil =>
    obtain ⟨rfl, -⟩ := List.cons.inj hlines
    exact absurd hl stays
  | cons q before =>
    obtain ⟨rfl, -⟩ := List.cons.inj hlines
    obtain hquits | ⟨fault, hfault⟩ := stop
    · exact .inl ⟨_, List.mem_cons_self, hquits⟩
    · exact .inr ⟨fault, hfault before⟩

/-! ### The dispatch before the first `enable` -/

theorem foldl_eq_of_forall_eq {α β : Type} {f : β → α → β} {b : β} (as : List α)
    (h : ∀ a, f b a = b) : as.foldl f b = b := by
  induction as with
  | nil => rfl
  | cons a as ih => rwa [List.foldl_cons, h a]

/-- Without enabled printers the dispatch does nothing. -/
theorem dispatch_of_disabled (disabled : ∀ p ∈ s.printers, p.enabled = false) :
    s.dispatch = s := by
  refine foldl_eq_of_forall_eq _ fun i => ?_
  obtain ⟨h, -⟩ | ⟨j, k, p, -, hp, htakes, -⟩ := dispatchJob_cases s i
  · exact h
  · exact absurd htakes (Printer.not_takes_of_disabled (disabled p (List.mem_of_getElem? hp)))

/-- The two loops agree on the lines that are not interrupted, and on no others. -/
theorem readLines_eq_iff (disabled : ∀ p ∈ s.printers, p.enabled = false) :
    s.readLines lines = (s.typeLines lines).map (·, []) ↔ Uninterrupted s lines := by
  induction lines generalizing s with
  | nil => exact ⟨fun _ before _ _ h => absurd h.symm (by simp), fun _ => rfl⟩
  | cons input lines ih =>
    obtain ⟨hquit, hfile⟩ | ⟨c, hc, hinterrupts, hfile⟩ | ⟨hsame, hcommand, hdeclares⟩ :=
      fileLine_cases s input
    · -- a `quit` ends both loops
      have hstays : ¬ Interrupts input := by
        rintro ⟨c, hc, hinterrupts⟩
        cases hquit.symm.trans hc
        exact not_false hinterrupts
      have htyped : s.line Tables.command input = .ok (s, .break) :=
        line_eq_of_some Tables.command hquit
      refine ⟨fun _ => uninterrupted_of_stop hstays (.inl hquit), fun _ => ?_⟩
      rw [Tables.readLines, Tables.typeLines, hfile, htyped]
      rfl
    · -- the file is left here, with this line
      refine ⟨fun h => ?_, fun h => ?_⟩
      · have hread : s.readLines (input :: lines) = .ok (s, input :: lines) := by
          rw [Tables.readLines, hfile]
          rfl
        rw [hread] at h
        cases htyped : s.typeLines (input :: lines) with
        | error fault =>
          rw [htyped] at h
          exact absurd h nofun
        | ok t =>
          rw [htyped] at h
          exact absurd (Prod.mk.inj (Except.ok.inj h)).2 (List.cons_ne_nil _ _)
      · obtain ⟨q, hq, -⟩ | ⟨fault, hfault⟩ := h [] input lines rfl ⟨c, hc, hinterrupts⟩
        · exact absurd hq List.not_mem_nil
        · exact absurd hfault nofun
    have hstays : ¬ Interrupts input := fun ⟨c, hc, hinterrupts⟩ => (hcommand c hc).1 hinterrupts
    have hnotQuit : ¬ Quits input := fun hquit => (hcommand _ hquit).2 rfl
    cases hline : s.line Tables.command input with
    | error fault =>
      -- both loops fail here
      have hfail : ∀ lines, s.typeLines (input :: lines) = .error fault := by
        intro lines
        rw [Tables.typeLines, hline]
        rfl
      refine ⟨fun _ => uninterrupted_of_stop hstays (.inr ⟨fault, hfail⟩), fun _ => ?_⟩
      rw [hfail, Tables.readLines, hsame, hline]
      rfl
    | ok result =>
      obtain ⟨t, flow⟩ := result
      have hdeclares := hdeclares t flow (hsame.trans hline)
      have hdisabled := hdeclares.disabled disabled
      have hread : s.readLines (input :: lines) = t.readLines lines := by
        rw [Tables.readLines, hsame, hline]
        obtain rfl | rfl := hdeclares.flow_eq
        · rfl
        · rfl
      have htype : ∀ lines, s.typeLines (input :: lines) = t.typeLines lines := by
        intro lines
        rw [Tables.typeLines, hline]
        obtain rfl | rfl := hdeclares.flow_eq
        · exact congrArg (Tables.typeLines · lines) (dispatch_of_disabled hdisabled)
        · rfl
      rw [hread, htype, uninterrupted_cons hstays hnotQuit htype]
      exact ih hdisabled

/-! ### Command files -/

/-- In front of every line that interrupts the file there is a `quit`. -/
def QuitsFirst (lines : List Str) : Prop :=
  ∀ before input after, lines = before ++ input :: after → Interrupts input →
    ∃ q ∈ before, Quits q

/-- Undefined behaviour stays undefined when more is typed. -/
theorem typeLines_append_error {fault : Fault} (h : s.typeLines lines = .error fault) :
    s.typeLines (lines ++ rest) = .error fault := by
  induction lines generalizing s with
  | nil => exact absurd h nofun
  | cons input lines ih =>
    rw [List.cons_append, Tables.typeLines]
    rw [Tables.typeLines] at h
    cases hline : s.line Tables.command input with
    | error fault' =>
      rw [hline] at h
      exact h
    | ok result =>
      obtain ⟨t, flow⟩ := result
      rw [hline] at h
      cases flow with
      | fallThrough | «continue» => exact ih h
      | «break» | exit => exact absurd h nofun

theorem Uninterrupted.quitsFirst (h : Uninterrupted s lines) :
    QuitsFirst lines ∨ ∃ fault, s.typeLines lines = .error fault := by
  by_cases hfault : ∃ fault, s.typeLines lines = .error fault
  · exact .inr hfault
  refine .inl fun before input after hlines hinterrupts => ?_
  refine (h before input after hlines hinterrupts).resolve_right ?_
  rintro ⟨fault, hbefore⟩
  refine hfault ⟨fault, ?_⟩
  rw [hlines]
  exact typeLines_append_error hbefore

/-- A command file whose lines are shorter than 99 characters leaves the tables that its lines leave
when they are typed, with no line dropped, if there is a `quit` in front of every `cancel`,
`pause`, `resume`, `disable` and `enable` in it. Only files with undefined behaviour do so
otherwise. -/
theorem command_file_agrees (text : Str) (short : ∀ l ∈ textLines text, l.length < 99) :
    (QuitsFirst (textLines text) →
      Tables.initial.readLines (fgets 99 [] text) =
        (Tables.initial.typeLines (textLines text)).map (·, [])) ∧
    (Tables.initial.readLines (fgets 99 [] text) =
        (Tables.initial.typeLines (textLines text)).map (·, []) →
      QuitsFirst (textLines text) ∨
        ∃ fault, Tables.initial.typeLines (textLines text) = .error fault) := by
  have hlines : prepend [] (textLines text) = textLines text := by
    cases textLines text with
    | nil => rfl
    | cons first lines => rfl
  have hread : fgets 99 [] text = textLines text := by
    rw [fgets_eq text 99 [] (by rwa [List.reverse_nil, hlines]) rfl, List.reverse_nil, hlines]
  have hstart : ∀ p ∈ Tables.initial.printers, p.enabled = false := List.forall_mem_nil _
  rw [hread]
  refine ⟨fun h => (readLines_eq_iff hstart).mpr ?_, fun h => ?_⟩
  · exact fun before input after hsplit hinterrupts => .inl (h before input after hsplit hinterrupts)
  · exact ((readLines_eq_iff hstart).mp h).quitsFirst

/-- The lines of a file that declares a printer and prints on it. -/
def declarations : Str := "type ps\nprinter alice ps\nprint a.ps alice\n".toList

theorem quitsFirst_of_forall (h : ∀ input ∈ lines, ¬ Interrupts input) : QuitsFirst lines := by
  rintro before input after rfl hinterrupts
  exact absurd hinterrupts (h input (List.mem_append_right _ List.mem_cons_self))

theorem command_file_agrees_example :
    Tables.initial.readLines (fgets 99 [] declarations) =
      (Tables.initial.typeLines (textLines declarations)).map (·, []) :=
  (command_file_agrees declarations (by decide +kernel)).1
    (quitsFirst_of_forall (by decide +kernel))

/-- The last line is dropped: alice stays disabled. -/
theorem enable_is_dropped :
    (∀ l ∈ textLines "type ps\nprinter alice ps\nenable alice\n".toList, l.length < 99) ∧
    Tables.initial.readLines (fgets 99 [] "type ps\nprinter alice ps\nenable alice\n".toList) ≠
      (Tables.initial.typeLines
        (textLines "type ps\nprinter alice ps\nenable alice\n".toList)).map (·, []) := by
  refine ⟨by decide +kernel, fun h => ?_⟩
  have hprinters := congrArg (fun r => r.toOption.map fun t => t.1.printers) h
  revert hprinters
  decide +kernel

end CLanguage.Imprimer
