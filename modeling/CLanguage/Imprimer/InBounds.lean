import CLanguage.Imprimer.Accesses
import CLanguage.Imprimer.Matching
import Mathlib.Order.Basic

/-!
# Runs that stay inside the arrays

`Machine.Fits` are conditions on a step: there is room for what the command stores, its
line has at most 40 words and its file name between one and ten parts, and a job is
dispatched only at a place at which there is a printer, too. In every run the accesses
are inside the arrays, and to entries that have been stored, exactly if its steps meet
these conditions (`inBounds_iff_fits`).
-/

namespace CLanguage.Imprimer

open CLanguage.Lib

variable {s s' : Tables} {flow : Flow} {c : Command} {m m' : Machine} {e : Event}
  {as bs : List Access} {a : Access} {b : Buffer} {i n h word : ℕ} {body : ℕ → List Access}
  {stop : ℕ → Bool} {input : Str} {lines rest : List Str}

/-! ### Conditions -/

/-- The command stays inside the arrays. -/
def Command.Fits (s : Tables) : Command → Prop
  | .type t => t ∈ s.types ∨ s.types.length < 100
  | .printer name t =>
    s.printers.any (·.name = name) ∨ t ∉ s.types ∨ s.printers.length < maxPrinters
  | .conversion src dest program =>
    s.Conversed src dest program ∨ s.conversions.length < 100
  | .print file names => (∀ name ∈ names, name ∈ s.printers.map Printer.name) →
    (strtok '.' file).length ≤ 10 ∧ (s.types ≠ [] → strtok '.' file ≠ []) ∧
      ((∃ type ∈ s.types, (strtok '.' file).getLast? = some type) → s.jobs.length < maxJobs)
  | .cancel name =>
    (∃ j ∈ s.jobs, j.fileName = name ∧ j.status = .queued) → s.jobs.length < maxJobs
  | _ => True

/-- The step stays inside the arrays. -/
def Machine.Fits (m : Machine) : Event → Prop
  | .line input => m.control = .prompt → (strtok ' ' input).length ≤ 40 ∧
    ∀ cmd words, strtok ' ' input = cmd :: words → (Command.ofWords cmd words).Fits m.tables
  | .dispatchJob => ∀ i, m.control = .scan i → ∀ j ∈ m.tables.jobs[i]?,
    (∃ p ∈ m.tables.printers, p.Takes j) → i < m.tables.printers.length
  | .endDispatch => True

/-- `P` holds of every step of a run. -/
def Along (P : Machine → Event → Prop) (start : Machine) (events : List Event) : Prop :=
  ∀ done e rest m, events = done ++ e :: rest → Run Step start done m → P m e

/-- All the accesses are inside the arrays, and entries that are read have been stored. -/
def InBounds (as : List Access) : Prop := ∀ a ∈ as, a.Ok

@[simp] theorem inBounds_nil : InBounds [] := List.forall_mem_nil _

@[simp] theorem inBounds_cons : InBounds (a :: as) ↔ a.Ok ∧ InBounds as := List.forall_mem_cons

@[simp] theorem inBounds_append : InBounds (as ++ bs) ↔ InBounds as ∧ InBounds bs :=
  List.forall_mem_append

@[simp] theorem ok_read {i : ℤ} :
    (Access.read b n i).Ok ↔ 0 ≤ i ∧ i < b.size ∧ i < n := by
  simp [Access.Ok, Access.read]

@[simp] theorem ok_put : (Access.put b n i).Ok ↔ i < b.size := by
  simp [Access.Ok, Access.put]

theorem inBounds_fill : InBounds (fill b n) ↔ n ≤ b.size := by
  simp only [InBounds, fill, List.forall_mem_map, List.mem_range, ok_put]
  constructor
  · intro h
    by_contra hlt
    exact Nat.lt_irrefl _ (h b.size (Nat.lt_of_not_le hlt))
  · exact fun h i hi => Nat.lt_of_lt_of_le hi h

/-! ### Loops -/

theorem inBounds_rounds (h : ∀ k, i ≤ k → k < i + n → InBounds (body k)) :
    InBounds (rounds body stop i n) := by
  induction n generalizing i with
  | zero => exact inBounds_nil
  | succ n ih =>
    rw [rounds, inBounds_append]
    refine ⟨h i (Nat.le_refl i) (by omega), ?_⟩
    split
    · exact inBounds_nil
    · exact ih fun k hk hk' => h k (by omega) (by omega)

theorem mem_rounds_first (hn : 0 < n) (ha : a ∈ body i) : a ∈ rounds body stop i n := by
  cases n with
  | zero => exact absurd hn (Nat.lt_irrefl 0)
  | succ n => exact List.mem_append_left _ ha

/-- The last round is run. -/
theorem exists_last_round (h : ∃ k, i ≤ k ∧ k < i + n ∧ stop k = true) :
    ∃ k, stop k = true ∧ body k ⊆ rounds body stop i n := by
  induction n generalizing i with
  | zero =>
    obtain ⟨k, hk, hk', -⟩ := h
    omega
  | succ n ih =>
    by_cases hi : stop i = true
    · exact ⟨i, hi, List.subset_append_left _ _⟩
    · obtain ⟨k, hk, hk', hstop⟩ := h
      have hne : k ≠ i := fun heq => hi (heq ▸ hstop)
      obtain ⟨l, hl, hsub⟩ := @ih (i + 1) ⟨k, by omega, by omega, hstop⟩
      refine ⟨l, hl, fun a ha => ?_⟩
      rw [rounds, if_neg hi]
      exact List.mem_append_right _ (hsub ha)

/-! ### Tables -/

/-- No table is larger than its array. -/
structure Sized (s : Tables) : Prop where
  types : s.types.length ≤ 100
  conversions : s.conversions.length ≤ 100
  printers : s.printers.length ≤ maxPrinters
  jobs : s.jobs.length ≤ maxJobs

theorem sized_initial : Sized .initial := ⟨by decide, by decide, by decide, by decide⟩

theorem length_concat_le {α : Type} {table : List α} {a : α} {size : ℕ}
    (h : table.length < size) : (table ++ [a]).length ≤ size := by
  rw [List.length_append]
  exact h

section Commands

variable (sized : Sized s)

include sized

theorem Sized.type {t : Str} (hrun : s.type t = .ok (s', flow)) : Sized s' := by
  rw [Tables.type] at hrun
  split at hrun
  · cases hrun
    exact sized
  · obtain ⟨t', -, hrun⟩ := bind_eq_ok hrun
    obtain ⟨types, hpush, hrun⟩ := bind_eq_ok hrun
    obtain ⟨hroom, rfl⟩ := push_eq_ok.mp hpush
    cases hrun
    exact { sized with types := length_concat_le hroom }

theorem Sized.printer {name t : Str} (hrun : s.printer name t = .ok (s', flow)) : Sized s' := by
  rw [Tables.printer] at hrun
  split at hrun
  · cases hrun
    exact sized
  split at hrun
  · cases hrun
    exact sized
  -- the printer too many has no place
  obtain ⟨name', -, hrun⟩ := bind_eq_ok hrun
  obtain ⟨t', -, hrun⟩ := bind_eq_ok hrun
  obtain ⟨printers, hpush, hrun⟩ := bind_eq_ok hrun
  obtain ⟨hroom, rfl⟩ := push_eq_ok.mp hpush
  cases hrun
  exact { sized with printers := length_concat_le hroom }

theorem Sized.conversion {src dest : Str} {program : List Str}
    (hrun : s.conversion src dest program = .ok (s', flow)) : Sized s' := by
  obtain ⟨name, -, hrun⟩ := bind_eq_ok hrun
  split at hrun
  · cases hrun
    exact sized
  · obtain ⟨name', -, hrun⟩ := bind_eq_ok hrun
    obtain ⟨src', -, hrun⟩ := bind_eq_ok hrun
    obtain ⟨dest', -, hrun⟩ := bind_eq_ok hrun
    obtain ⟨conversions, hpush, hrun⟩ := bind_eq_ok hrun
    obtain ⟨hroom, rfl⟩ := push_eq_ok.mp hpush
    cases hrun
    exact { sized with conversions := length_concat_le hroom }

theorem Sized.print {file : Str} {names : List Str}
    (hrun : s.print file names = .ok (s', flow)) : Sized s' := by
  obtain ⟨eligible, -, hrun⟩ := bind_eq_ok hrun
  cases eligible with
  | none =>
    cases hrun
    exact sized
  | some eligible =>
    obtain ⟨fileName, -, hrun⟩ := bind_eq_ok hrun
    obtain ⟨type, -, hrun⟩ := bind_eq_ok hrun
    split at hrun
    · obtain ⟨jobs, hpush, hrun⟩ := bind_eq_ok hrun
      obtain ⟨hroom, rfl⟩ := push_eq_ok.mp hpush
      cases hrun
      exact { sized with jobs := length_concat_le hroom }
    · cases hrun
      exact sized

theorem Sized.cancel {name : Str} (hrun : s.cancel name = .ok (s', flow)) : Sized s' := by
  rw [Tables.cancel] at hrun
  split at hrun
  · cases hrun
  · cases hrun
    exact { sized with jobs := (List.length_map _).trans_le sized.jobs }

/-- The commands store nothing behind a table. -/
theorem Sized.command (hrun : s.command c = .ok (s', flow)) : Sized s' := by
  cases c with
  | help | quit | printers | jobs | pause | resume | invalid =>
    cases hrun
    exact sized
  | type t => exact sized.type hrun
  | printer name t => exact sized.printer hrun
  | conversion src dest program => exact sized.conversion hrun
  | print file names => exact sized.print hrun
  | cancel name => exact sized.cancel hrun
  | disable name | enable name =>
    cases hrun
    exact { sized with printers := (length_setEnabled _ name s.printers).trans_le sized.printers }

end Commands

theorem Sized.line (sized : Sized s) (hrun : s.line Tables.command input = .ok (s', flow)) :
    Sized s' := by
  cases hc : lineCommand input with
  | none =>
    obtain ⟨r, hr | hr, hline⟩ := line_eq_of_none (s := s) hc
    · cases (hr.symm.trans (hline _).symm).trans hrun
      exact sized
    · exact absurd ((hr.symm.trans (hline _).symm).trans hrun) nofun
  | some c =>
    rw [line_eq_of_some Tables.command hc] at hrun
    exact sized.command hrun

theorem Sized.readLines (sized : Sized s) (hrun : s.readLines lines = .ok (s', rest)) :
    Sized s' := by
  induction lines generalizing s with
  | nil =>
    cases hrun
    exact sized
  | cons input lines ih =>
    obtain ⟨⟨t, flow⟩, hline, hrun⟩ := bind_eq_ok hrun
    obtain ⟨-, hquit⟩ | ⟨c, -, -, hleave⟩ | ⟨hsame, -, hdeclares⟩ := fileLine_cases s input
    · cases hquit.symm.trans hline
      cases hrun
      exact sized
    · cases hleave.symm.trans hline
      cases hrun
      exact sized
    · have ht := sized.line (hsame.symm.trans hline)
      obtain rfl | rfl := (hdeclares t flow hline).flow_eq
      · exact ih ht hrun
      · exact ih ht hrun

theorem Sized.started (h : Started s) : Sized s := by
  obtain ⟨lines, rest, hrun⟩ := h
  exact sized_initial.readLines hrun

theorem Sized.dispatchJob (sized : Sized s) (i : ℕ) : Sized (s.dispatchJob i) := by
  obtain ⟨h, -⟩ | ⟨j, k, p, -, -, -, h⟩ := dispatchJob_cases s i
  · rw [h]
    exact sized
  · rw [h]
    exact ⟨sized.types, sized.conversions, (List.length_modify ..).trans_le sized.printers,
      (List.length_set ..).trans_le sized.jobs⟩

theorem Sized.step (sized : Sized m.tables) (h : Step m e m') : Sized m'.tables := by
  cases h with
  | line h => exact sized.line h
  | dispatchJob h => exact sized.dispatchJob _
  | endDispatch h => exact sized

/-! ### Searches -/

theorem findType_inBounds (sized : Sized s) (t : Str) (hword : word < h) (hwords : h ≤ 40) :
    InBounds (s.findType t h word) := by
  refine inBounds_rounds fun k _ hk => ?_
  have := sized.types
  simp only [inBounds_cons, ok_read, Buffer.size, inBounds_nil, and_true]
  omega

theorem findPrinter_inBounds (sized : Sized s) (name : Str) (hword : word < h) (hwords : h ≤ 40) :
    InBounds (s.findPrinter name h word) := by
  refine inBounds_rounds fun k _ hk => ?_
  have := sized.printers
  simp only [inBounds_cons, ok_read, Buffer.size, inBounds_nil, and_true]
  omega

/-- The word at place 3, which is read only if it is the last one. -/
theorem inBounds_program : InBounds (if h = 4 then [.read .array h 3] else []) := by
  split
  · simp only [inBounds_cons, ok_read, Buffer.size, inBounds_nil, and_true]
    omega
  · exact inBounds_nil

theorem findConversion_inBounds (sized : Sized s) (src dest : Str) (program : List Str)
    (hwords : 3 + program.length ≤ 40) : InBounds (s.findConversion src dest program) := by
  refine inBounds_rounds fun k _ hk => ?_
  have := sized.conversions
  rw [inBounds_append, inBounds_append]
  refine ⟨⟨?_, inBounds_program⟩, ?_⟩
  · simp only [inBounds_cons, ok_read, Buffer.size, inBounds_nil, and_true]
    omega
  split
  · exact inBounds_nil
  rw [inBounds_append]
  constructor
  · simp only [inBounds_cons, ok_read, Buffer.size, inBounds_nil, and_true]
    omega
  · split
    · simp only [inBounds_cons, ok_read, Buffer.size, inBounds_nil, and_true]
      omega
    · exact inBounds_nil

/-! ### Commands -/

theorem typeAccesses_iff (sized : Sized s) (t : Str) :
    InBounds (s.typeAccesses t) ↔ (Command.type t).Fits s := by
  have hfind : InBounds (s.findType t 2 1) := findType_inBounds sized t (by decide) (by decide)
  rw [Tables.typeAccesses, inBounds_append, and_iff_right hfind, Command.Fits]
  split
  · next ht => simp [ht]
  · next ht =>
    simp only [inBounds_cons, ok_read, ok_put, Buffer.size, inBounds_nil, and_true, ht, false_or]
    omega

theorem printerAccesses_iff (sized : Sized s) (name t : Str) :
    InBounds (s.printerAccesses name t) ↔ (Command.printer name t).Fits s := by
  have hfind : InBounds (s.findPrinter name 3 1) :=
    findPrinter_inBounds sized name (by decide) (by decide)
  have htype : InBounds (s.findType t 3 2) := findType_inBounds sized t (by decide) (by decide)
  rw [Tables.printerAccesses, inBounds_append, and_iff_right hfind, Command.Fits]
  split
  · next hname => simp [hname]
  rw [inBounds_append, and_iff_right htype]
  split
  · next ht => simp [ht]
  · next hname ht =>
    simp only [inBounds_cons, ok_read, ok_put, Buffer.size, inBounds_nil, and_true, hname, ht,
      false_or, Bool.false_eq_true]
    omega

theorem conversionAccesses_iff (sized : Sized s) (src dest : Str) (program : List Str)
    (hwords : 3 + program.length ≤ 40) : InBounds (s.conversionAccesses src dest program) ↔
      (Command.conversion src dest program).Fits s := by
  have hdest : InBounds (s.findType dest (3 + program.length) 2) :=
    findType_inBounds sized dest (by omega) hwords
  have hsrc : InBounds (s.findType src (3 + program.length) 1) :=
    findType_inBounds sized src (by omega) hwords
  have hfind := findConversion_inBounds sized src dest program hwords
  have hname : InBounds (if 3 + program.length = 4 then [] else
      (List.range program.length).map fun (i : ℕ) =>
        .read .array (3 + program.length) (3 + i)) := by
    split
    · exact inBounds_nil
    · intro a ha
      obtain ⟨i, hi, rfl⟩ := List.mem_map.mp ha
      rw [List.mem_range] at hi
      rw [ok_read, Buffer.size]
      omega
  simp only [Tables.conversionAccesses, Command.Fits, inBounds_append, hdest, hsrc, hfind, hname,
    true_and]
  -- nothing is stored for a conversion that is known already
  by_cases hdup : s.Conversed src dest program
  · simp [hdup]
  · rw [if_neg hdup, inBounds_append, and_iff_right inBounds_program]
    simp only [inBounds_cons, ok_read, ok_put, Buffer.size, inBounds_nil, and_true, hdup, false_or]
    omega

/-- The parts of a file name are stored and the last one is looked up, for which there has to be one
if there are types. -/
theorem fileAccesses_iff (sized : Sized s) (file : Str) (hword : 1 < h) (hwords : h ≤ 40) :
    InBounds (s.fileAccesses file h) ↔
      (strtok '.' file).length ≤ 10 ∧ (s.types ≠ [] → strtok '.' file ≠ []) ∧
        ((∃ type ∈ s.types, (strtok '.' file).getLast? = some type) →
          s.jobs.length < maxJobs) := by
  have htypes := sized.types
  have hfirst : InBounds [.read .array h 1] := by
    simp only [inBounds_cons, ok_read, Buffer.size, inBounds_nil, and_true]
    omega
  simp only [Tables.fileAccesses, inBounds_append, hfirst, inBounds_fill, true_and, and_assoc]
  generalize strtok '.' file = parts
  rw [Buffer.size]
  refine and_congr_right fun hten => and_congr ?_ ?_
  · constructor
    · -- the first comparison reads the last part
      intro hrounds hne hparts
      have hread := hrounds _ (mem_rounds_first (List.length_pos_of_ne_nil hne) List.mem_cons_self)
      simp [hparts] at hread
    · intro hne
      refine inBounds_rounds fun k _ hk => ?_
      have hpos : 0 < parts.length :=
        List.length_pos_of_ne_nil (hne (List.ne_nil_of_length_pos (by omega)))
      simp only [inBounds_cons, ok_read, Buffer.size, inBounds_nil, and_true]
      omega
  · split
    · next hfound =>
      obtain ⟨type, -, hlast⟩ := id hfound
      have hpos : 0 < parts.length := List.length_pos_of_ne_nil fun hnil => by
        rw [hnil] at hlast
        exact absurd hlast nofun
      rw [forall_prop_of_true hfound]
      simp only [inBounds_cons, ok_read, ok_put, Buffer.size, inBounds_nil, and_true]
      omega
    · next hfound => exact iff_of_true inBounds_nil fun h => absurd h hfound

theorem printAccesses_iff (sized : Sized s) (file : Str) (names : List Str)
    (hwords : 2 + names.length ≤ 40) :
    InBounds (s.printAccesses file names) ↔ (Command.print file names).Fits s := by
  have hfind : InBounds (names.zipIdx.flatMap fun name =>
      s.findPrinter name.1 (2 + names.length) (2 + name.2)) := by
    intro a ha
    obtain ⟨⟨name, k⟩, hname, ha⟩ := List.mem_flatMap.mp ha
    have hk : k < names.length := by
      have := List.mem_zipIdx hname
      omega
    exact findPrinter_inBounds sized name (by omega) hwords a ha
  rw [Tables.printAccesses, inBounds_append, and_iff_right hfind, Command.Fits]
  -- the file name is looked at only if all names are those of printers
  split
  · next hall => rw [fileAccesses_iff sized file (by omega) hwords, forall_prop_of_true hall]
  · next hall => exact iff_of_true inBounds_nil fun h => absurd h hall

theorem cancelAccesses_iff (sized : Sized s) (name : Str) :
    InBounds (s.cancelAccesses name) ↔ (Command.cancel name).Fits s := by
  have hjobs := sized.jobs
  constructor
  · rintro h ⟨j, hj, hqueued⟩
    obtain ⟨i, hi⟩ := List.mem_iff_getElem?.mp hj
    -- the time of the job behind the last one is set
    have hput := h (.put .jobs s.jobs.length s.jobs.length) (List.mem_flatMap.mpr
      ⟨i, List.mem_range.mpr (List.getElem?_eq_some_iff.mp hi).1, by simp [hi, hqueued]⟩)
    exact ok_put.mp hput
  · intro hroom a ha
    obtain ⟨i, hi, ha⟩ := List.mem_flatMap.mp ha
    rw [List.mem_range] at hi
    rw [List.mem_append] at ha
    obtain ha | ha := ha
    · have hreads : InBounds [.read .jobs s.jobs.length i, .read .array 2 1] := by
        simp only [inBounds_cons, ok_read, Buffer.size, inBounds_nil, and_true]
        omega
      exact hreads a ha
    · split at ha
      · next hqueued =>
        obtain ⟨j, hj, hq⟩ := Option.any_eq_true _ _ |>.mp hqueued
        have hlt := hroom ⟨j, List.mem_of_getElem? hj, of_decide_eq_true hq⟩
        have hputs : InBounds [.put .jobs s.jobs.length i,
            .put .jobs s.jobs.length s.jobs.length] := by
          simp only [inBounds_cons, ok_put, Buffer.size, inBounds_nil, and_true]
          omega
        exact hputs a ha
      · exact absurd ha List.not_mem_nil

theorem setEnabledAccesses_inBounds (sized : Sized s) (enabled : Bool) (name : Str) :
    InBounds (s.setEnabledAccesses enabled name) := by
  have hprinters := sized.printers
  refine inBounds_rounds fun k _ hk => ?_
  rw [inBounds_append]
  constructor
  · simp only [inBounds_cons, ok_read, Buffer.size, inBounds_nil, and_true]
    omega
  · split
    · simp only [inBounds_cons, ok_read, ok_put, Buffer.size, inBounds_nil, and_true]
      omega
    · exact inBounds_nil

theorem inBounds_reads (h : n ≤ b.size) :
    InBounds ((List.range n).map fun (i : ℕ) => .read b n i) := by
  intro a ha
  obtain ⟨i, hi, rfl⟩ := List.mem_map.mp ha
  rw [List.mem_range] at hi
  rw [ok_read]
  omega

theorem ofWords_conversion {cmd src dest : Str} {words program : List Str}
    (h : Command.ofWords cmd words = .conversion src dest program) :
    words = src :: dest :: program := by
  unfold Command.ofWords at h
  split at h <;> split_ifs at h
  cases h
  rfl

theorem ofWords_print {cmd file : Str} {words names : List Str}
    (h : Command.ofWords cmd words = .print file names) : words = file :: names := by
  unfold Command.ofWords at h
  split at h <;> split_ifs at h <;> cases h <;> rfl

/-- A command of at most 40 words stays inside the arrays exactly if it fits. -/
theorem commandAccesses_iff (sized : Sized s) {cmd : Str} {words : List Str}
    (hwords : words.length + 1 ≤ 40) :
    InBounds (s.commandAccesses (.ofWords cmd words)) ↔ (Command.ofWords cmd words).Fits s := by
  cases hc : Command.ofWords cmd words with
  | help | quit | pause | resume | invalid => exact iff_of_true inBounds_nil trivial
  | type t => exact typeAccesses_iff sized t
  | printer name t => exact printerAccesses_iff sized name t
  | conversion src dest program =>
    rw [ofWords_conversion hc, List.length_cons, List.length_cons] at hwords
    exact conversionAccesses_iff sized src dest program (by omega)
  | printers => exact iff_of_true (inBounds_reads sized.printers) trivial
  | jobs => exact iff_of_true (inBounds_reads sized.jobs) trivial
  | print file names =>
    rw [ofWords_print hc, List.length_cons] at hwords
    exact printAccesses_iff sized file names (by omega)
  | cancel name => exact cancelAccesses_iff sized name
  | disable name => exact iff_of_true (setEnabledAccesses_inBounds sized false name) trivial
  | enable name => exact iff_of_true (setEnabledAccesses_inBounds sized true name) trivial

/-! ### Steps -/

theorem lineAccesses_iff (sized : Sized s) (input : Str) :
    InBounds (s.lineAccesses input) ↔ (strtok ' ' input).length ≤ 40 ∧
      ∀ cmd words, strtok ' ' input = cmd :: words → (Command.ofWords cmd words).Fits s := by
  rw [Tables.lineAccesses, inBounds_append, inBounds_fill]
  refine and_congr_right fun hwords => ?_
  cases hline : strtok ' ' input with
  | nil => exact iff_of_true inBounds_nil nofun
  | cons cmd words =>
    rw [hline, List.length_cons, Buffer.size] at hwords
    have hcmd : (Access.read .array (words.length + 1) 0).Ok := by
      rw [ok_read, Buffer.size]
      omega
    simp only [inBounds_cons, and_iff_right hcmd, commandAccesses_iff sized hwords]
    constructor
    · intro h cmd' words' heq
      cases heq
      exact h
    · exact fun h => h cmd words rfl

/-- The status line reads the printer at the place of the job, whichever printer takes the job. -/
theorem dispatchAccesses_iff (sized : Sized s) (hi : i < s.jobs.length) :
    InBounds (s.dispatchAccesses i) ↔ ∀ j ∈ s.jobs[i]?, (∃ p ∈ s.printers, p.Takes j) →
      i < s.printers.length := by
  have hprinters := sized.printers
  have hjobs := sized.jobs
  constructor
  · rintro hbounds j hj ⟨p, hp, htakes⟩
    obtain ⟨k, hk⟩ := List.mem_iff_getElem?.mp hp
    have hlt := (List.getElem?_eq_some_iff.mp hk).1
    -- the loop ends with a printer that takes the job, and there the status line is printed
    obtain ⟨l, hl, hsub⟩ : ∃ l, decide (s.TakesAt i l) = true ∧
        s.dispatchRound i l ⊆ s.dispatchAccesses i :=
      exists_last_round ⟨k, Nat.zero_le k, by omega, decide_eq_true ⟨j, hj, p, hk, htakes⟩⟩
    have hread := hbounds (.read .printers s.printers.length i) (hsub (by
      simp [Tables.dispatchRound, of_decide_eq_true hl]))
    have := (ok_read.mp hread).2.2
    omega
  · intro hplace
    refine inBounds_rounds fun k _ hk => ?_
    rw [Tables.dispatchRound, inBounds_append]
    constructor
    · simp only [inBounds_cons, ok_read, Buffer.size, inBounds_nil, and_true]
      omega
    · split
      · next htakes =>
        obtain ⟨j, hj, p, hp, htakes⟩ := htakes
        have hlt := hplace j hj ⟨p, List.mem_of_getElem? hp, htakes⟩
        simp only [inBounds_cons, ok_read, ok_put, Buffer.size, inBounds_nil, and_true]
        omega
      · exact inBounds_nil

/-- A step stays inside the arrays exactly if it fits. -/
theorem accesses_iff (sized : Sized m.tables) (e : Event) :
    InBounds (m.accesses e) ↔ m.Fits e := by
  obtain ⟨s, control⟩ := m
  cases e with
  | line input =>
    -- a line is read at the prompt only
    rw [Machine.accesses, Machine.Fits]
    split
    · next hprompt => rw [lineAccesses_iff sized, forall_prop_of_true hprompt]
    · next hprompt => exact iff_of_true inBounds_nil fun h => absurd h hprompt
  | dispatchJob =>
    cases control with
    | prompt | ended => exact iff_of_true inBounds_nil fun i h => by cases h
    | scan i =>
      have hscan : (⟨s, .scan i⟩ : Machine).Fits .dispatchJob ↔
          ∀ j ∈ s.jobs[i]?, (∃ p ∈ s.printers, p.Takes j) → i < s.printers.length := by
        constructor
        · exact fun h => h i rfl
        · rintro h _ ⟨⟩
          exact h
      rw [hscan]
      show InBounds (if i < s.jobs.length then s.dispatchAccesses i else []) ↔ _
      split
      · next hi => exact dispatchAccesses_iff sized hi
      · next hi =>
        refine iff_of_true inBounds_nil fun j hj => ?_
        exact absurd (List.getElem?_eq_some_iff.mp hj).1 hi
  | endDispatch => exact iff_of_true inBounds_nil trivial

/-! ### Runs -/

theorem sized_run {events : List Event} (h : Started s) (hrun : Run Step ⟨s, .prompt⟩ events m) :
    Sized m.tables :=
  hrun.invariant (I := fun m => Sized m.tables) (fun _ _ _ sized hstep => sized.step hstep)
    (.started h)

/-- In every run the accesses stay inside the arrays, and the entries that are read have been
stored, exactly if the steps fit. -/
theorem inBounds_iff_fits (h : Started s) (events : List Event) :
    Along (fun m e => InBounds (m.accesses e)) ⟨s, .prompt⟩ events ↔
      Along Machine.Fits ⟨s, .prompt⟩ events := by
  constructor
  · intro hbounds done e rest m hevents hrun
    exact (accesses_iff (sized_run h hrun) e).mp (hbounds done e rest m hevents hrun)
  · intro hfits done e rest m hevents hrun
    exact (accesses_iff (sized_run h hrun) e).mpr (hfits done e rest m hevents hrun)

theorem inBounds_iff_fits_example :
    Along (fun m e => InBounds (m.accesses e)) ⟨.initial, .prompt⟩ [.line "type ps".toList] := by
  refine (inBounds_iff_fits started_initial _).mpr fun done e rest m hevents hrun => ?_
  obtain ⟨rfl, rfl, rfl⟩ : done = [] ∧ e = .line "type ps".toList ∧ rest = [] := by
    cases done with
    | nil =>
      obtain ⟨he, hrest⟩ := List.cons.inj hevents
      exact ⟨rfl, he.symm, hrest.symm⟩
    | cons _ done => exact absurd (List.cons.inj hevents).2 (by simp)
  cases hrun
  refine fun _ => ⟨by decide_cbv, fun cmd words hline => ?_⟩
  cases (show strtok ' ' "type ps".toList = ["type".toList, "ps".toList] by decide_cbv).symm.trans
    hline
  exact .inr (by decide)

/-- One printer, and two jobs, the first of which is cancelled before the printer is enabled. -/
def secondJob : List Event :=
  [.line "type ps".toList, .endDispatch, .line "printer a ps".toList, .endDispatch,
    .line "print f.ps".toList, .dispatchJob, .endDispatch,
    .line "print g.ps".toList, .dispatchJob, .dispatchJob, .endDispatch,
    .line "cancel f.ps".toList, .dispatchJob, .dispatchJob, .endDispatch,
    .line "enable a".toList, .dispatchJob]

/-- The printer is enabled and the second job waits for it. -/
def oneEnabled : Tables where
  types := ["ps".toList]
  conversions := []
  printers := [⟨0, "a".toList, "ps".toList, true, false⟩]
  jobs := [⟨0, .aborted, "f.ps".toList, "ps".toList, anyPrinter, none⟩,
    ⟨1, .queued, "g.ps".toList, "ps".toList, anyPrinter, none⟩]

/-- The status line of the second job reads a second printer. -/
theorem second_job_out_of_bounds : ¬ Along (fun m e => InBounds (m.accesses e))
    ⟨.initial, .prompt⟩ (secondJob ++ [.dispatchJob]) := by
  intro h
  have sound : ∀ m e m', Machine.next m e = some m' → Step m e m' :=
    fun _ _ _ hnext => Machine.step_of_next hnext
  have hrun : Run Step ⟨.initial, .prompt⟩ secondJob ⟨oneEnabled, .scan 1⟩ :=
    Run.of_foldlM sound (by decide +kernel)
  have hread : .read .printers 1 1 ∈ (⟨oneEnabled, .scan 1⟩ : Machine).accesses .dispatchJob := by
    decide_cbv
  have hok := h secondJob .dispatchJob [] _ rfl hrun _ hread
  exact absurd (ok_read.mp hok).2.2 (by decide)

end CLanguage.Imprimer
