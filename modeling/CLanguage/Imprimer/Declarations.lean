import CLanguage.Imprimer.Machine

/-!
# What is declared

`Coherent` is the invariant that the commands check for: no type, no printer and no
conversion is declared twice, and printers, conversions and jobs are of declared types.
Two of the checks print their error and go on: the one for the types of a conversion,
so that an undeclared type gets into the table, and the one for too many printers, so
that the command writes behind the table. Every other command that reports an error
leaves the tables as they are.

`coherent_of_checked` is about the runs in which these two checks find nothing, or what
they find is refused for another reason.

## Main definitions

* `Tables.errors` — the messages of a command
* `Coherent` — the invariant of the tables
* `Command.Checked` — none of the two checks lets the command pass
-/

namespace CLanguage.Imprimer

open CLanguage.Lib

variable {s s' : Tables} {flow : Flow} {m m' : Machine} {e : Event} {c : Command}
  {lines rest : List Str}

/-! ### Errors -/

namespace Tables

/-- `conversion_program` is in use already, or there is a conversion between the types. -/
def Converts (s : Tables) (name src dest : Str) : Prop :=
  ∃ conv ∈ s.conversions, conv.name = name ∨ (conv.src = src ∧ conv.dest = dest)

instance (s : Tables) (name src dest : Str) : Decidable (s.Converts name src dest) :=
  inferInstanceAs (Decidable (∃ conv ∈ s.conversions, _))

/-- The messages of `enable` and of `disable`; `valid` is set once a printer was changed. -/
def setEnabledErrors (enabled : Bool) (already name : Str) (valid : Bool) :
    List Printer → List Str
  | [] => if valid then [] else ["Invalid printer name\n".toList]
  | p :: printers =>
    if p.name = name then
      if p.enabled = enabled then
        already :: if valid then [] else ["Invalid printer name\n".toList]
      else setEnabledErrors enabled already name true printers
    else setEnabledErrors enabled already name valid printers

/-- The error messages of a command at the prompt, up to where its behaviour is undefined. -/
def errors (s : Tables) : Command → List Str
  | .help | .quit | .printers | .jobs | .cancel _ | .pause _ | .resume _ => []
  | .type fileType => if fileType ∈ s.types then ["Duplicate type\n".toList] else []
  | .printer name fileType =>
    (if maxPrinters ≤ s.printers.length then ["Exceed the maximum number of printers\n".toList]
      else []) ++
    if s.printers.any (·.name = name) then ["Invalid printer name\n".toList]
    else if fileType ∉ s.types then ["Invalid file type\n".toList]
    else []
  | .conversion src dest program =>
    (if dest ∉ s.types ∨ src ∉ s.types then ["Invalid target file type\n".toList] else []) ++
    match conversionName program with
    | .ok name =>
      if s.Converts name src dest then ["Conversion program already exists\n".toList] else []
    | .error _ => []
  | .print file names =>
    match s.eligible names with
    | .ok none => ["Invalid printer\n".toList]
    | .ok (some _) =>
      match strcpy file >>= fun _ => fileType s.types file with
      | .ok type => if type ∈ s.types then [] else ["Unsupported file type\n".toList]
      | .error _ => []
    | .error _ => []
  | .disable name =>
    setEnabledErrors false "Printer already disabled.".toList name false s.printers
  | .enable name => setEnabledErrors true "Printer already enabled.".toList name false s.printers
  | .invalid => ["Invalid command, enter 'help' to get more infomation\n".toList]

end Tables

/-! ### The invariant -/

/-- Everything is declared, and nothing twice. -/
structure Coherent (s : Tables) : Prop where
  types : s.types.Nodup
  printers : (s.printers.map Printer.name).Nodup
  printer_type : ∀ p ∈ s.printers, p.type ∈ s.types
  conversion_types : ∀ conv ∈ s.conversions, conv.src ∈ s.types ∧ conv.dest ∈ s.types
  conversions : (s.conversions.map fun conv => (conv.src, conv.dest)).Nodup
  job_type : ∀ j ∈ s.jobs, j.fileType ∈ s.types

/-- A command that a check does not find fault with only to let it pass: there is room for the
printer and the types of the conversion are declared, or the command is refused anyway. -/
def Command.Checked (s : Tables) : Command → Prop
  | .printer name fileType =>
    s.printers.length < maxPrinters ∨ s.printers.any (·.name = name) ∨ fileType ∉ s.types
  | .conversion src dest program =>
    (src ∈ s.types ∧ dest ∈ s.types) ∨
      ∃ name, Tables.conversionName program = .ok name ∧ s.Converts name src dest
  | _ => True

theorem coherent_initial : Coherent .initial :=
  ⟨List.nodup_nil, List.nodup_nil, nofun, nofun, List.nodup_nil, nofun⟩

theorem nodup_concat {α : Type} {as : List α} {a : α} (h : as.Nodup) (ha : a ∉ as) :
    (as ++ [a]).Nodup :=
  List.nodup_append.mpr ⟨h, List.nodup_cons.mpr ⟨List.not_mem_nil, List.nodup_nil⟩,
    fun _ hb _ hc hbc => ha (List.mem_singleton.mp hc ▸ hbc ▸ hb)⟩

theorem forall_mem_concat {α : Type} {as : List α} {a : α} {p : α → Prop} (h : ∀ b ∈ as, p b)
    (ha : p a) : ∀ b ∈ as ++ [a], p b :=
  List.forall_mem_append.mpr ⟨h, List.forall_mem_singleton.mpr ha⟩

/-- A copy that fits is the string itself. -/
theorem strcpy_bind_eq_ok {α : Type} {t : Str} {f : Str → Except Fault α} {a : α} :
    strcpy t >>= f = .ok a ↔ t.length < 100 ∧ f t = .ok a := by
  rw [strcpy]
  split
  · next h => exact ⟨fun hf => ⟨h, hf⟩, And.right⟩
  · next h => exact ⟨nofun, fun hf => absurd hf.1 h⟩

namespace Coherent

/-! ### Declarations -/

theorem type {t : Str} (coherent : Coherent s) (h : s.type t = .ok (s', flow)) :
    Coherent s' := by
  rw [Tables.type] at h
  split at h
  · cases h
    exact coherent
  · next hnew =>
    obtain ⟨-, h⟩ := strcpy_bind_eq_ok.mp h
    obtain ⟨types, hpush, h⟩ := bind_eq_ok h
    obtain ⟨-, rfl⟩ := push_eq_ok.mp hpush
    cases h
    exact ⟨nodup_concat coherent.types hnew, coherent.printers,
      fun p hp => List.mem_append_left _ (coherent.printer_type p hp),
      fun conv hconv => ⟨List.mem_append_left _ (coherent.conversion_types conv hconv).1,
        List.mem_append_left _ (coherent.conversion_types conv hconv).2⟩,
      coherent.conversions, fun j hj => List.mem_append_left _ (coherent.job_type j hj)⟩

theorem printer {name fileType : Str} (coherent : Coherent s)
    (h : s.printer name fileType = .ok (s', flow)) : Coherent s' := by
  rw [Tables.printer] at h
  split at h
  · cases h
    exact coherent
  · next hnew =>
    split at h
    · cases h
      exact coherent
    · next htype =>
      obtain ⟨-, h⟩ := strcpy_bind_eq_ok.mp h
      obtain ⟨-, h⟩ := strcpy_bind_eq_ok.mp h
      obtain ⟨printers, hpush, h⟩ := bind_eq_ok h
      obtain ⟨-, rfl⟩ := push_eq_ok.mp hpush
      cases h
      refine ⟨coherent.types, ?_, forall_mem_concat coherent.printer_type (not_not.mp htype),
        coherent.conversion_types, coherent.conversions, coherent.job_type⟩
      rw [List.map_append, List.map_singleton]
      refine nodup_concat coherent.printers fun hmem => hnew ?_
      obtain ⟨p, hp, hname⟩ := List.mem_map.mp hmem
      exact List.any_eq_true.mpr ⟨p, hp, decide_eq_true hname⟩

theorem any_eq_converts (s : Tables) (name src dest : Str) :
    (s.conversions.any fun c => c.name = name ∨ (c.src = src ∧ c.dest = dest)) = true ↔
      s.Converts name src dest := by
  rw [List.any_eq_true]
  simp only [Tables.Converts, decide_eq_true_eq]

/-- The types of a conversion are looked up, but this is where the check has to be assumed. -/
theorem conversion {src dest : Str} {program : List Str} (coherent : Coherent s)
    (checked : (Command.conversion src dest program).Checked s)
    (h : s.conversion src dest program = .ok (s', flow)) : Coherent s' := by
  obtain ⟨name, hname, h⟩ := bind_eq_ok h
  split at h
  · cases h
    exact coherent
  · next hnew =>
    rw [any_eq_converts] at hnew
    obtain ⟨hsrc, hdest⟩ := checked.resolve_right fun ⟨name', hname', hconverts⟩ =>
      hnew (Except.ok.inj (hname'.symm.trans hname) ▸ hconverts)
    obtain ⟨name', -, h⟩ := bind_eq_ok h
    obtain ⟨-, h⟩ := strcpy_bind_eq_ok.mp h
    obtain ⟨-, h⟩ := strcpy_bind_eq_ok.mp h
    obtain ⟨conversions, hpush, h⟩ := bind_eq_ok h
    obtain ⟨-, rfl⟩ := push_eq_ok.mp hpush
    cases h
    refine ⟨coherent.types, coherent.printers, coherent.printer_type,
      forall_mem_concat coherent.conversion_types ⟨hsrc, hdest⟩, ?_, coherent.job_type⟩
    rw [List.map_append, List.map_singleton]
    refine nodup_concat coherent.conversions fun hmem => hnew ?_
    obtain ⟨conv, hconv, hpair⟩ := List.mem_map.mp hmem
    exact ⟨conv, hconv, .inr (Prod.mk.inj hpair)⟩

theorem print {file : Str} {names : List Str} (coherent : Coherent s)
    (h : s.print file names = .ok (s', flow)) : Coherent s' := by
  obtain ⟨eligible, -, h⟩ := bind_eq_ok h
  cases eligible with
  | none =>
    cases h
    exact coherent
  | some eligible =>
    obtain ⟨fileName, -, h⟩ := bind_eq_ok h
    obtain ⟨type, -, h⟩ := bind_eq_ok h
    split at h
    · next htype =>
      obtain ⟨jobs, hpush, h⟩ := bind_eq_ok h
      obtain ⟨-, rfl⟩ := push_eq_ok.mp hpush
      cases h
      exact ⟨coherent.types, coherent.printers, coherent.printer_type,
        coherent.conversion_types, coherent.conversions,
        forall_mem_concat coherent.job_type htype⟩
    · cases h
      exact coherent

/-! ### The other commands -/

/-- Jobs that keep their type and printers that keep their name and type. -/
theorem of_same (coherent : Coherent s) {printers : List Printer} {jobs : List Job}
    (hprinters : printers.map (fun p => (p.name, p.type)) =
      s.printers.map fun p => (p.name, p.type))
    (hjobs : jobs.map Job.fileType = s.jobs.map Job.fileType) :
    Coherent { s with printers := printers, jobs := jobs } := by
  have hnames : printers.map Printer.name = s.printers.map Printer.name := by
    have h := congrArg (List.map Prod.fst) hprinters
    rwa [List.map_map, List.map_map] at h
  have htypes : printers.map Printer.type = s.printers.map Printer.type := by
    have h := congrArg (List.map Prod.snd) hprinters
    rwa [List.map_map, List.map_map] at h
  refine ⟨coherent.types, hnames.symm ▸ coherent.printers, fun p hp => ?_,
    coherent.conversion_types, coherent.conversions, fun j hj => ?_⟩
  · obtain ⟨q, hq, heq⟩ := List.mem_map.mp (htypes ▸ List.mem_map_of_mem (f := Printer.type) hp)
    exact heq ▸ coherent.printer_type q hq
  · obtain ⟨i, hi, heq⟩ := List.mem_map.mp (hjobs ▸ List.mem_map_of_mem (f := Job.fileType) hj)
    exact heq ▸ coherent.job_type i hi

theorem map_setEnabled (enabled : Bool) (name : Str) (printers : List Printer) :
    (Tables.setEnabled enabled name printers).map (fun p => (p.name, p.type)) =
      printers.map fun p => (p.name, p.type) := by
  induction printers with
  | nil => rfl
  | cons p printers ih =>
    rw [Tables.setEnabled]
    split
    · split
      · rfl
      · rw [List.map_cons, List.map_cons, ih]
    · rw [List.map_cons, List.map_cons, ih]

theorem fileType_cancelJob (name : Str) (j : Job) :
    (Tables.cancelJob name j).fileType = j.fileType := by
  rw [Tables.cancelJob]
  split
  · rfl
  · rfl

theorem command (coherent : Coherent s) (checked : c.Checked s)
    (h : s.command c = .ok (s', flow)) : Coherent s' := by
  cases c with
  | help | quit | printers | jobs | pause | resume | invalid =>
    cases h
    exact coherent
  | type t => exact coherent.type h
  | printer name fileType => exact coherent.printer h
  | conversion src dest program => exact coherent.conversion checked h
  | print file names => exact coherent.print h
  | cancel name =>
    rw [Tables.command, Tables.cancel] at h
    split at h
    · cases h
    · cases h
      refine coherent.of_same rfl ?_
      rw [List.map_map]
      exact List.map_congr_left fun j _ => fileType_cancelJob name j
  | disable name | enable name =>
    cases h
    exact coherent.of_same (map_setEnabled _ name s.printers) rfl

theorem dispatchJob (coherent : Coherent s) (i : ℕ) : Coherent (s.dispatchJob i) := by
  obtain ⟨h, -⟩ | ⟨j, k, p, hj, -, -, h⟩ := dispatchJob_cases s i
  · rw [h]
    exact coherent
  · rw [h]
    refine coherent.of_same ?_ ?_
    · refine List.ext_getElem? fun k' => ?_
      rw [List.getElem?_map, List.getElem?_map, List.getElem?_modify]
      cases s.printers[k']? with
      | none => rfl
      | some q =>
        by_cases hk : k = k'
        · simp [hk, Printer.start]
        · simp [hk]
    · refine List.ext_getElem? fun i' => ?_
      rw [List.getElem?_map, List.getElem?_map, List.getElem?_set]
      split
      · next hi =>
        subst hi
        rw [if_pos (List.getElem?_eq_some_iff.mp hj).1, hj]
        rfl
      · rfl

end Coherent

/-! ### Refused commands -/

theorem setEnabledErrors_of_notMem {enabled : Bool} {already name : Str} {printers : List Printer}
    (h : name ∉ printers.map Printer.name) :
    Tables.setEnabledErrors enabled already name true printers = [] := by
  induction printers with
  | nil => rfl
  | cons p printers ih =>
    rw [List.map_cons, List.mem_cons, not_or] at h
    rw [Tables.setEnabledErrors, if_neg (Ne.symm h.1)]
    exact ih h.2

/-- If there is one printer of the name at most, then no printer is changed with an error. -/
theorem setEnabled_of_errors {enabled : Bool} {already name : Str} {printers : List Printer}
    (distinct : (printers.map Printer.name).Nodup)
    (h : Tables.setEnabledErrors enabled already name false printers ≠ []) :
    Tables.setEnabled enabled name printers = printers := by
  induction printers with
  | nil => rfl
  | cons p printers ih =>
    rw [List.map_cons, List.nodup_cons] at distinct
    rw [Tables.setEnabled]
    rw [Tables.setEnabledErrors] at h
    split at h
    · next hname =>
      rw [if_pos hname]
      split at h
      · next hsame => rw [if_pos hsame]
      · exact absurd (setEnabledErrors_of_notMem (hname ▸ distinct.1)) h
    · next hname => rw [if_neg hname, ih distinct.2 h]

/-- A command that reports an error leaves all tables as they are, unless one of the two checks lets
it pass. -/
theorem Coherent.refused (coherent : Coherent s) (checked : c.Checked s) (h : s.errors c ≠ []) :
    ∃ flow, s.command c = .ok (s, flow) := by
  cases c with
  | help | quit | printers | jobs | cancel | pause | resume => exact absurd rfl h
  | invalid => exact ⟨_, rfl⟩
  | type t =>
    rw [Tables.errors] at h
    split at h
    · next hold => exact ⟨_, if_pos hold⟩
    · exact absurd rfl h
  | printer name fileType =>
    rw [Tables.command, Tables.printer]
    by_cases hname : s.printers.any (·.name = name) = true
    · exact ⟨_, if_pos hname⟩
    rw [if_neg hname]
    by_cases htype : fileType ∉ s.types
    · exact ⟨_, if_pos htype⟩
    -- neither is at fault, so there is room and no error
    refine absurd ?_ h
    have hroom : s.printers.length < maxPrinters :=
      checked.resolve_right fun hor => hor.elim hname htype
    rw [Tables.errors, if_neg (Nat.not_le.mpr hroom), if_neg hname, if_neg htype]
    rfl
  | conversion src dest program =>
    have hrefused : ∀ name, Tables.conversionName program = .ok name →
        s.Converts name src dest → ∃ flow, s.conversion src dest program = .ok (s, flow) := by
      intro name hname hconverts
      refine ⟨.continue, ?_⟩
      rw [Tables.conversion, hname]
      exact if_pos ((Coherent.any_eq_converts s name src dest).mpr hconverts)
    obtain ⟨hsrc, hdest⟩ | ⟨name, hname, hconverts⟩ := checked
    · rw [Tables.errors, if_neg (by simp [hsrc, hdest]), List.nil_append] at h
      split at h
      · next name hname =>
        split at h
        · next hconverts => exact hrefused name hname hconverts
        · exact absurd rfl h
      · exact absurd rfl h
    · exact hrefused name hname hconverts
  | print file names =>
    rw [Tables.errors] at h
    rw [Tables.command, Tables.print]
    split at h
    · next heligible =>
      rw [heligible]
      exact ⟨_, rfl⟩
    · next eligible heligible =>
      rw [heligible]
      split at h
      · next type htype =>
        obtain ⟨fileName, hfile, htype⟩ := bind_eq_ok htype
        split at h
        · exact absurd rfl h
        · next hnew =>
          refine ⟨.continue, ?_⟩
          simp only [bind, Except.bind, hfile, htype, if_neg hnew]
          rfl
      · exact absurd rfl h
    · exact absurd rfl h
  | disable name | enable name =>
    have hsame := setEnabled_of_errors coherent.printers h
    exact ⟨.fallThrough, congrArg (fun printers => Except.ok
      (({ s with printers := printers } : Tables), Flow.fallThrough)) hsame⟩

/-! ### Runs -/

/-- The command of a line is checked, if the line has one. -/
def CheckedLine (s : Tables) (input : Str) : Prop :=
  ∀ c, lineCommand input = some c → c.Checked s

theorem Coherent.line {input : Str} (coherent : Coherent s) (checked : CheckedLine s input)
    (h : s.line Tables.command input = .ok (s', flow)) : Coherent s' := by
  cases hc : lineCommand input with
  | none =>
    obtain ⟨r, hr | hr, hline⟩ := line_eq_of_none (s := s) hc
    · cases (hr.symm.trans (hline _).symm).trans h
      exact coherent
    · exact absurd ((hr.symm.trans (hline _).symm).trans h) nofun
  | some c =>
    rw [line_eq_of_some Tables.command hc] at h
    exact coherent.command (checked c hc) h

/-- The commands of a file are checked, each in the tables that it finds. -/
def CheckedLines : Tables → List Str → Prop
  | _, [] => True
  | s, input :: lines => CheckedLine s input ∧
      ∀ s' flow, s.line Tables.fileCommand input = .ok (s', flow) → CheckedLines s' lines

theorem Coherent.readLines (coherent : Coherent s) (checked : CheckedLines s lines)
    (h : s.readLines lines = .ok (s', rest)) : Coherent s' := by
  induction lines generalizing s with
  | nil =>
    cases h
    exact coherent
  | cons input lines ih =>
    obtain ⟨⟨t, flow⟩, hline, h⟩ := bind_eq_ok h
    have ht : Coherent t := by
      obtain ⟨-, hquit⟩ | ⟨-, -, -, hleave⟩ | ⟨hsame, -, -⟩ := fileLine_cases s input
      · cases hquit.symm.trans hline
        exact coherent
      · cases hleave.symm.trans hline
        exact coherent
      · exact coherent.line checked.1 (hsame.symm.trans hline)
    have hrest := ih ht (checked.2 t flow hline)
    cases flow with
    | fallThrough | «continue» => exact hrest h
    | «break» | exit =>
      cases h
      exact ht

/-- A step whose command is checked. -/
def CheckedStep (m : Machine) (e : Event) (m' : Machine) : Prop :=
  Step m e m' ∧ ∀ input, e = .line input → CheckedLine m.tables input

theorem Coherent.step (step : CheckedStep m e m') (coherent : Coherent m.tables) :
    Coherent m'.tables := by
  obtain ⟨hstep, checked⟩ := step
  cases hstep with
  | line h => exact coherent.line (checked _ rfl) h
  | dispatchJob => exact coherent.dispatchJob _
  | endDispatch => exact coherent

/-- In a run whose commands are all checked, from a command file with such commands, nothing is
declared twice and everything is of declared types. In each of its states a checked command that
reports an error leaves all tables as they are. -/
theorem coherent_of_checked (checkedLines : CheckedLines .initial lines)
    (file : Tables.initial.readLines lines = .ok (s, rest)) {events : List Event}
    (run : Run CheckedStep ⟨s, .prompt⟩ events m) :
    Coherent m.tables ∧ ∀ c : Command, c.Checked m.tables → m.tables.errors c ≠ [] →
      ∃ flow, m.tables.command c = .ok (m.tables, flow) := by
  have hstart : Coherent s := coherent_initial.readLines checkedLines file
  have hcoherent := run.invariant (I := fun m => Coherent m.tables)
    (fun _ _ _ hm h => hm.step h) hstart
  exact ⟨hcoherent, fun _ checked herrors => hcoherent.refused checked herrors⟩

/-- A conversion between declared types, and a second one that is refused. -/
theorem coherent_of_checked_example :
    ∃ m : Machine, m.tables.conversions ≠ [] ∧ Coherent m.tables := by
  have hchecked : CheckedLines .initial ["type a".toList, "type b".toList] := by
    refine ⟨fun c hc => ?_, fun s' flow h => ⟨fun c hc => ?_, fun _ _ _ => trivial⟩⟩
    · obtain rfl : c = .type "a".toList := (Option.some.inj (hc.symm.trans (by decide_cbv)))
      trivial
    · obtain rfl : c = .type "b".toList := (Option.some.inj (hc.symm.trans (by decide_cbv)))
      trivial
  have hfile : Tables.initial.readLines ["type a".toList, "type b".toList] =
      .ok (⟨["a".toList, "b".toList], [], [], []⟩, []) := by decide_cbv
  have hstep : CheckedStep ⟨⟨["a".toList, "b".toList], [], [], []⟩, .prompt⟩
      (.line "conversion a b p".toList)
      ⟨⟨["a".toList, "b".toList], [⟨"p".toList, "a".toList, "b".toList⟩], [], []⟩, .scan 0⟩ := by
    refine ⟨Machine.step_of_next (by decide_cbv), ?_⟩
    rintro _ ⟨⟩ c hc
    obtain rfl : c = .conversion "a".toList "b".toList ["p".toList] :=
      Option.some.inj (hc.symm.trans (by decide_cbv))
    exact .inl (by decide)
  exact ⟨_, List.cons_ne_nil _ _, (coherent_of_checked hchecked hfile (.cons hstep (.nil _))).1⟩

/-- A conversion into a type that is not declared: the error is reported, and the conversion is
stored. -/
theorem undeclared_conversion : ∃ m, Reachable m ∧ ¬ Coherent m.tables ∧
    ∃ c, m.tables.errors c ≠ [] ∧ ∀ flow, m.tables.command c ≠ .ok (m.tables, flow) := by
  obtain ⟨m, hm, htables⟩ := Reachable.of_events
    [.line "type a".toList, .endDispatch, .line "conversion a b p".toList] Machine.tables
    (show _ = some ⟨["a".toList], [⟨"p".toList, "a".toList, "b".toList⟩], [], []⟩ by
      decide_cbv)
  refine ⟨m, hm, ?_, .conversion "b".toList "c".toList ["q".toList], ?_⟩
  · rw [htables]
    intro h
    exact absurd (h.conversion_types _ List.mem_cons_self).2 (by decide)
  · rw [htables]
    have hstored : ((Tables.command ⟨["a".toList], [⟨"p".toList, "a".toList, "b".toList⟩], [], []⟩
        (.conversion "b".toList "c".toList ["q".toList])).toOption.map fun t =>
          t.1.conversions.length) = some 2 := by decide_cbv
    refine ⟨by decide_cbv, fun flow h => ?_⟩
    rw [h] at hstored
    exact absurd (show 1 = 2 from Option.some.inj hstored) (by decide)

end CLanguage.Imprimer
