import CLanguage.Gradebook.Ahead

/-!
# The stack of files

A file in which there is no further token is left for the one below it, and a `FILE`
line puts a new one on top.
-/

namespace CLanguage.Gradebook

open Lib Lib.Reporting Grades

variable {s s' : Input} {i j : Str} {prev : List Str} {more : Bool} {u : Unit} {n k : ℕ}
  {files : Str → Option Str} {a : List Assignment} {ss : List Section}

theorem clean_openfile {name : Str} : Clean (openfile files name) ⟨[], i, prev⟩ u s' ↔
    ∃ text t, files name = some text ∧ skipBlanks text = .ok t ∧ s' = ⟨[], t, i :: prev⟩ := by
  rw [openfile]
  rcases hfile : files name with _ | text
  · simp [clean_bind]
  · have hpush : Clean (fun s => .ok ((), 0, ⟨s.token, text, s.input :: s.prev⟩) : Reader Unit)
      ⟨[], i, prev⟩ () ⟨[], text, i :: prev⟩ := rfl
    rw [hpush.bind_iff, clean_gobbleblanklines]
    simp

theorem clean_openFiles : Clean openFiles s k s' ↔ k = s.prev.length + 1 ∧ s' = s := by
  simp [Clean, openFiles, eq_comm]

theorem clean_previousfile :
    Clean previousfile s u s' ↔ ∃ j prev, s.prev = j :: prev ∧ s' = ⟨s.token, j, prev⟩ := by
  rw [Clean, previousfile]
  rcases s.prev with _ | ⟨j, prev⟩
  · simp
  · simp [eq_comm]

/-! ## The loop over the files -/

/-- One round of the loop. -/
theorem clean_nexttoken (n : ℕ) : Clean (nexttoken (n + 1)) s more s' ↔
    ∃ s₁, Clean needtoken s () s₁ ∧ if s₁.token ≠ [] then more = true ∧ s' = s₁
      else if n = 0 then more = false ∧ s' = s₁
      else ∃ s₂, Clean previousfile s₁ () s₂ ∧ Clean (nexttoken n) s₂ more s' := by
  rw [nexttoken]
  by_cases hs : s.token = []
  · have hno : Clean istoken s false s := clean_istoken.mpr ⟨by simp [hs], rfl⟩
    rw [hno.bind_iff]
    simp only [Bool.false_eq_true, if_false, clean_seq, clean_needtoken, hs, ne_eq, not_true,
      false_and, false_or, true_and]
    refine exists_congr fun s₁ => and_congr_right fun _ => ?_
    by_cases ht : s₁.token = []
    · have hno : Clean istoken s₁ false s₁ := clean_istoken.mpr ⟨by simp [ht], rfl⟩
      rw [hno.bind_iff]
      by_cases hn : n = 0
      · simp [ht, hn, eq_comm]
      · simp [ht, hn, clean_seq]
    · have hyes : Clean istoken s₁ true s₁ := clean_istoken.mpr ⟨by simp [ht], rfl⟩
      rw [hyes.bind_iff]
      simp [ht, eq_comm]
  · simp [clean_bind, clean_needtoken, hs, eq_comm]

theorem lookahead_token : (lookahead i prev).token = [] ↔ (firstWord i).1 = [] := terminated_eq_nil

/-- There is a token in the file. -/
theorem nexttoken_word (hs : Stands s i prev) (hw : (firstWord i).1 ≠ []) :
    Clean (nexttoken (n + 1)) s more s' ↔
      (firstWord i).1.length < 64 ∧ more = true ∧ s' = lookahead i prev := by
  rw [clean_nexttoken]
  simp only [needtoken_before hs.ascii hs.before]
  constructor
  · rintro ⟨s₁, ⟨hshort, rfl⟩, hcase⟩
    rw [if_pos (mt lookahead_token.mp hw)] at hcase
    exact ⟨hshort, hcase⟩
  · rintro ⟨hshort, rfl, rfl⟩
    refine ⟨_, ⟨hshort, rfl⟩, ?_⟩
    rw [if_pos (mt lookahead_token.mp hw)]
    exact ⟨rfl, rfl⟩

/-- The root ends. -/
theorem nexttoken_root (hs : Stands s i []) (hw : (firstWord i).1 = []) :
    Clean (nexttoken 1) s more s' ↔ more = false ∧ s' = lookahead i [] := by
  have hshort : (firstWord i).1.length < 64 := by simp [hw]
  rw [clean_nexttoken]
  simp only [needtoken_before hs.ascii hs.before]
  constructor
  · rintro ⟨s₁, ⟨-, rfl⟩, hcase⟩
    rwa [if_neg (not_not.mpr (lookahead_token.mpr hw)), if_pos trivial] at hcase
  · rintro ⟨rfl, rfl⟩
    refine ⟨_, ⟨hshort, rfl⟩, ?_⟩
    rw [if_neg (not_not.mpr (lookahead_token.mpr hw)), if_pos trivial]
    exact ⟨rfl, rfl⟩

/-- Another file ends. -/
theorem nexttoken_pop (hs : Stands s i (j :: prev)) (hw : (firstWord i).1 = []) :
    Clean (nexttoken (n + 2)) s more s' ↔ Clean (nexttoken (n + 1)) ⟨[], j, prev⟩ more s' := by
  have hshort : (firstWord i).1.length < 64 := by simp [hw]
  have hpop : Clean previousfile (lookahead i (j :: prev)) () ⟨[], j, prev⟩ :=
    clean_previousfile.mpr ⟨j, prev, rfl, by rw [lookahead_token.mpr hw]⟩
  rw [clean_nexttoken]
  simp only [needtoken_before hs.ascii hs.before]
  constructor
  · rintro ⟨s₁, ⟨-, rfl⟩, hcase⟩
    rw [if_neg (not_not.mpr (lookahead_token.mpr hw)), if_neg (Nat.succ_ne_zero n)] at hcase
    obtain ⟨s₂, hprevious, hnext⟩ := hcase
    rwa [(hprevious.unique hpop).2] at hnext
  · intro hnext
    refine ⟨_, ⟨hshort, rfl⟩, ?_⟩
    rw [if_neg (not_not.mpr (lookahead_token.mpr hw)), if_neg (Nat.succ_ne_zero n)]
    exact ⟨_, hpop, hnext⟩

/-! ## Sections -/

theorem Stands.prev_eq (hs : Stands s i prev) : s.prev = prev := by
  obtain rfl | ⟨-, rfl⟩ := hs.before
  · rfl
  · rfl

theorem Stands.openFiles (hs : Stands s i prev) : Clean openFiles s (prev.length + 1) s :=
  clean_openFiles.mpr ⟨by rw [hs.prev_eq], rfl⟩

theorem readsections_word (hs : Stands s i prev) (hw : (firstWord i).1 ≠ []) :
    Clean (readsections files a (n + 1)) s ss s' ↔
      (firstWord i).1.length < 64 ∧ Clean (readblocks a files n) (lookahead i prev) ss s' := by
  rw [readsections_succ, hs.openFiles.bind_iff, clean_bind]
  simp only [nexttoken_word hs hw]
  constructor
  · rintro ⟨more, s₁, ⟨hshort, rfl, rfl⟩, hrun⟩
    exact ⟨hshort, hrun⟩
  · rintro ⟨hshort, hrun⟩
    exact ⟨true, _, ⟨hshort, rfl, rfl⟩, hrun⟩

theorem readsections_root (hs : Stands s i []) (hw : (firstWord i).1 = []) :
    Clean (readsections files a (n + 1)) s ss s' ↔ ss = [] ∧ s' = lookahead i [] := by
  have hmore : Clean (nexttoken 1) s false (lookahead i []) := (nexttoken_root hs hw).mpr ⟨rfl, rfl⟩
  rw [readsections_succ, hs.openFiles.bind_iff, List.length_nil, hmore.bind_iff]
  simp [eq_comm]

theorem readsections_pop (hs : Stands s i (j :: prev)) (hw : (firstWord i).1 = []) :
    Clean (readsections files a (n + 1)) s ss s' ↔
      Clean (readsections files a (n + 1)) ⟨[], j, prev⟩ ss s' := by
  have hopen : Clean openFiles ⟨[], j, prev⟩ (prev.length + 1) ⟨[], j, prev⟩ :=
    clean_openFiles.mpr ⟨rfl, rfl⟩
  rw [readsections_succ, hs.openFiles.bind_iff, hopen.bind_iff, List.length_cons, clean_bind,
    clean_bind]
  simp only [nexttoken_pop hs hw]

end CLanguage.Gradebook
