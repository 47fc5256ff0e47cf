import Mathlib.Logic.Function.Basic
import Mathlib.Data.List.Nodup

/-!
# Locks that threads hold

`Exclusive held locked` says that no lock is held twice, by two threads or by one, and
that a lock that is held is locked. A thread that takes and releases locks keeps it
if it only takes locks that are free (`Exclusive.update`).
-/

namespace CLanguage.Lib

variable {ι α : Type*} {held : ι → List α} {locked locked' : α → Prop}

/-- Every lock is held by at most one thread, and then it is locked. -/
structure Exclusive (held : ι → List α) (locked : α → Prop) : Prop where
  locked : ∀ t, ∀ x ∈ held t, locked x
  nodup : ∀ t, (held t).Nodup
  apart : ∀ t u, t ≠ u → ∀ x ∈ held t, x ∉ held u

theorem exclusive_nil : Exclusive (fun _ : ι => ([] : List α)) locked where
  locked _ _ h := absurd h List.not_mem_nil
  nodup _ := List.nodup_nil
  apart _ _ _ _ h := absurd h List.not_mem_nil

/-- One thread exchanges its locks, and the locks of the others stay locked. -/
theorem Exclusive.update [DecidableEq ι] (exclusive : Exclusive held locked) {t : ι} {own : List α}
    (taken : ∀ x ∈ own, x ∈ held t ∨ ¬ locked x) (nodup : own.Nodup)
    (own_locked : ∀ x ∈ own, locked' x) (others : ∀ u ≠ t, ∀ x ∈ held u, locked' x) :
    Exclusive (Function.update held t own) locked' where
  locked u x hx := by
    rw [Function.update_apply] at hx
    split at hx
    · exact own_locked x hx
    · next hu => exact others u hu x hx
  nodup u := by
    rw [Function.update_apply]
    split
    · exact nodup
    · exact exclusive.nodup u
  apart u v hne x hu hv := by
    rw [Function.update_apply] at hu hv
    -- a lock that the thread has taken is one that it held before or that nobody held
    have hnew : ∀ w ≠ t, x ∈ own → x ∉ held w := by
      intro w hw hx hheld
      rcases taken x hx with hold | hfree
      · exact exclusive.apart t w hw.symm x hold hheld
      · exact hfree (exclusive.locked w x hheld)
    split at hu
    · next hut =>
      rw [if_neg fun hvt => hne (hut.trans hvt.symm)] at hv
      exact hnew v (fun hvt => hne (hut.trans hvt.symm)) hu hv
    · next hut =>
      split at hv
      · exact hnew u hut hv hu
      · exact exclusive.apart u v hne x hu hv

end CLanguage.Lib
