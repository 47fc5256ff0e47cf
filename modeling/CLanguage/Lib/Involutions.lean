import Mathlib.Data.List.Perm.Basic
import Mathlib.Data.List.Count
import Mathlib.Data.List.Perm.Subperm

/-!
# Sequences of commuting involutions

A family of operations that commute, and each of which undoes itself. What a sequence of
them does depends on the parities of the counts only (`foldl_eq_of_parity`).
-/

namespace CLanguage.Lib

variable {α κ : Type*} [DecidableEq κ] {f : α → κ → α} {ks ls : List κ}

/-- Where every operation occurs an even number of times, nothing changes. -/
theorem foldl_eq_self (comm : ∀ a k l, f (f a k) l = f (f a l) k) (cancel : ∀ a k, f (f a k) k = a)
    (even : ∀ k, ks.count k % 2 = 0) (a : α) : ks.foldl f a = a := by
  induction hn : ks.length using Nat.strongRecOn generalizing ks with
  | ind n ih =>
    cases ks with
    | nil => rfl
    | cons k ks =>
      -- the first operation occurs again, and the two can be taken out
      have hagain : k ∈ ks := by
        have hk := even k
        rw [List.count_cons_self] at hk
        rw [← List.count_pos_iff]
        omega
      have hperm : List.Perm (k :: ks) (k :: k :: ks.erase k) :=
        (List.perm_cons_erase hagain).cons k
      have heven : ∀ l, (ks.erase k).count l % 2 = 0 := by
        intro l
        have hl := even l
        rw [hperm.count_eq, List.count_cons, List.count_cons] at hl
        omega
      have hlength : (ks.erase k).length < n := by
        rw [List.length_erase_of_mem hagain, ← hn, List.length_cons]
        omega
      rw [hperm.foldl_eq' (fun x _ y _ z => comm z x y), List.foldl_cons, List.foldl_cons, cancel]
      exact ih _ hlength heven rfl

theorem foldl_eq_of_parity (comm : ∀ a k l, f (f a k) l = f (f a l) k)
    (cancel : ∀ a k, f (f a k) k = a) (parity : ∀ k, ks.count k % 2 = ls.count k % 2) (a : α) :
    ks.foldl f a = ls.foldl f a := by
  have heven : ∀ k, (ks ++ ls).count k % 2 = 0 := by
    intro k
    rw [List.count_append]
    have hk := parity k
    omega
  have htwice : ∀ k, (ls ++ ls).count k % 2 = 0 := by
    intro k
    rw [List.count_append]
    omega
  calc ks.foldl f a = (ls ++ ls).foldl f (ks.foldl f a) :=
        (foldl_eq_self comm cancel htwice _).symm
    _ = ls.foldl f ((ks ++ ls).foldl f a) := by
        rw [← List.foldl_append, ← List.append_assoc, List.foldl_append]
    _ = ls.foldl f a := by rw [foldl_eq_self comm cancel heven]

end CLanguage.Lib
