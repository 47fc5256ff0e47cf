import Mathlib.Data.List.Nodup
import Mathlib.Data.List.Perm.Basic
import Mathlib.Logic.Equiv.Basic

/-!
# Rearranging a segment of a table

A table is a function of the index. `Rearranges low high f g` says that `g` holds the
entries of `f`, those in `[low, high)` in another order and the others in place. It is a
preorder that grows with the segment, so that the steps of an algorithm on parts of a
table compose.

`Preorder3` is what is asked of a three-way comparison, as C programs pass it to a sort.
-/

namespace CLanguage.Lib

variable {α : Type*} {f g h : ℕ → α} {low high low' high' i j k : ℕ}

/-! ### Three-way comparisons -/

/-- The comparison is that of a total preorder: it changes its sign with the order of its
arguments, and not being greater is transitive. -/
structure Preorder3 (compare : α → α → ℤ) : Prop where
  swap : ∀ a b, 0 < compare a b ↔ compare b a < 0
  trans : ∀ a b c, compare a b ≤ 0 → compare b c ≤ 0 → compare a c ≤ 0

namespace Preorder3

variable {compare : α → α → ℤ}

theorem refl (order : Preorder3 compare) (a : α) : compare a a = 0 := by
  have hswap := order.swap a a
  omega

theorem le_of_nonneg (order : Preorder3 compare) {a b : α} (h : 0 ≤ compare a b) :
    compare b a ≤ 0 := by
  have hswap := order.swap b a
  omega

/-- Sorting by a key. -/
theorem comap {β : Type*} (order : Preorder3 compare) (key : β → α) :
    Preorder3 fun a b => compare (key a) (key b) :=
  ⟨fun _ _ => order.swap _ _, fun _ _ _ => order.trans _ _ _⟩

/-- Sorting by one comparison and, where it finds no difference, by another one. -/
theorem lex {compare' : α → α → ℤ} (order : Preorder3 compare) (order' : Preorder3 compare') :
    Preorder3 fun a b => if compare a b ≠ 0 then compare a b else compare' a b := by
  have hzero : ∀ a b, compare a b = 0 ↔ compare b a = 0 := fun a b => by
    have h₁ := order.swap a b
    have h₂ := order.swap b a
    omega
  refine ⟨fun a b => ?_, fun a b c hab hbc => ?_⟩
  · have hab := order.swap a b
    have hab' := order'.swap a b
    have hiff := hzero a b
    split <;> split <;> omega
  · have hle : ∀ a b, (if compare a b ≠ 0 then compare a b else compare' a b) ≤ 0 →
        compare a b ≤ 0 ∧ (compare a b = 0 → compare' a b ≤ 0) := by
      intro a b h
      split at h
      · exact ⟨h, fun hz => absurd hz (by assumption)⟩
      · exact ⟨by omega, fun _ => h⟩
    obtain ⟨hab₁, hab₂⟩ := hle a b hab
    obtain ⟨hbc₁, hbc₂⟩ := hle b c hbc
    have hac := order.trans a b c hab₁ hbc₁
    split
    · exact hac
    · next hnot =>
      -- equal ends make everything in between equal
      have hac0 : compare a c = 0 := by omega
      have hba := order.trans b c a hbc₁ (Int.le_of_eq ((hzero a c).mp hac0))
      have hcb := order.trans c a b (Int.le_of_eq ((hzero a c).mp hac0)) hab₁
      have hab0 : compare a b = 0 := by
        have := order.swap a b
        have := order.swap b a
        omega
      have hbc0 : compare b c = 0 := by
        have := order.swap b c
        have := order.swap c b
        omega
      exact order'.trans a b c (hab₂ hab0) (hbc₂ hbc0)

end Preorder3

/-! ### Rearrangements -/

/-- The entries of `f` between `low` and `high` in another order. -/
def Rearranges (low high : ℕ) (f g : ℕ → α) : Prop :=
  ∃ σ : Equiv.Perm ℕ, (∀ i, ¬ (low ≤ i ∧ i < high) → σ i = i) ∧ g = f ∘ σ

namespace Rearranges

theorem refl (low high : ℕ) (f : ℕ → α) : Rearranges low high f f :=
  ⟨Equiv.refl ℕ, fun _ _ => rfl, rfl⟩

theorem trans (hfg : Rearranges low high f g) (hgh : Rearranges low high g h) :
    Rearranges low high f h := by
  obtain ⟨σ, hσ, rfl⟩ := hfg
  obtain ⟨τ, hτ, rfl⟩ := hgh
  refine ⟨τ.trans σ, fun i hi => ?_, rfl⟩
  rw [Equiv.trans_apply, hτ i hi, hσ i hi]

theorem mono (hfg : Rearranges low high f g) (hlow : low' ≤ low) (hhigh : high ≤ high') :
    Rearranges low' high' f g := by
  obtain ⟨σ, hσ, rfl⟩ := hfg
  refine ⟨σ, fun i hi => hσ i fun ⟨h₁, h₂⟩ => hi ?_, rfl⟩
  exact ⟨Nat.le_trans hlow h₁, Nat.lt_of_lt_of_le h₂ hhigh⟩

/-- Exchanging two entries of the segment. -/
theorem swap (f : ℕ → α) (hi : low ≤ i ∧ i < high) (hj : low ≤ j ∧ j < high) :
    Rearranges low high f (f ∘ Equiv.swap i j) := by
  refine ⟨Equiv.swap i j, fun k hk => Equiv.swap_apply_of_ne_of_ne ?_ ?_, rfl⟩
  · rintro rfl
    exact hk hi
  · rintro rfl
    exact hk hj

/-- Outside of the segment nothing moves. -/
theorem outside (hfg : Rearranges low high f g) (hi : ¬ (low ≤ i ∧ i < high)) : g i = f i := by
  obtain ⟨σ, hσ, rfl⟩ := hfg
  rw [Function.comp_apply, hσ i hi]

/-- An entry of the segment was an entry of the segment before. -/
theorem exists_eq (hfg : Rearranges low high f g) (hi : low ≤ i ∧ i < high) :
    ∃ j, (low ≤ j ∧ j < high) ∧ g i = f j := by
  obtain ⟨σ, hσ, rfl⟩ := hfg
  refine ⟨σ i, ?_, rfl⟩
  by_contra hout
  -- a fixed point outside of the segment has no other preimage
  have hfixed := σ.injective (hσ (σ i) hout)
  rw [hfixed] at hout
  exact hout hi

/-- What holds of all entries of the segment holds of them in another order. -/
theorem forall_mem {P : α → Prop} (hfg : Rearranges low high f g)
    (hf : ∀ i, low ≤ i → i < high → P (f i)) : ∀ i, low ≤ i → i < high → P (g i) := by
  intro i hlow hhigh
  obtain ⟨j, hj, hij⟩ := hfg.exists_eq ⟨hlow, hhigh⟩
  rw [hij]
  exact hf j hj.1 hj.2

/-- As lists the tables are permutations of each other. -/
theorem perm (hfg : Rearranges low high f g) {n : ℕ} (hn : high ≤ n) :
    ((List.range n).map g).Perm ((List.range n).map f) := by
  obtain ⟨σ, hσ, rfl⟩ := hfg
  rw [← List.map_map]
  refine List.Perm.map f ?_
  refine (List.perm_ext_iff_of_nodup (List.Nodup.map σ.injective List.nodup_range)
    List.nodup_range).mpr ?_
  have hlt : ∀ i, i < n → σ i < n := by
    intro i hi
    by_contra hge
    have hfixed := σ.injective (hσ (σ i) fun ⟨_, h⟩ => hge (Nat.lt_of_lt_of_le h hn))
    rw [hfixed] at hge
    exact hge hi
  intro i
  rw [List.mem_map, List.mem_range]
  constructor
  · rintro ⟨j, hj, rfl⟩
    exact hlt j (List.mem_range.mp hj)
  · intro hi
    refine ⟨σ.symm i, List.mem_range.mpr ?_, σ.apply_symm_apply i⟩
    by_contra hge
    have hfixed := hσ (σ.symm i) fun ⟨_, h⟩ => hge (Nat.lt_of_lt_of_le h hn)
    rw [σ.apply_symm_apply] at hfixed
    rw [← hfixed] at hge
    exact hge hi

end Rearranges

/-! ### Sorted segments -/

/-- The entries of the segment stand in order. -/
def SortedOn (le : α → α → Prop) (low high : ℕ) (f : ℕ → α) : Prop :=
  ∀ i j, low ≤ i → i < j → j < high → le (f i) (f j)

theorem SortedOn.pairwise {le : α → α → Prop} {n : ℕ} (sorted : SortedOn le 0 n f) :
    ((List.range n).map f).Pairwise le := by
  rw [List.pairwise_map]
  refine List.Pairwise.imp_of_mem ?_ List.pairwise_lt_range
  intro i j _ hj hij
  exact sorted i j (Nat.zero_le i) hij (List.mem_range.mp hj)

/-- Two sorted segments of which the first is below the second. -/
theorem SortedOn.append {le : α → α → Prop} {middle : ℕ} (left : SortedOn le low middle f)
    (right : SortedOn le middle high f)
    (between : ∀ i j, low ≤ i → i < middle → middle ≤ j → j < high → le (f i) (f j)) :
    SortedOn le low high f := by
  intro i j hi hij hj
  by_cases hjm : j < middle
  · exact left i j hi hij hjm
  · by_cases him : i < middle
    · exact between i j hi him (Nat.le_of_not_lt hjm) hj
    · exact right i j (Nat.le_of_not_lt him) hij hj

end CLanguage.Lib
