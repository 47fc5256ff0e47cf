import Mathlib.Data.Finset.Card
import Mathlib.Order.Defs.Unbundled

/-!
# Tables that grow

A table is a list whose entries keep their places. `Grows R as bs` says that every entry
of `as` is still at its place in `bs` and has moved along `R`; entries may have been
added. Along a reflexive and transitive `R` this composes, so what one step does to a
table can be said of a whole run.
-/

namespace CLanguage.Lib

variable {α : Type*} {R : α → α → Prop} {as bs cs : List α} {a b : α} {i n : ℕ}

/-- Every entry of `as` is at its place in `bs`, moved along `R`. -/
def Grows (R : α → α → Prop) (as bs : List α) : Prop :=
  ∀ (i : ℕ) (a : α), as[i]? = some a → ∃ b, bs[i]? = some b ∧ R a b

theorem Grows.refl [Std.Refl R] (as : List α) : Grows R as as :=
  fun _ a ha => ⟨a, ha, refl_of R a⟩

theorem Grows.trans [IsTrans α R] (h : Grows R as bs) (h' : Grows R bs cs) : Grows R as cs := by
  intro i a ha
  obtain ⟨b, hb, hab⟩ := h i a ha
  obtain ⟨c, hc, hbc⟩ := h' i b hb
  exact ⟨c, hc, trans_of R hab hbc⟩

/-- New entries are added behind the old ones. -/
theorem Grows.append [Std.Refl R] (as bs : List α) : Grows R as (as ++ bs) := fun i a ha =>
  ⟨a, by rwa [List.getElem?_append_left (List.getElem?_eq_some_iff.mp ha).1], refl_of R a⟩

theorem Grows.map {f : α → α} (h : ∀ a ∈ as, R a (f a)) : Grows R as (as.map f) := fun i a ha =>
  ⟨f a, by rw [List.getElem?_map, ha, Option.map_some], h a (List.mem_of_getElem? ha)⟩

/-- One entry is replaced. -/
theorem Grows.set [Std.Refl R] (ha : as[i]? = some a) (h : R a b) : Grows R as (as.set i b) := by
  intro k c hc
  obtain ⟨hlt, -⟩ := List.getElem?_eq_some_iff.mp ha
  by_cases hk : i = k
  · subst hk
    obtain rfl := Option.some.inj (ha.symm.trans hc)
    exact ⟨b, List.getElem?_set_self hlt, h⟩
  · exact ⟨c, (List.getElem?_set_ne hk).trans hc, refl_of R c⟩

/-- One entry is modified. -/
theorem Grows.modify [Std.Refl R] {f : α → α} (ha : as[i]? = some a) (h : R a (f a)) :
    Grows R as (as.modify i f) := by
  intro k c hc
  by_cases hk : i = k
  · subst hk
    obtain rfl := Option.some.inj (ha.symm.trans hc)
    exact ⟨f a, (List.getElem?_modify_eq f i as).trans (congrArg (Option.map f) ha), h⟩
  · exact ⟨c, (List.getElem?_modify_ne f as hk).trans hc, refl_of R c⟩

/-! ### Counting entries -/

/-- The entries that satisfy `p`, counted by their places. -/
theorem countP_eq_card (p : α → Bool) (as : List α) :
    as.countP p = {i ∈ Finset.range as.length | as[i]?.any p}.card := by
  induction as using List.reverseRecOn with
  | nil => rfl
  | append_singleton as a ih =>
    have hsame : {i ∈ Finset.range as.length | (as ++ [a])[i]?.any p} =
        {i ∈ Finset.range as.length | as[i]?.any p} := by
      apply Finset.filter_congr
      intro i hi
      rw [List.getElem?_append_left (Finset.mem_range.mp hi)]
    rw [List.countP_append, ih, List.length_append, List.length_singleton, Finset.range_add_one,
      Finset.filter_insert, hsame, List.getElem?_append_right le_rfl, Nat.sub_self]
    cases hp : p a with
    | true => simp [hp]
    | false => simp [hp]

/-- Entries that satisfy `p` and can be told apart by numbers below `n` are at most `n`. -/
theorem countP_le {p : α → Bool} (f : ℕ → ℕ)
    (lt : ∀ (i : ℕ) (a : α), as[i]? = some a → p a = true → f i < n)
    (inj : ∀ (i k : ℕ) (a b : α), as[i]? = some a → as[k]? = some b → p a = true → p b = true →
      f i = f k → i = k) : as.countP p ≤ n := by
  have hentry : ∀ i : ℕ, as[i]?.any p = true → ∃ a, as[i]? = some a ∧ p a = true := fun i hi =>
    (Option.any_eq_true p _).mp hi
  rw [countP_eq_card, ← Finset.card_range n]
  refine Finset.card_le_card_of_injOn f (fun i hi => ?_) fun i hi k hk heq => ?_
  · obtain ⟨a, ha, hp⟩ := hentry i (Finset.mem_filter.mp hi).2
    exact Finset.mem_coe.mpr (Finset.mem_range.mpr (lt i a ha hp))
  · obtain ⟨a, ha, hp⟩ := hentry i (Finset.mem_filter.mp hi).2
    obtain ⟨b, hb, hq⟩ := hentry k (Finset.mem_filter.mp hk).2
    exact inj i k a b ha hb hp hq heq

end CLanguage.Lib
