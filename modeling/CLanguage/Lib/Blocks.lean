import Mathlib.Data.List.Forall2
import Mathlib.Data.List.Basic

/-!
# Values that are written as blocks

`Blocks R as ls` says that the list `ls` consists of one block for each value in
`as`, where `R a` are the blocks that stand for `a`. If a block can be told by its
first element (`Headed`), then the list can be divided at the start of a block
(`Blocks.split`), and two ways to read it have the same blocks (`Blocks.align`).
-/

namespace CLanguage.Lib

variable {α β γ : Type} {R : α → List γ → Prop} {S : β → List γ → Prop} {p : γ → Prop}
  {as : List α} {bs : List β} {ls ls' : List γ}

/-- The list is a sequence of blocks, one for each value. -/
inductive Blocks (R : α → List γ → Prop) : List α → List γ → Prop
  | nil : Blocks R [] []
  | cons {a : α} {as : List α} {ls ls' : List γ} :
      R a ls → Blocks R as ls' → Blocks R (a :: as) (ls ++ ls')

/-- Every block starts with `p`, and nothing else in a block has `p`. -/
def Headed (p : γ → Prop) (R : α → List γ → Prop) : Prop :=
  ∀ a ls, R a ls → ∃ l ls', ls = l :: ls' ∧ p l ∧ ∀ m ∈ ls', ¬ p m

/-- Where the first element with `p` is, a list is divided in one way only. -/
theorem append_inj_of_head {more more' : List γ} (h : ls ++ more = ls' ++ more')
    (hls : ∀ l ∈ ls, ¬ p l) (hls' : ∀ l ∈ ls', ¬ p l) (hmore : ∀ l ∈ more.head?, p l)
    (hmore' : ∀ l ∈ more'.head?, p l) : ls = ls' ∧ more = more' := by
  rcases List.append_eq_append_iff.mp h with ⟨u, rfl, rfl⟩ | ⟨u, rfl, rfl⟩
  · cases u with
    | nil => exact ⟨(List.append_nil ls).symm, rfl⟩
    | cons l u => exact absurd (hmore l rfl) (hls' l (List.mem_append_right _ List.mem_cons_self))
  · cases u with
    | nil => exact ⟨List.append_nil ls', rfl⟩
    | cons l u => exact absurd (hmore' l rfl) (hls l (List.mem_append_right _ List.mem_cons_self))

namespace Blocks

theorem append {as' : List α} (h : Blocks R as ls) (h' : Blocks R as' ls') :
    Blocks R (as ++ as') (ls ++ ls') := by
  induction h with
  | nil => exact h'
  | cons hblock _ ih =>
    rw [List.cons_append, List.append_assoc]
    exact .cons hblock ih

theorem forall_mem (h : Blocks R as ls) (hR : ∀ a ls, R a ls → ∀ l ∈ ls, p l) : ∀ l ∈ ls, p l := by
  induction h with
  | nil => exact fun l hl => absurd hl List.not_mem_nil
  | cons hblock _ ih =>
    intro l hl
    rcases List.mem_append.mp hl with hl | hl
    · exact hR _ _ hblock l hl
    · exact ih l hl

/-- Blocks of one element each. -/
theorem forall₂ {T : α → γ → Prop} (h : Blocks R as ls) (hR : ∀ a ls, R a ls → ∃ l, ls = [l] ∧ T a l) :
    List.Forall₂ T as ls := by
  induction h with
  | nil => exact .nil
  | cons hblock _ ih =>
    obtain ⟨l, rfl, hl⟩ := hR _ _ hblock
    exact .cons hl ih

theorem of_forall₂ {T : α → γ → Prop} (h : List.Forall₂ T as ls) (hT : ∀ a l, T a l → R a [l]) :
    Blocks R as ls := by
  induction h with
  | nil => exact .nil
  | cons hl _ ih => exact .cons (hT _ _ hl) ih

/-- What stands for each block, element by element. -/
theorem forall₂_flatMap {T : β → γ → Prop} {f : α → List β} (h : Blocks R as ls)
    (hR : ∀ a ls, R a ls → List.Forall₂ T (f a) ls) : List.Forall₂ T (as.flatMap f) ls := by
  induction h with
  | nil => exact .nil
  | cons hblock _ ih =>
    rw [List.flatMap_cons]
    exact List.rel_append (hR _ _ hblock) ih

/-- The block of one of the values. -/
theorem exists_block (h : Blocks R as ls) {a : α} (ha : a ∈ as) : ∃ block, R a block ∧ block ⊆ ls := by
  induction h with
  | nil => exact absurd ha List.not_mem_nil
  | @cons b as block more hblock _ ih =>
    rcases List.mem_cons.mp ha with rfl | ha
    · exact ⟨block, hblock, List.subset_append_left _ _⟩
    · obtain ⟨block', hblock', hsub⟩ := ih ha
      exact ⟨block', hblock', List.subset_append_of_subset_right _ hsub⟩

/-- Blocks for what the values are mapped to. -/
theorem map_left {f : β → α} {bs : List β} (h : Blocks (fun b => R (f b)) bs ls) :
    Blocks R (bs.map f) ls := by
  induction h with
  | nil => exact .nil
  | cons hblock _ ih => exact .cons hblock ih

theorem head (h : Blocks R as ls) (hR : Headed p R) : ∀ l ∈ ls.head?, p l := by
  cases h with
  | nil => exact fun l hl => absurd hl nofun
  | cons hblock _ =>
    obtain ⟨l, ls', rfl, hl, -⟩ := hR _ _ hblock
    rintro m hm
    rwa [← Option.some.inj hm]

/-- The list can be divided where a block starts. -/
theorem split (h : Blocks R as (ls ++ ls')) (hR : Headed p R) (hstart : ∀ l ∈ ls'.head?, p l) :
    ∃ as₁ as₂, as = as₁ ++ as₂ ∧ Blocks R as₁ ls ∧ Blocks R as₂ ls' := by
  induction as generalizing ls with
  | nil =>
    generalize hall : ls ++ ls' = all at h
    cases h
    obtain ⟨rfl, rfl⟩ := List.append_eq_nil_iff.mp hall
    exact ⟨[], [], rfl, .nil, .nil⟩
  | cons a as ih =>
    cases ls with
    | nil => exact ⟨[], a :: as, rfl, .nil, h⟩
    | cons l ls =>
      generalize hall : l :: ls ++ ls' = all at h
      cases h with
      | @cons _ _ block more hblock hmore =>
        obtain ⟨m, block', rfl, hm, hother⟩ := hR _ _ hblock
        rw [List.cons_append, List.cons_append, List.cons_eq_cons] at hall
        obtain ⟨rfl, hall⟩ := hall
        rcases List.append_eq_append_iff.mp hall with ⟨u, rfl, hu⟩ | ⟨u, rfl, hu⟩
        · -- the division would lie inside of the block
          cases u with
          | nil =>
            rw [List.nil_append] at hu
            rw [List.append_nil] at hblock
            exact ⟨[a], as, rfl, by simpa using cons hblock nil, hu ▸ hmore⟩
          | cons v u =>
            rw [hu, List.cons_append, List.head?_cons] at hstart
            exact absurd (hstart v rfl) (hother v (List.mem_append_right _ List.mem_cons_self))
        · obtain ⟨as₁, as₂, rfl, h₁, h₂⟩ := ih (hu ▸ hmore)
          exact ⟨a :: as₁, as₂, rfl, .cons hblock h₁, h₂⟩

/-- One list, read in two ways, has the same blocks in both. -/
theorem align (h : Blocks R as ls) (h' : Blocks S bs ls) (hR : Headed p R) (hS : Headed p S) :
    List.Forall₂ (fun a b => ∃ block, R a block ∧ S b block) as bs := by
  induction h generalizing bs with
  | nil =>
    generalize hall : ([] : List γ) = all at h'
    cases h' with
    | nil => exact .nil
    | cons hblock _ =>
      obtain ⟨l, block, rfl, -⟩ := hS _ _ hblock
      exact absurd hall nofun
  | @cons a as block more hblock hmore ih =>
    obtain ⟨l, block, rfl, hl, hother⟩ := hR _ _ hblock
    generalize hall : l :: block ++ more = all at h'
    cases h' with
    | nil => exact absurd hall nofun
    | cons hblock' hmore' =>
      obtain ⟨l', block', rfl, hl', hother'⟩ := hS _ _ hblock'
      rw [List.cons_append, List.cons_append, List.cons_eq_cons] at hall
      obtain ⟨rfl, hall⟩ := hall
      obtain ⟨rfl, rfl⟩ := append_inj_of_head hall hother hother' (hmore.head hR) (hmore'.head hS)
      exact .cons ⟨_, hblock, hblock'⟩ (ih hmore')

end Blocks

end CLanguage.Lib
