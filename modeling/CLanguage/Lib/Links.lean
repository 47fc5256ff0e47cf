import Mathlib.Data.List.Nodup

/-!
# Linked lists that end in a null pointer

`Links next head l` says that following `next` from `head` visits the nodes `l` and then
ends. The links are an arbitrary function, so that the lemmas apply to any memory. The
nodes are determined by the links (`Links.unique`) and are all different (`Links.nodup`).
-/

namespace CLanguage.Lib

variable {α : Type*} {next next' : α → Option α} {head : Option α} {l l' : List α} {p : α}

/-- Following `next` from `head` visits the nodes `l`. -/
def Links (next : α → Option α) : Option α → List α → Prop
  | head, [] => head = none
  | head, p :: l => head = some p ∧ Links next (next p) l

/-- The nodes from `head` on, as a loop with at most `fuel` tests finds them. -/
def follow (next : α → Option α) : ℕ → Option α → Option (List α)
  | 0, _ => none
  | _ + 1, none => some []
  | fuel + 1, some p => (follow next fuel (next p)).map (p :: ·)

namespace Links

theorem unique (h : Links next head l) (h' : Links next head l') : l = l' := by
  induction l generalizing head l' with
  | nil =>
    obtain rfl : head = none := h
    cases l' with
    | nil => rfl
    | cons p l' => exact absurd h'.1 nofun
  | cons p l ih =>
    obtain ⟨rfl, hrest⟩ := h
    cases l' with
    | nil => exact absurd h' nofun
    | cons q l' =>
      obtain ⟨hq, hrest'⟩ := h'
      obtain rfl := Option.some.inj hq
      rw [ih hrest hrest']

/-- The nodes from a node of the list on. -/
theorem of_mem (h : Links next head l) (hp : p ∈ l) :
    ∃ a b, l = a ++ p :: b ∧ Links next (some p) (p :: b) := by
  induction l generalizing head with
  | nil => exact absurd hp List.not_mem_nil
  | cons q l ih =>
    obtain ⟨rfl, hrest⟩ := h
    obtain rfl | hp := List.mem_cons.mp hp
    · exact ⟨[], l, rfl, rfl, hrest⟩
    · obtain ⟨a, b, rfl, hlinks⟩ := ih hrest hp
      exact ⟨q :: a, b, rfl, hlinks⟩

/-- A list that ends visits no node twice. -/
theorem nodup (h : Links next head l) : l.Nodup := by
  induction l generalizing head with
  | nil => exact List.nodup_nil
  | cons p l ih =>
    refine List.nodup_cons.mpr ⟨fun hp => ?_, ih h.2⟩
    -- from the second visit of `p` on the list would be as long as from the first
    obtain ⟨a, b, hl, hlinks⟩ := h.2.of_mem hp
    have hfirst : Links next (some p) (p :: l) := ⟨rfl, h.2⟩
    have hsame := congrArg List.length (hlinks.unique hfirst)
    rw [hl] at hsame
    simp only [List.length_cons, List.length_append] at hsame
    omega

/-- The list depends on the links of its nodes only. -/
theorem congr (h : Links next head l) (same : ∀ p ∈ l, next' p = next p) : Links next' head l := by
  induction l generalizing head with
  | nil => exact h
  | cons p l ih =>
    refine ⟨h.1, ?_⟩
    rw [same p List.mem_cons_self]
    exact ih h.2 fun q hq => same q (List.mem_cons_of_mem p hq)

/-- Another node behind the last one. -/
theorem snoc {q : α} (h : Links next head (l ++ [p])) (hp : next' p = some q)
    (hq : next' q = none) (same : ∀ r ∈ l, next' r = next r) :
    Links next' head (l ++ [p] ++ [q]) := by
  induction l generalizing head with
  | nil => exact ⟨h.1, hp, hq⟩
  | cons r l ih =>
    refine ⟨h.1, ?_⟩
    rw [same r List.mem_cons_self]
    exact ih h.2 fun t ht => same t (List.mem_cons_of_mem r ht)

theorem follow_eq (h : Links next head l) {fuel : ℕ} (enough : l.length < fuel) :
    follow next fuel head = some l := by
  induction l generalizing head fuel with
  | nil =>
    obtain rfl : head = none := h
    cases fuel with
    | zero => exact absurd enough (Nat.not_lt_zero _)
    | succ fuel => rfl
  | cons p l ih =>
    obtain ⟨rfl, hrest⟩ := h
    cases fuel with
    | zero => exact absurd enough (Nat.not_lt_zero _)
    | succ fuel => rw [follow, ih hrest (Nat.lt_of_succ_lt_succ enough), Option.map_some]

end Links

end CLanguage.Lib
