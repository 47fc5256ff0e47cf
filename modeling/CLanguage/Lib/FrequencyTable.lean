import Mathlib.Algebra.BigOperators.Group.List.Basic
import Mathlib.Algebra.GroupWithZero.Nat
import Mathlib.Data.List.Induction
import Mathlib.Order.Lattice

/-!
# Frequency tables

A table of the different values of a list, in increasing order, each with the number of
times it occurs. `countValue` puts one more value into a table, by a walk along it. The
invariant `IsTable` states the contents of a table for every predicate at once
(`IsTable.weight`), since this is what a single step preserves without a look at the order;
counts, totals and cumulated counts are then the contents for special predicates.
-/

namespace CLanguage.Lib

variable {α : Type*} {x : α} {xs : List α} {b : α × ℕ} {bs l r : List (α × ℕ)} {p : α → Bool}

/-- How many of the values in a table have a property. -/
def weight (p : α → Bool) (bs : List (α × ℕ)) : ℕ :=
  (bs.map fun b => if p b.1 then b.2 else 0).sum

theorem weight_cons (p : α → Bool) (b : α × ℕ) (bs : List (α × ℕ)) :
    weight p (b :: bs) = (if p b.1 then b.2 else 0) + weight p bs := by
  rw [weight, List.map_cons, List.sum_cons, weight]

theorem weight_append (p : α → Bool) (l r : List (α × ℕ)) :
    weight p (l ++ r) = weight p l + weight p r := by
  rw [weight, List.map_append, List.sum_append, weight, weight]

theorem weight_of_forall (h : ∀ b ∈ bs, p b.1) : weight p bs = (bs.map Prod.snd).sum :=
  congrArg List.sum (List.map_congr_left fun b hb => if_pos (h b hb))

theorem weight_of_forall_not (h : ∀ b ∈ bs, ¬ p b.1) : weight p bs = 0 :=
  List.sum_eq_zero fun n hn => by
    obtain ⟨b, hb, rfl⟩ := List.mem_map.mp hn
    exact if_neg (h b hb)

variable [LinearOrder α]

/-- A table with one more value: in its bucket, or in a new bucket before the first greater one. -/
def countValue (x : α) : List (α × ℕ) → List (α × ℕ)
  | [] => [(x, 1)]
  | b :: bs =>
    if b.1 = x then (b.1, b.2 + 1) :: bs
    else if x < b.1 then (x, 1) :: b :: bs
    else b :: countValue x bs

theorem weight_countValue (p : α → Bool) (x : α) (bs : List (α × ℕ)) :
    weight p (countValue x bs) = weight p bs + if p x then 1 else 0 := by
  induction bs with
  | nil => rw [countValue, weight_cons, Nat.add_comm]
  | cons b bs ih =>
    rw [countValue]
    split
    · next heq =>
      subst heq
      rw [weight_cons, weight_cons]
      split
      · omega
      · omega
    · split
      · rw [weight_cons, Nat.add_comm]
      · rw [weight_cons, weight_cons, ih, Nat.add_assoc]

theorem mem_countValue (h : b ∈ countValue x bs) : b.1 = x ∨ ∃ c ∈ bs, c.1 = b.1 := by
  induction bs with
  | nil =>
    obtain rfl := List.mem_singleton.mp h
    exact .inl rfl
  | cons c bs ih =>
    rw [countValue] at h
    split at h
    · obtain rfl | h := List.mem_cons.mp h
      · exact .inr ⟨c, List.mem_cons_self, rfl⟩
      · exact .inr ⟨b, List.mem_cons_of_mem c h, rfl⟩
    · split at h
      · obtain rfl | h := List.mem_cons.mp h
        · exact .inl rfl
        · exact .inr ⟨b, h, rfl⟩
      · obtain rfl | h := List.mem_cons.mp h
        · exact .inr ⟨b, List.mem_cons_self, rfl⟩
        · obtain h | ⟨d, hd, hdb⟩ := ih h
          · exact .inl h
          · exact .inr ⟨d, List.mem_cons_of_mem c hd, hdb⟩

/-- The values of the buckets increase. -/
def Increasing (bs : List (α × ℕ)) : Prop := bs.Pairwise fun b c => b.1 < c.1

theorem Increasing.countValue (h : Increasing bs) (x : α) : Increasing (countValue x bs) := by
  induction bs with
  | nil => exact List.pairwise_singleton _ _
  | cons b bs ih =>
    obtain ⟨hb, hbs⟩ := List.pairwise_cons.mp h
    rw [Lib.countValue]
    split
    · exact List.pairwise_cons.mpr ⟨hb, hbs⟩
    · next hne =>
      split
      · next hlt =>
        refine List.pairwise_cons.mpr ⟨fun c hc => ?_, h⟩
        obtain rfl | hc := List.mem_cons.mp hc
        · exact hlt
        · exact hlt.trans (hb c hc)
      · next hge =>
        refine List.pairwise_cons.mpr ⟨fun c hc => ?_, ih hbs⟩
        obtain hcx | ⟨d, hd, hdc⟩ := mem_countValue hc
        · rw [hcx]
          exact lt_of_le_of_ne (not_lt.mp hge) hne
        · rw [← hdc]
          exact hb d hd

/-- `bs` is the frequency table of the values `xs`. -/
structure IsTable (bs : List (α × ℕ)) (xs : List α) : Prop where
  increasing : Increasing bs
  positive : ∀ b ∈ bs, 0 < b.2
  weight : ∀ p, weight p bs = xs.countP p

namespace IsTable

theorem nil : IsTable ([] : List (α × ℕ)) [] := ⟨List.Pairwise.nil, nofun, fun _ => rfl⟩

theorem countValue (h : IsTable bs xs) (x : α) : IsTable (countValue x bs) (xs ++ [x]) := by
  refine ⟨h.increasing.countValue x, ?_, fun p => ?_⟩
  · have hpositive := h.positive
    clear h
    induction bs with
    | nil => exact List.forall_mem_singleton.mpr Nat.one_pos
    | cons b bs ih =>
      obtain ⟨hb, hbs⟩ := List.forall_mem_cons.mp hpositive
      rw [Lib.countValue]
      split
      · exact List.forall_mem_cons.mpr ⟨Nat.succ_pos _, hbs⟩
      · split
        · exact List.forall_mem_cons.mpr ⟨Nat.one_pos, hpositive⟩
        · exact List.forall_mem_cons.mpr ⟨hb, ih hbs⟩
  · rw [weight_countValue, h.weight, List.countP_append, List.countP_singleton]

/-- The table that a list of values leaves, counted one after the other. -/
theorem foldl (xs : List α) : IsTable (xs.foldl (fun bs x => Lib.countValue x bs) []) xs := by
  induction xs using List.reverseRecOn with
  | nil => exact nil
  | append_singleton xs x ih =>
    rw [List.foldl_append]
    exact ih.countValue x

/-! ### What is read from a table -/

theorem total (h : IsTable bs xs) : (bs.map Prod.snd).sum = xs.length := by
  rw [← weight_of_forall (p := fun _ => true) fun _ _ => rfl, h.weight, List.countP_true]

theorem before (h : IsTable (l ++ b :: r) xs) : ∀ c ∈ l, c.1 < b.1 :=
  fun c hc => (List.pairwise_append.mp h.increasing).2.2 c hc b List.mem_cons_self

theorem behind (h : IsTable (l ++ b :: r) xs) : ∀ c ∈ r, b.1 < c.1 :=
  (List.pairwise_cons.mp (List.pairwise_append.mp h.increasing).2.1).1

theorem sum_before (h : IsTable (l ++ b :: r) xs) :
    (l.map Prod.snd).sum = xs.countP (· < b.1) := by
  have hl : ∀ c ∈ l, decide (c.1 < b.1) = true := fun c hc => decide_eq_true (h.before c hc)
  have hr : ∀ c ∈ b :: r, ¬ decide (c.1 < b.1) = true := by
    refine List.forall_mem_cons.mpr ⟨?_, fun c hc => ?_⟩
    · simp
    · simpa using (h.behind c hc).le
  rw [← h.weight, weight_append, weight_of_forall hl, weight_of_forall_not hr, Nat.add_zero]

theorem sum_upto (h : IsTable (l ++ b :: r) xs) :
    (l.map Prod.snd).sum + b.2 = xs.countP (· ≤ b.1) := by
  have hl : ∀ c ∈ l, decide (c.1 ≤ b.1) = true := fun c hc => decide_eq_true (h.before c hc).le
  have hr : ∀ c ∈ r, ¬ decide (c.1 ≤ b.1) = true := fun c hc => by simpa using h.behind c hc
  rw [← h.weight, weight_append, weight_cons, if_pos (decide_eq_true le_rfl), weight_of_forall hl,
    weight_of_forall_not hr, Nat.add_zero]

theorem count (h : IsTable (l ++ b :: r) xs) : b.2 = xs.count b.1 := by
  have hl : ∀ c ∈ l, ¬ (c.1 == b.1) = true := fun c hc => by simpa using (h.before c hc).ne
  have hr : ∀ c ∈ r, ¬ (c.1 == b.1) = true := fun c hc => by simpa using (h.behind c hc).ne'
  rw [List.count, ← h.weight, weight_append, weight_cons, if_pos (beq_self_eq_true b.1),
    weight_of_forall_not hl, weight_of_forall_not hr, Nat.zero_add, Nat.add_zero]

/-- Every value has a bucket. -/
theorem exists_of_mem (h : IsTable bs xs) (hx : x ∈ xs) : ∃ b ∈ bs, b.1 = x := by
  by_contra hnone
  have hno : ∀ b ∈ bs, ¬ (b.1 == x) = true := fun b hb => by
    simpa using fun hbx => hnone ⟨b, hb, hbx⟩
  have hcount : xs.count x = 0 := (h.weight (· == x)).symm.trans (weight_of_forall_not hno)
  exact List.count_eq_zero.mp hcount hx

/-- Every bucket belongs to a value. -/
theorem mem_of_mem (h : IsTable bs xs) (hb : b ∈ bs) : b.1 ∈ xs := by
  have hpositive := h.positive b hb
  obtain ⟨l, r, rfl⟩ := List.append_of_mem hb
  rw [h.count] at hpositive
  exact List.count_pos_iff.mp hpositive

end IsTable

end CLanguage.Lib
