import CLanguage.Lib.Links
import CLanguage.Lib.Segment
import CLanguage.Grades.Students

/-!
# Sorting tables of students

`sorttable` is a quicksort on a table of pointers. A part of the table that is put on the
low end entirely, or on the high end entirely, is sorted again as a whole, so it is not
plain that the recursion ends. `partition` never puts everything on the low end, because
the first entry equal to the pivot goes to the high end. It puts everything on the high
end only if the pivot is the one least entry. Then it has turned the part by one place,
so that the next pivot is another entry and the least entry goes to the low end
(`partition_again`).
-/

namespace CLanguage.Grades

open CLanguage.Lib

/-! ### The source -/

/-- The exchange of two entries. -/
def exchange {α : Type} (stab : ℕ → α) (i j : ℕ) : ℕ → α := stab ∘ Equiv.swap i j

variable {α : Type}

/-- The loop of `partition` on `n` entries from `l` on, that is with `h = l + n`. The flag is
`alt > 0`. -/
def partitionLoop (compare : α → α → ℤ) (pivot : α) : ℕ → (ℕ → α) → ℕ → Bool → (ℕ → α) × ℕ
  | 0, stab, l, _ => (stab, l)
  | n + 1, stab, l, alt =>
    let c := compare (stab l) pivot
    if 0 < c ∨ (c = 0 ∧ alt = true) then
      -- put on high end
      partitionLoop compare pivot n (exchange stab (l + n) l) l (if c = 0 then !alt else alt)
    else
      -- put on low end
      partitionLoop compare pivot n stab (l + 1) (if c = 0 then !alt else alt)

/-- `partition` -/
def partition (compare : α → α → ℤ) (stab : ℕ → α) (low high : ℕ) : (ℕ → α) × ℕ :=
  partitionLoop compare (stab ((low + high) / 2)) (high - low) stab low true

/-- `sorttable`, for at most `fuel` nested calls. -/
def sorttable (compare : α → α → ℤ) : ℕ → (ℕ → α) → ℕ → ℕ → Option (ℕ → α)
  | 0, _, _, _ => none
  | fuel + 1, stab, low, high =>
    if low = high then some stab
    else
      let (stab, middle) := partition compare stab low high
      if low + 1 = high then some stab
      else do
        let stab ← sorttable compare fuel stab low middle
        sorttable compare fuel stab middle high

/-- The students of the table in order, linked by `stnxt`. -/
def relink (stnxt : Rosters → ℕ → Option ℕ → Rosters) : Rosters → List ℕ → Rosters
  | m, [] => m
  | m, [sp] => stnxt m sp none
  | m, sp :: s :: rest => relink stnxt (stnxt m sp (some s)) (s :: rest)

/-- `sortroster`. The table is filled from its end. -/
def sortroster (gtnxt : Rosters → ℕ → Option ℕ) (stnxt : Rosters → ℕ → Option ℕ → Rosters)
    (compare : Student → Student → ℤ) (fuel : ℕ) (m : Rosters) (s : Option ℕ) :
    Option (Rosters × Option ℕ) := do
  let students ← follow (gtnxt m) fuel s
  let count := students.length
  if count = 0 then return (m, none)
  let stab := fun i => students.reverse.getD i 0
  let stab ← sorttable (fun p q => compare (m.student p) (m.student q)) fuel stab 0 count
  let sorted := (List.range count).map stab
  return (relink stnxt m sorted, sorted.head?)

/-- The loop of `sortrosters` over the sections. -/
def sortsections (compare : Student → Student → ℤ) (fuel : ℕ) :
    Rosters → List (Option ℕ) → Option (Rosters × List (Option ℕ))
  | m, [] => some (m, [])
  | m, s :: sections => do
    let (m, s) ← sortroster getnext setnext compare fuel m s
    let (m, sections) ← sortsections compare fuel m sections
    return (m, s :: sections)

/-- `sortrosters` -/
def sortrosters (compare : Student → Student → ℤ) (fuel : ℕ) (c : Rosters) : Option Rosters := do
  let (m, roster) ← sortroster getcnext setcnext compare fuel c c.roster
  let (m, sections) ← sortsections compare fuel m c.sections
  return { m with roster := roster, sections := sections }

/-! ### Partition -/

variable {compare : α → α → ℤ} {pivot : α} {stab stab' : ℕ → α} {l m n low high : ℕ} {alt : Bool}

/-- The entries of a part: two of them, and those that the loop looks at after the exchange. -/
theorem rearranges_exchange (stab : ℕ → α) (l n : ℕ) :
    Rearranges l (l + (n + 1)) stab (exchange stab (l + n) l) :=
  Rearranges.swap stab ⟨Nat.le_add_right l n, by omega⟩ ⟨Nat.le_refl l, by omega⟩

theorem exchange_left (stab : ℕ → α) (i j : ℕ) : exchange stab i j i = stab j :=
  congrArg stab (Equiv.swap_apply_left i j)

theorem exchange_right (stab : ℕ → α) (i j : ℕ) : exchange stab i j j = stab i :=
  congrArg stab (Equiv.swap_apply_right i j)

theorem exchange_of_ne {i j k : ℕ} (hi : k ≠ i) (hj : k ≠ j) : exchange stab i j k = stab k :=
  congrArg stab (Equiv.swap_apply_of_ne_of_ne hi hj)

/-- What the loop does: it moves the entries within the part, those up to the place that it returns
are not above the pivot and the others are not below. -/
theorem partitionLoop_spec (compare : α → α → ℤ) (pivot : α) (n : ℕ) (stab : ℕ → α) (l : ℕ)
    (alt : Bool) {r : (ℕ → α) × ℕ} (h : partitionLoop compare pivot n stab l alt = r) :
    Rearranges l (l + n) stab r.1 ∧ l ≤ r.2 ∧ r.2 ≤ l + n ∧
      (∀ i, l ≤ i → i < r.2 → compare (r.1 i) pivot ≤ 0) ∧
      ∀ i, r.2 ≤ i → i < l + n → 0 ≤ compare (r.1 i) pivot := by
  induction n generalizing stab l alt with
  | zero =>
    obtain rfl : r = (stab, l) := h.symm
    exact ⟨.refl _ _ _, Nat.le_refl l, Nat.le_refl l, fun i h₁ h₂ => absurd h₂ (by omega),
      fun i h₁ h₂ => absurd h₂ (by omega)⟩
  | succ n ih =>
    rw [partitionLoop] at h
    split at h
    · next hc =>
      -- the entry goes to the end of the part, where the loop does not come any more
      obtain ⟨hmoved, hl, hm, hlow, hhigh⟩ := ih _ _ _ h
      refine ⟨(rearranges_exchange stab l n).trans (hmoved.mono (Nat.le_refl l) (by omega)), hl,
        by omega, hlow, fun i h₁ h₂ => ?_⟩
      by_cases hi : i < l + n
      · exact hhigh i h₁ hi
      · obtain rfl : i = l + n := by omega
        rw [hmoved.outside (by omega), exchange_left]
        omega
    · next hc =>
      obtain ⟨hmoved, hl, hm, hlow, hhigh⟩ := ih _ _ _ h
      refine ⟨hmoved.mono (by omega) (by omega), by omega, by omega, fun i h₁ h₂ => ?_,
        fun i h₁ h₂ => hhigh i h₁ (by omega)⟩
      by_cases hi : l + 1 ≤ i
      · exact hlow i hi h₂
      · obtain rfl : i = l := by omega
        rw [hmoved.outside (by omega)]
        omega

/-- If an entry is not below the pivot, something is put on the high end. -/
theorem partitionLoop_lt (h : ∃ i, l ≤ i ∧ i < l + n ∧ 0 ≤ compare (stab i) pivot) :
    (partitionLoop compare pivot n stab l true).2 < l + n := by
  induction n generalizing stab l with
  | zero =>
    obtain ⟨i, h₁, h₂, -⟩ := h
    omega
  | succ n ih =>
    rw [partitionLoop]
    split
    · exact Nat.lt_of_le_of_lt (partitionLoop_spec compare pivot n _ l _ rfl).2.2.1 (by omega)
    · next hc =>
      obtain ⟨i, h₁, h₂, hi⟩ := h
      -- the first entry is below the pivot, so it is another one
      have hne : i ≠ l := by
        rintro rfl
        exact hc ((Int.lt_or_eq_of_le hi).imp_right fun hzero => ⟨hzero.symm, rfl⟩)
      have hpos : ¬ compare (stab l) pivot = 0 := by
        intro hzero
        exact hc (.inr ⟨hzero, rfl⟩)
      rw [if_neg hpos]
      have hlow : (partitionLoop compare pivot n stab (l + 1) true).2 < l + 1 + n :=
        ih ⟨i, by omega, by omega, hi⟩
      omega

/-- If an entry is below the pivot, something is put on the low end. -/
theorem lt_partitionLoop (h : ∃ i, l ≤ i ∧ i < l + n ∧ compare (stab i) pivot < 0) :
    l < (partitionLoop compare pivot n stab l alt).2 := by
  induction n generalizing stab l alt with
  | zero =>
    obtain ⟨i, h₁, h₂, -⟩ := h
    omega
  | succ n ih =>
    rw [partitionLoop]
    split
    · next hc =>
      obtain ⟨i, h₁, h₂, hi⟩ := h
      have hne : i ≠ l := by
        rintro rfl
        omega
      -- the entry is still in the part, at its place or at the first one
      by_cases hlast : i = l + n
      · subst hlast
        refine ih ⟨l, Nat.le_refl l, by omega, ?_⟩
        rwa [exchange_right]
      · refine ih ⟨i, h₁, by omega, ?_⟩
        rwa [exchange_of_ne hlast hne]
    · exact Nat.lt_of_succ_le (partitionLoop_spec compare pivot n stab (l + 1) _ rfl).2.1

/-- If everything is put on the high end, the part is turned by one place. -/
theorem partitionLoop_turn (h : (partitionLoop compare pivot n stab l alt).2 = l) :
    (∀ i, l ≤ i → i + 1 < l + n →
      (partitionLoop compare pivot n stab l alt).1 i = stab (i + 1)) ∧
    (0 < n → (partitionLoop compare pivot n stab l alt).1 (l + n - 1) = stab l) := by
  induction n generalizing stab alt with
  | zero => exact ⟨fun i h₁ h₂ => absurd h₂ (by omega), fun h => absurd h (by omega)⟩
  | succ n ih =>
    rw [partitionLoop] at h ⊢
    split at h
    · next hc =>
      simp only [if_pos hc]
      obtain ⟨hturn, hlast⟩ := ih h
      have hmoved := (partitionLoop_spec compare pivot n (exchange stab (l + n) l) l
        (if compare (stab l) pivot = 0 then !alt else alt) rfl).1
      refine ⟨fun i h₁ h₂ => ?_, fun _ => ?_⟩
      · by_cases hi : i + 1 < l + n
        · rw [hturn i h₁ hi, exchange_of_ne (by omega) (by omega)]
        · -- the last entry of the part came to the first place, and from there to the end
          obtain rfl : i = l + n - 1 := by omega
          rw [hlast (by omega), exchange_right]
          congr 1
          omega
      · rw [show l + (n + 1) - 1 = l + n by omega, hmoved.outside (by omega), exchange_left]
    · have hspec := (partitionLoop_spec compare pivot n stab (l + 1)
        (if compare (stab l) pivot = 0 then !alt else alt) rfl).2.1
      omega

/-- The entries of a part, without the first one, are those that the loop goes on with. -/
theorem exists_exchange (stab : ℕ → α) {i : ℕ} (hi : l < i ∧ i < l + (n + 1)) :
    ∃ k, (l ≤ k ∧ k < l + n) ∧ exchange stab (l + n) l k = stab i ∧
      k = if i = l + n then l else i := by
  by_cases hlast : i = l + n
  · subst hlast
    exact ⟨l, ⟨Nat.le_refl l, by omega⟩, exchange_right stab _ _, (if_pos rfl).symm⟩
  · exact ⟨i, by omega, exchange_of_ne hlast (by omega), (if_neg hlast).symm⟩

/-- If everything is put on the high end and the next equal entry would go to the low end, then there
is no equal entry. -/
theorem partitionLoop_above_of_not_alt
    (h : (partitionLoop compare pivot n stab l false).2 = l) :
    ∀ i, l ≤ i → i < l + n → 0 < compare (stab i) pivot := by
  induction n generalizing stab with
  | zero => exact fun i h₁ h₂ => absurd h₂ (by omega)
  | succ n ih =>
    rw [partitionLoop] at h
    split at h
    · next hc =>
      have hpos : 0 < compare (stab l) pivot := hc.resolve_right fun h => nomatch h.2
      rw [if_neg (Int.ne_of_gt hpos)] at h
      intro i h₁ h₂
      obtain rfl | hlt := Nat.eq_or_lt_of_le h₁
      · exact hpos
      · obtain ⟨k, ⟨hk₁, hk₂⟩, hk, -⟩ := exists_exchange stab ⟨hlt, h₂⟩
        rw [← hk]
        exact ih h k hk₁ hk₂
    · have hspec := (partitionLoop_spec compare pivot n stab (l + 1)
        (if compare (stab l) pivot = 0 then !false else false) rfl).2.1
      omega

/-- If everything is put on the high end, at most one entry is not above the pivot. -/
theorem partitionLoop_above (h : (partitionLoop compare pivot n stab l true).2 = l) :
    ∀ i j, l ≤ i → i < l + n → l ≤ j → j < l + n → i ≠ j →
      0 < compare (stab i) pivot ∨ 0 < compare (stab j) pivot := by
  induction n generalizing stab with
  | zero => exact fun i j h₁ h₂ => absurd h₂ (by omega)
  | succ n ih =>
    rw [partitionLoop] at h
    split at h
    · next hc =>
      by_cases hzero : compare (stab l) pivot = 0
      · -- the first entry is equal, the others have to be above
        rw [if_pos hzero] at h
        have hrest := partitionLoop_above_of_not_alt h
        have habove : ∀ i, l < i → i < l + (n + 1) → 0 < compare (stab i) pivot := by
          intro i h₁ h₂
          obtain ⟨k, ⟨hk₁, hk₂⟩, hk, -⟩ := exists_exchange stab ⟨h₁, h₂⟩
          rw [← hk]
          exact hrest k hk₁ hk₂
        intro i j hi hi' hj hj' hne
        by_cases hil : i = l
        · exact .inr (habove j (by omega) hj')
        · exact .inl (habove i (by omega) hi')
      · rw [if_neg hzero] at h
        have hpos : 0 < compare (stab l) pivot := hc.resolve_right fun h => hzero h.1
        intro i j hi hi' hj hj' hne
        obtain rfl | hil := Nat.eq_or_lt_of_le hi
        · exact .inl hpos
        obtain rfl | hjl := Nat.eq_or_lt_of_le hj
        · exact .inr hpos
        obtain ⟨k, ⟨hk₁, hk₂⟩, hk, hki⟩ := exists_exchange stab ⟨hil, hi'⟩
        obtain ⟨k', ⟨hk₁', hk₂'⟩, hk', hkj⟩ := exists_exchange stab ⟨hjl, hj'⟩
        rw [← hk, ← hk']
        refine ih h k k' hk₁ hk₂ hk₁' hk₂' ?_
        rw [hki, hkj]
        split <;> split <;> omega
    · have hspec := (partitionLoop_spec compare pivot n stab (l + 1)
        (if compare (stab l) pivot = 0 then !true else true) rfl).2.1
      omega

/-! ### Parts that are sorted again -/

/-- The pivot of a part. -/
theorem middle_mem (h : low < high) : low ≤ (low + high) / 2 ∧ (low + high) / 2 < high := by
  omega

theorem partition_spec (order : Preorder3 compare) (stab : ℕ → α) (h : low < high)
    {r : (ℕ → α) × ℕ} (hr : partition compare stab low high = r) :
    Rearranges low high stab r.1 ∧ low ≤ r.2 ∧ r.2 < high ∧
      ∀ i j, low ≤ i → i < r.2 → r.2 ≤ j → j < high → compare (r.1 i) (r.1 j) ≤ 0 := by
  obtain ⟨hlow, hhigh⟩ := middle_mem h
  obtain ⟨n, rfl⟩ := Nat.exists_eq_add_of_le (Nat.le_of_lt h)
  have hn : low + n - low = n := Nat.add_sub_cancel_left low n
  rw [partition, hn] at hr
  obtain ⟨hmoved, hl, -, hbelow, habove⟩ := partitionLoop_spec compare _ n stab low true hr
  refine ⟨hmoved, hl, ?_, fun i j hi hi' hj hj' => ?_⟩
  · rw [← hr]
    exact partitionLoop_lt ⟨_, hlow, hhigh, Int.le_of_eq (order.refl _).symm⟩
  · exact order.trans _ _ _ (hbelow i hi hi') (order.le_of_nonneg (habove j hj hj'))

/-- When all entries went to the high end, they do not when the part is partitioned again. -/
theorem partition_again (order : Preorder3 compare) (h : low + 1 < high)
    (hr : partition compare stab low high = (stab', low)) :
    low < (partition compare stab' low high).2 := by
  obtain ⟨hlow, hhigh⟩ := middle_mem (Nat.lt_of_succ_lt h)
  obtain ⟨n, rfl⟩ := Nat.exists_eq_add_of_le (Nat.le_of_lt (Nat.lt_of_succ_lt h))
  have hn : low + n - low = n := Nat.add_sub_cancel_left low n
  have hpart : (partitionLoop compare (stab ((low + (low + n)) / 2)) n stab low true).2 = low := by
    rw [partition, hn] at hr
    rw [hr]
  have htab : (partitionLoop compare (stab ((low + (low + n)) / 2)) n stab low true).1 = stab' := by
    rw [partition, hn] at hr
    rw [hr]
  obtain ⟨hturn, hlast⟩ := partitionLoop_turn hpart
  rw [htab] at hturn hlast
  have hleast := partitionLoop_above hpart
  generalize hmid : (low + (low + n)) / 2 = mid at *
  -- the pivot is the least entry: every other entry is above it
  have hother : ∀ j, low ≤ j → j < low + n → j ≠ mid → compare (stab mid) (stab j) < 0 := by
    intro j hj hj' hne
    obtain hpos | hpos := hleast j mid hj hj' hlow hhigh hne
    · exact (order.swap _ _).mp hpos
    · rw [order.refl] at hpos
      exact absurd hpos (by omega)
  rw [partition, hn, hmid]
  refine lt_partitionLoop ?_
  by_cases hend : mid + 1 < low + n
  · -- the pivot moved down by one place
    rw [hturn mid hlow hend]
    refine ⟨mid - 1, ?_, by omega, ?_⟩
    · omega
    · rw [hturn (mid - 1) (by omega) (by omega), show mid - 1 + 1 = mid by omega]
      exact hother (mid + 1) (by omega) hend (by omega)
  · -- a part of two entries: they have changed places
    have hmid' : mid = low + n - 1 := by omega
    rw [hmid', hlast (by omega)]
    refine ⟨low, Nat.le_refl low, by omega, ?_⟩
    rw [hturn low (Nat.le_refl low) (by omega), show low + 1 = mid by omega]
    exact hother low (Nat.le_refl low) (by omega) (by omega)

/-! ### The quicksort -/

/-- The table `r` is `stab` with the part from `low` to `high` in order. -/
structure SortedPart (compare : α → α → ℤ) (low high : ℕ) (stab r : ℕ → α) : Prop where
  moved : Rearranges low high stab r
  sorted : SortedOn (fun a b => compare a b ≤ 0) low high r

/-- A part of at most one entry is in order. -/
theorem SortedPart.of_short (h : high ≤ low + 1) (moved : Rearranges low high stab stab') :
    SortedPart compare low high stab stab' :=
  ⟨moved, fun i j hi hij hj => absurd hj (by omega)⟩

/-- Both ends are sorted after a partition. -/
theorem SortedPart.join {middle : ℕ} {left right : ℕ → α} (hlow : low ≤ middle)
    (hhigh : middle ≤ high) (moved : Rearranges low high stab stab')
    (split : ∀ i j, low ≤ i → i < middle → middle ≤ j → j < high →
      compare (stab' i) (stab' j) ≤ 0)
    (hleft : SortedPart compare low middle stab' left)
    (hright : SortedPart compare middle high left right) :
    SortedPart compare low high stab right := by
  have hsame : ∀ i, i < middle → right i = left i := fun i hi =>
    hright.moved.outside (by omega)
  refine ⟨moved.trans ((hleft.moved.mono (Nat.le_refl low) hhigh).trans
    (hright.moved.mono hlow (Nat.le_refl high))), SortedOn.append ?_ hright.sorted ?_⟩
  · intro i j hi hij hj
    rw [hsame i (by omega), hsame j hj]
    exact hleft.sorted i j hi hij hj
  · intro i j hi hi' hj hj'
    obtain ⟨i₀, ⟨hi₀, hi₀'⟩, hi_eq⟩ := hleft.moved.exists_eq ⟨hi, hi'⟩
    obtain ⟨j₀, ⟨hj₀, hj₀'⟩, hj_eq⟩ := hright.moved.exists_eq ⟨hj, hj'⟩
    rw [hsame i hi', hi_eq, hj_eq, hleft.moved.outside (by omega)]
    exact split i₀ j₀ hi₀ hi₀' hj₀ hj₀'

/-- One call of `sorttable` on a part of two entries or more. -/
theorem sorttable_succ (h : low + 1 < high) {fuel middle : ℕ}
    (hr : partition compare stab low high = (stab', middle)) :
    sorttable compare (fuel + 1) stab low high =
      (sorttable compare fuel stab' low middle).bind fun stab =>
        sorttable compare fuel stab middle high := by
  rw [sorttable, if_neg (by omega), hr]
  dsimp only
  rw [if_neg (by omega)]
  rfl

theorem sorttable_of_eq (compare : α → α → ℤ) (fuel : ℕ) (stab : ℕ → α) (low : ℕ) :
    sorttable compare (fuel + 1) stab low low = some stab := by
  rw [sorttable, if_pos rfl]

/-- `sorttable` ends and sorts its part. The bound on the nested calls allows for a call that puts
everything on the high end between two calls that make the part smaller. -/
theorem sorttable_spec (order : Preorder3 compare) (n : ℕ) (stab : ℕ → α) (low : ℕ) :
    ∃ r, SortedPart compare low (low + n) stab r ∧
      ∀ fuel, 2 * n + 1 ≤ fuel → sorttable compare fuel stab low (low + n) = some r := by
  induction n using Nat.strong_induction_on generalizing stab low with
  | _ n ih =>
    obtain rfl | rfl | hn : n = 0 ∨ n = 1 ∨ 2 ≤ n := by omega
    · refine ⟨stab, .of_short (by omega) (.refl _ _ _), fun fuel hfuel => ?_⟩
      obtain ⟨fuel, rfl⟩ := Nat.exists_eq_add_of_lt (Nat.lt_of_succ_le hfuel)
      exact sorttable_of_eq compare _ stab low
    · -- the partition of one entry
      obtain ⟨hmoved, -⟩ := partition_spec order stab (Nat.lt_succ_self low) rfl
      refine ⟨_, .of_short (Nat.le_refl _) hmoved, fun fuel hfuel => ?_⟩
      obtain ⟨fuel, rfl⟩ := Nat.exists_eq_add_of_le hfuel
      rw [show 2 * 1 + 1 + fuel = (fuel + 2) + 1 by omega, sorttable, if_neg (by omega)]
      exact if_pos rfl
    -- a partition that puts something on the low end
    have hsplits : ∀ stab : ℕ → α, low < (partition compare stab low (low + n)).2 →
        ∃ r, SortedPart compare low (low + n) stab r ∧
          ∀ fuel, 2 * n ≤ fuel → sorttable compare fuel stab low (low + n) = some r := by
      intro stab hlow
      cases hr : partition compare stab low (low + n) with
      | mk stab' middle =>
        rw [hr] at hlow
        obtain ⟨hmoved, -, hhigh, hsplit⟩ := partition_spec order stab (by omega) hr
        dsimp only at hlow hmoved hhigh hsplit
        obtain ⟨left, hleft, hleftRun⟩ := ih (middle - low) (by omega) stab' low
        obtain ⟨right, hright, hrightRun⟩ := ih (low + n - middle) (by omega) left middle
        rw [show low + (middle - low) = middle by omega] at hleft hleftRun
        rw [show middle + (low + n - middle) = low + n by omega] at hright hrightRun
        refine ⟨right, .join (by omega) (by omega) hmoved hsplit hleft hright, fun fuel hfuel => ?_⟩
        obtain ⟨fuel, rfl⟩ := Nat.exists_eq_succ_of_ne_zero (show fuel ≠ 0 by omega)
        rw [sorttable_succ (by omega) hr, hleftRun fuel (by omega), Option.bind_some]
        exact hrightRun fuel (by omega)
    by_cases hlow : low < (partition compare stab low (low + n)).2
    · obtain ⟨r, hsorted, hrun⟩ := hsplits stab hlow
      exact ⟨r, hsorted, fun fuel hfuel => hrun fuel (by omega)⟩
    · -- everything went to the high end: the part is sorted once more
      cases hr : partition compare stab low (low + n) with
      | mk stab' middle =>
        obtain ⟨hmoved, hle, -, hsplit⟩ := partition_spec order stab (by omega) hr
        rw [hr] at hlow
        obtain rfl : middle = low := Nat.le_antisymm (Nat.le_of_not_lt hlow) hle
        obtain ⟨r, hsorted, hrun⟩ := hsplits stab' (partition_again order (by omega) hr)
        refine ⟨r, ⟨hmoved.trans hsorted.moved, hsorted.sorted⟩, fun fuel hfuel => ?_⟩
        obtain ⟨fuel, rfl⟩ := Nat.exists_eq_succ_of_ne_zero (show fuel ≠ 0 by omega)
        obtain ⟨fuel, rfl⟩ := Nat.exists_eq_succ_of_ne_zero (show fuel ≠ 0 by omega)
        rw [sorttable_succ (by omega) hr, sorttable_of_eq, Option.bind_some]
        exact hrun (fuel + 1) (by omega)

/-! ### What the result depends on -/

/-- The two comparisons find the same entries greater, and the same entries equal. -/
def SameSigns (compare compare' : α → α → ℤ) : Prop :=
  ∀ a b, (0 < compare a b ↔ 0 < compare' a b) ∧ (compare a b = 0 ↔ compare' a b = 0)

variable {compare' : α → α → ℤ}

theorem partitionLoop_congr (same : SameSigns compare compare') :
    partitionLoop compare pivot n stab l alt = partitionLoop compare' pivot n stab l alt := by
  induction n generalizing stab l alt with
  | zero => rfl
  | succ n ih =>
    obtain ⟨hpos, hzero⟩ := same (stab l) pivot
    simp only [partitionLoop, hpos, hzero, ih]

/-- `sorttable` looks at the signs of the comparisons only. -/
theorem sorttable_congr (same : SameSigns compare compare') (fuel : ℕ) :
    sorttable compare fuel stab low high = sorttable compare' fuel stab low high := by
  induction fuel generalizing stab low high with
  | zero => rfl
  | succ fuel ih => simp only [sorttable, partition, partitionLoop_congr same, ih]

end CLanguage.Grades
