import CLanguage.Sfmm.Conditions

/-!
# What `sf_free` does

`sf_free` accepts the pointer of every allocated block, keeps the invariant of
the heap and leaves the other payloads alone.
-/

namespace CLanguage.Sfmm

open Lib

variable {L : Layout} {s : State} {x n k bs h w : ℕ} {r : Bool}
  {pre post blocks blocks' : List Block} {lists lists' : List FreeList}

/-- The word at `w` is in a free block, off its links, and its `allocated` bit is clear. -/
def Dead (m : Mem) (blocks : List Block) (w : ℕ) : Prop :=
  (m w).allocated = false ∧
    ∃ c ∈ blocks, c.used = none ∧ (w = c.addr ∨ c.addr + 32 ≤ w ∧ w < c.fin)

/-- The outcome of freeing the block at `x` with requested size `k`. -/
structure Freed (L : Layout) (x k : ℕ) (s : State) (blocks : List Block)
    (lists : List FreeList) (s' : State) (blocks' : List Block) (lists' : List FreeList) :
    Prop where
  heap : HeapOk L s' blocks' lists'
  heapEnd : s'.heapEnd = s.heapEnd
  joined : blocks' = joinFree (release [x + 8] blocks)
  payloads : (payloads blocks).Perm ((x + 8, k) :: payloads blocks')
  keeps : Keeps (fun b => b.used ≠ none ∧ b.addr ≠ x) s.mem blocks s'.mem blocks'
  origin : ∀ b ∈ blocks', b.used ≠ none → b ∈ blocks
  headers : ∃ e, ∀ b ∈ blocks, b.used ≠ none → b.addr ≠ x → s'.mem b.addr =
    if b.addr = e then { s.mem b.addr with prevAllocated := false } else s.mem b.addr
  dead : Dead s'.mem blocks' x
  stays_dead : ∀ w, Dead s.mem blocks w → Dead s'.mem blocks' w
  distinct : Increasing lists → (lists'.map FreeList.size).Nodup
  order : freeOrdered L (x + 8) s = true → Increasing lists → Increasing lists'

theorem freeSafe_iff {ordered : Bool} {p : ℕ} : freeSafe L ordered p s = true ↔
    mergedSize s.mem (p - 8) < 2 ^ 31 ∧ (ordered = true → freeOrdered L p s = true) := by
  cases ordered <;> simp [freeSafe]

/-- The checks of `sf_free` and `sf_realloc` pass for an allocated block. -/
theorem Spot.valid (t : Spot L s pre r x n k post) : validPointer L s (x + 8) = true := by
  obtain ⟨hn, hx, hxn, hE, htop, hlt⟩ := t.bounds
  have hpage := pageSz_eq
  have hint : intShl4 (s.mem x).blockSize = n := t.tagged.header
  have halloc : (s.mem x).allocated = true := t.tagged.header_allocated
  have hprev : (s.mem x).prevAllocated = r := t.tagged.header_prev
  have hsize : 16 * (s.mem x).blockSize.toNat = n := t.tagged.header_size
  have hreq : (s.mem x).requestedSize.toNat = k := t.tagged.requested k rfl
  have haccepted := t.accepted
  unfold SizeOk at hn
  -- the check of the previous block reads its footer and its header
  have hnonneg : (s.mem x).prevAllocated = true ∨ ((s.mem (x + 8 - 16)).allocated = false ∧
      (s.mem (sub64 (x + 8 - 16 + 8) (shl4 (s.mem (x + 8 - 16)).blockSize))).allocated = false) := by
    rcases t.before.last with ⟨rfl, -⟩ | ⟨front, y, i, rfl, rfl, -, -⟩
    · exact Or.inl hprev
    · obtain ⟨-, hyx, -, htagY, hshift, hback⟩ := t.previous
      have hfoot : x + 8 - 16 = Block.footer ⟨y, i, none⟩ := by
        rw [Block.footer_eq]
        simp only
        omega
      refine Or.inr ⟨?_, ?_⟩
      · rw [hfoot]
        exact htagY.footer_allocated rfl
      · rw [hshift, hback]
        exact htagY.header_allocated
  simp only [validPointer, Nat.add_sub_cancel, hint, halloc, hsize, hreq]
  simp only [Bool.and_eq_true, Bool.or_eq_true, Bool.not_eq_true', decide_eq_false_iff_not,
    Bool.or_eq_false_iff]
  refine ⟨⟨⟨⟨⟨?_, ?_, ?_⟩, trivial⟩, ?_, ?_⟩, ?_⟩, hnonneg⟩ <;> omega

/-- The place of a listed block is the right one unless a larger list stands alone. -/
theorem ListsOk.insertOrdered_iff {m : Mem} {nodes : ℕ} (ok : ListsOk L m nodes lists) :
    insertOrdered L m bs = true → ∀ l, lists = [l] → l.size ≤ bs := by
  rintro hcond l rfl
  have ok' : ListsOk L m nodes ([] ++ l :: []) := ok
  rw [insertOrdered, ok.nodeNext_sentinel, nodeAfter_cons, ok'.nodeNext_node, nodeAfter_nil,
    ok.node_size l List.mem_cons_self] at hcond
  simpa using hcond

/-- The merged block is listed. -/
theorem Unlisted.insertFreed_ensures (u : Unlisted L s blocks lists h bs) (nonempty : lists ≠ []) :
    Ensures (· = Fault.noNode)
      (fun s' => s'.heapEnd = s.heapEnd ∧ ∃ lists', HeapOk L s' blocks lists' ∧
        (∀ w, ¬ SoftWord L blocks w → s'.mem w = s.mem w) ∧
        (Increasing lists → (lists'.map FreeList.size).Nodup ∧
          (insertOrdered L s.mem bs = true → Increasing lists')))
      (insertFreed L bs h s) := by
  obtain ⟨hin, hapart⟩ := u.insertable
  have hmem : (⟨h, bs, none⟩ : Block) ∈ blocks :=
    (mem_frees.mp (u.perm.symm.subset List.mem_cons_self)).1
  have hbs : SizeOk bs := (u.shape.region.1.tagged hmem).elim fun _ htag => htag.sizeOk
  have hlt := hbs.2.2
  refine (u.shape.lists_ok.insertFreed_ensures nonempty (by omega) hin hapart).mono
    fun s' hs' => ?_
  obtain ⟨lists', linked, sorted⟩ := hs'
  obtain ⟨hheap, hframe⟩ := u.linked linked
  exact ⟨linked.heapEnd, lists', hheap, hframe, fun inc =>
    ⟨(sorted inc).1, fun hcond => (sorted inc).2 (u.shape.lists_ok.insertOrdered_iff hcond)⟩⟩

/-! ### Room for a list node -/

theorem findNode_ne_noNode {m : Mem} {fuel t : ℕ} :
    findNode L m bs fuel t ≠ .error .noNode := by
  induction fuel generalizing t with
  | zero => simp [findNode]
  | succ fuel ih =>
    rw [findNode]
    split_ifs
    · simp
    · simp
    · simp
    · exact ih

theorem findPlace_ne_noNode {m : Mem} {fuel t : ℕ} :
    findPlace L m bs fuel t ≠ .error .noNode := by
  induction fuel generalizing t with
  | zero => simp [findPlace]
  | succ fuel ih =>
    rw [findPlace]
    split_ifs
    · simp
    · simp
    · simp
    · exact ih

theorem sfAddFreeList_ne_noNode {size next : ℕ} (room : s.nodes < L.maxNodes) :
    sfAddFreeList L size next s ≠ .error .noNode := by
  rw [sfAddFreeList, if_pos room]
  simp

/-- Listing a block fails for want of a node only if there is none left. -/
theorem insertFreed_ne_noNode (room : s.nodes < L.maxNodes) :
    insertFreed L bs h s ≠ .error .noNode := by
  intro herror
  unfold insertFreed at herror
  rcases bind_eq_error herror with hfind | ⟨o, -, herror⟩
  · exact findNode_ne_noNode hfind
  cases o with
  | some t => exact nomatch herror
  | none =>
    rcases bind_eq_error herror with hplace | ⟨place, -, herror⟩
    · exact findPlace_ne_noNode hplace
    rcases place with _ | t | t
    · exact nomatch herror
    · rcases bind_eq_error herror with hadd | ⟨_, -, herror⟩
      · exact sfAddFreeList_ne_noNode room hadd
      · exact nomatch herror
    · rcases bind_eq_error herror with hadd | ⟨_, -, herror⟩
      · exact sfAddFreeList_ne_noNode room hadd
      · exact nomatch herror

theorem sfFree_ne_noNode {p : ℕ} (room : s.nodes < L.maxNodes) :
    sfFree L p s ≠ .error .noNode := by
  unfold sfFree
  split_ifs
  · exact insertFreed_ne_noNode room
  · exact nofun

/-- Words of a block off the place of its links are not soft. -/
theorem TagsOk.inside_not_soft {c : Block} (tags : TagsOk L s blocks) (hc : c ∈ blocks)
    (hw : w = c.addr ∨ c.addr + 32 ≤ w ∧ w < c.fin) :
    ¬ SoftWord L blocks w := by
  have hpage := pageSz_eq
  have hge := tags.heapEnd_ge
  have hle := tags.heapEnd_le
  have hrange := tags.region.1.range hc
  have hsize := tags.region.1.size_ge hc
  have hfin := c.fin_eq
  rintro (hsoft | hsoft | ⟨d, hd, -, hsoft⟩)
  · omega
  · omega
  · have hsize' := tags.region.1.size_ge hd
    have hfin' := d.fin_eq
    by_cases hcd : c = d
    · subst hcd
      omega
    · have hapart := tags.region.1.apart hc hd hcd
      omega

/-- The freed block is inside the merged one. -/
theorem Neighbours.inside {front left right back : List Block} {q : Bool}
    (nb : Neighbours L s front left x n k right back h bs q) :
    x = h ∨ h + 32 ≤ x ∧ x < h + bs := by
  obtain ⟨-, hn, hxn⟩ := nb.bounds
  rcases nb.left_cases with ⟨-, rfl⟩ | ⟨i, hi, -, rfl⟩
  · exact Or.inl rfl
  · exact Or.inr ⟨by omega, by omega⟩

/-- Free blocks stay where they are or become part of the merged block. -/
theorem Neighbours.absorbed {front left right back : List Block} {q : Bool} {c : Block}
    (nb : Neighbours L s front left x n k right back h bs q)
    (hc : c ∈ front ++ ((left ++ ⟨x, n, some k⟩ :: right) ++ back)) (free : c.used = none)
    (hw : w = c.addr ∨ c.addr + 32 ≤ w ∧ w < c.fin) :
    ∃ d ∈ front ++ ([⟨h, bs, none⟩] ++ back), d.used = none ∧
      (w = d.addr ∨ d.addr + 32 ≤ w ∧ w < d.fin) := by
  obtain ⟨hhx, hn, hxn⟩ := nb.bounds
  have hmerged : (⟨h, bs, none⟩ : Block) ∈ front ++ ([⟨h, bs, none⟩] ++ back) := by simp
  have hfin : Block.fin ⟨h, bs, none⟩ = h + bs := rfl
  simp only [List.mem_append, List.mem_cons] at hc
  -- the blocks before and behind stay, the neighbours are absorbed
  rcases hc with hc | ((hc | rfl | hc) | hc)
  · exact ⟨c, List.mem_append_left _ hc, free, hw⟩
  · rcases nb.left_cases with ⟨rfl, -⟩ | ⟨i, -, rfl, hix⟩
    · exact absurd hc List.not_mem_nil
    · obtain rfl := List.mem_singleton.mp hc
      refine ⟨_, hmerged, rfl, ?_⟩
      simp only [Block.fin_eq] at hw ⊢
      omega
  · exact absurd free (by simp)
  · rcases nb.right_cases with ⟨rfl, -⟩ | ⟨o, ho, rfl, hend⟩
    · exact absurd hc List.not_mem_nil
    · obtain rfl := List.mem_singleton.mp hc
      refine ⟨_, hmerged, rfl, ?_⟩
      simp only [Block.fin_eq] at hw ⊢
      omega
  · exact ⟨c, List.mem_append_right _ (List.mem_append_right _ hc), free, hw⟩

/-- Merging sets no `allocated` bit. -/
theorem Merged.stays_free {m m' : Mem} (merged : Merged m m' x h bs)
    (hw : (m w).allocated = false) : (m' w).allocated = false := by
  by_cases h1 : w = h
  · exact h1 ▸ merged.header.2.1
  by_cases h2 : w = x
  · exact h2 ▸ merged.freed
  by_cases h3 : w = h + bs - 8
  · exact h3 ▸ merged.footer.2.1
  by_cases h4 : w = h + bs
  · subst h4
    rw [merged.next]
    exact hw
  rw [merged.frame w h1 h2 h3 h4]
  exact hw

theorem Target.sfFree_ensures (t : Target L s lists pre r x n k post)
    (fits : mergedSize s.mem x < 2 ^ 31) :
    Ensures (· = Fault.noNode)
      (fun s' => ∃ blocks' lists',
        Freed L x k s (pre ++ ⟨x, n, some k⟩ :: post) lists s' blocks' lists')
      (sfFree L (x + 8) s) := by
  obtain ⟨front, left, right, back, h, q, m₁, m', lists₀, rfl, rfl, nb, hrun, co⟩ :=
    t.coalesce_ok fits
  have hfree : sfFree L (x + 8) s = insertFreed L (mergedSize s.mem x) h { s with mem := m' } := by
    rw [sfFree, if_pos t.valid, hrun]
    simp only [co.size]
  have hnonempty : lists₀ ≠ [] := fun e => t.heap.nonempty (by simpa [e] using co.sizes.symm)
  rw [hfree]
  refine (co.unlisted.insertFreed_ensures hnonempty).mono fun s' hs' => ?_
  obtain ⟨hE, lists', hheap, hframe, sorted⟩ := hs'
  have hblocks : front ++ left ++ ⟨x, n, some k⟩ :: (right ++ back) =
      front ++ ((left ++ ⟨x, n, some k⟩ :: right) ++ back) := by simp
  rw [hblocks]
  generalize mergedSize s.mem x = bs at *
  have hmerged : (⟨h, bs, none⟩ : Block) ∈ front ++ ([⟨h, bs, none⟩] ++ back) := by simp
  -- the words that are not links are those of `m₁`
  have hwords : ∀ w, ¬ SoftWord L (front ++ ([⟨h, bs, none⟩] ++ back)) w → s'.mem w = m₁ w :=
    fun w hw => (hframe w hw).trans (co.frame w hw)
  have hsolid := co.unlisted.shape.toTagsOk.solid_frame hwords
  have hside : ∀ b ∈ front ++ back, b ∈ front ++ ([⟨h, bs, none⟩] ++ back) := fun b hb => by
    simp only [List.mem_append] at hb ⊢
    tauto
  refine ⟨_, lists', hheap, hE, (nb.join hheap.region.1).symm, nb.payloads, ?_, ?_, ⟨h + bs, ?_⟩,
    ?_, ?_, ?_, ?_⟩
  · rintro b hb ⟨hused, haddr⟩
    exact keeps_sides nb.before nb.after (fun w hw => nb.outside co.merged hw) hsolid
      (nb.side hb hused haddr) hused
  · intro b hb hused
    simp only [List.mem_append, List.mem_cons, List.not_mem_nil, or_false] at hb ⊢
    rcases hb with hb | rfl | hb
    · exact Or.inl hb
    · exact absurd rfl hused
    · exact Or.inr (Or.inr hb)
  · intro b hb hused haddr
    have hmem := nb.side hb hused haddr
    rw [hsolid _ ⟨b, hside b hmem, Or.inl rfl⟩, nb.header co.merged hmem]
  · have hx := co.unlisted.shape.toTagsOk.inside_not_soft hmerged nb.inside
    refine ⟨?_, _, hmerged, rfl, nb.inside⟩
    rw [hwords x hx]
    exact co.merged.freed
  · rintro w ⟨hclear, c, hc, hfree', hw⟩
    obtain ⟨d, hd, hdfree, hdw⟩ := nb.absorbed hc hfree' hw
    refine ⟨?_, d, hd, hdfree, hdw⟩
    rw [hwords w (co.unlisted.shape.toTagsOk.inside_not_soft hd hdw)]
    exact co.merged.stays_free hclear
  · exact fun inc => (sorted (inc.congr co.sizes)).1
  · intro hcond inc
    rw [freeOrdered, hrun] at hcond
    simp only [co.size] at hcond
    exact (sorted (inc.congr co.sizes)).2 hcond

end CLanguage.Sfmm
