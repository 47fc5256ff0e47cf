import CLanguage.Sfmm.Conditions

/-!
# What `sf_malloc` does

On the safe branches `sf_malloc` keeps the invariant of the heap, adds one
payload to the allocated ones and leaves the others alone. It grows the heap
exactly as far as it has to.
-/

namespace CLanguage.Sfmm

open Lib

variable {L : Layout} {ordered : Bool} {s s' : State} {size fuel k : ℕ}
  {blocks blocks' : List Block} {lists lists' : List FreeList} {l : FreeList}

/-- A heap with the given blocks and lists, or one without a page. -/
def Valid (L : Layout) (s : State) (blocks : List Block) (lists : List FreeList) : Prop :=
  HeapOk L s blocks lists ∨ Unformatted L s ∧ blocks = [] ∧ lists = []

/-- The size of the free block at the end of the heap after `k` more pages. -/
def tailAfter (L : Layout) (s : State) (blocks : List Block) (k : ℕ) : ℕ :=
  tailSize blocks + pageSz * k - if L.start = s.heapEnd then 48 else 0

/-- Some free block is large enough for `size` bytes. -/
def HasRoom (size : ℕ) (blocks : List Block) : Prop :=
  ∃ b ∈ blocks, b.used = none ∧ blockSizeFor size ≤ b.size

/-- The outcome of `sf_malloc(size)`. -/
structure Allocated (L : Layout) (ordered : Bool) (size : ℕ) (s : State) (blocks : List Block)
    (lists : List FreeList) (r : Option ℕ × State) (blocks' : List Block)
    (lists' : List FreeList) : Prop where
  heap : HeapOk L r.2 blocks' lists'
  payloads : (payloads blocks').Perm (r.1.toList.map (·, size) ++ payloads blocks)
  keeps : Keeps (fun b => b.used ≠ none) s.mem blocks r.2.mem blocks'
  origin : ∀ b ∈ blocks', b.used ≠ none → b ∈ blocks ∨ b.used = some size ∧ size + 8 ≤ b.size
  order : ordered = true → Increasing lists → Increasing lists'
  room : HasRoom size blocks →
    r.1 ≠ none ∧ r.2.growCalls = s.growCalls ∧ r.2.heapEnd = s.heapEnd
  grows : ¬ HasRoom size blocks → ∃ k, r.2.heapEnd = s.heapEnd + pageSz * k ∧
    (∀ j < k, tailAfter L s blocks j < blockSizeFor size) ∧
    if r.1 = none then
      r.2.growCalls = s.growCalls + k + 1 ∧ ¬ CanGrow L r.2 ∧ ¬ HasRoom size blocks'
    else
      r.2.growCalls = s.growCalls + k ∧ 0 < k ∧ blockSizeFor size ≤ tailAfter L s blocks k

/-! ### Sizes -/

theorem blockSizeFor_le {n : ℕ} (hsize : size < 2 ^ 31) (hn : SizeOk n) :
    blockSizeFor size ≤ n ↔ size + 8 ≤ n := by
  unfold SizeOk at hn
  rw [blockSizeFor_eq hsize]
  omega

theorem blockSizeFor_sizeOk {n : ℕ} (hsize : size < 2 ^ 31) (hn : SizeOk n)
    (h : size + 8 ≤ n) : SizeOk (blockSizeFor size) ∧ size + 8 ≤ blockSizeFor size := by
  unfold SizeOk at *
  rw [blockSizeFor_eq hsize]
  omega

theorem HeapOk.sizeOk {b : Block} (ok : HeapOk L s blocks lists) (hb : b ∈ blocks) :
    SizeOk b.size :=
  (ok.region.1.tagged hb).elim fun _ htag => htag.sizeOk

theorem HeapOk.mem_listed (ok : HeapOk L s blocks lists) (hl : l ∈ lists) {x : ℕ}
    (hx : x ∈ l.blocks) : (⟨x, l.size, none⟩ : Block) ∈ blocks := by
  have hmem : (⟨x, l.size, none⟩ : Block) ∈ listed lists :=
    List.mem_flatMap.mpr ⟨l, hl, List.mem_map.mpr ⟨x, hx, rfl⟩⟩
  exact (mem_frees.mp (ok.listed_frees.subset hmem)).1

/-- The search succeeds exactly if there is a free block that is large enough. -/
theorem HeapOk.find_isSome (ok : HeapOk L s blocks lists) (hsize : size < 2 ^ 31) :
    (∃ l ∈ lists, fits size l = true) ↔ HasRoom size blocks := by
  have hadd : add64 size 8 = size + 8 := add64_of_lt (by omega)
  constructor
  · rintro ⟨l, hl, hfit⟩
    obtain ⟨hle, hne⟩ : add64 size 8 ≤ l.size ∧ l.blocks ≠ [] := by simpa [fits] using hfit
    obtain ⟨x, hx⟩ := List.exists_mem_of_ne_nil _ hne
    have hb := ok.mem_listed hl hx
    exact ⟨_, hb, rfl, (blockSizeFor_le hsize (ok.sizeOk hb)).mpr (hadd ▸ hle)⟩
  · rintro ⟨b, hb, hfree, hle⟩
    have hmem : b ∈ listed lists := ok.listed_frees.symm.subset (mem_frees.mpr ⟨hb, hfree⟩)
    obtain ⟨l, hl, hbl⟩ := List.mem_flatMap.mp hmem
    obtain ⟨x, hx, rfl⟩ := List.mem_map.mp hbl
    have hfit : size + 8 ≤ l.size := (blockSizeFor_le hsize (ok.sizeOk hb)).mp hle
    refine ⟨l, hl, ?_⟩
    have hne : l.blocks ≠ [] := List.ne_nil_of_mem hx
    simp [fits, hadd, hfit, hne]

theorem HeapOk.heapEnd_ne (ok : HeapOk L s blocks lists) : L.start ≠ s.heapEnd := by
  have hge := ok.heapEnd_ge
  have hpage := pageSz_eq
  omega

/-! ### Taking a block -/

/-- The safety condition on the block taken, in terms of the lists. -/
theorem HeapOk.found {A B : List FreeList} (ok : HeapOk L s blocks (A ++ l :: B))
    (hsize : size < 2 ^ 31) (hfit : fits size l = true)
    (safe : takeSafe L size l.node s = true) :
    ∃ x, Found L s blocks A B l x [] ∧ (blockSizeFor size + 32 ≤ l.size →
      listOf (l.size - blockSizeFor size) (A ++ l :: B).dropLast = none) := by
  have hl : l ∈ A ++ l :: B := mem_of_middle
  obtain ⟨hle, hne⟩ : add64 size 8 ≤ l.size ∧ l.blocks ≠ [] := by simpa [fits] using hfit
  rw [add64_of_lt (by omega)] at hle
  obtain ⟨x, ys, hblocks⟩ := List.exists_cons_of_ne_nil hne
  have hsz : SizeOk l.size := ok.sizeOk (ok.mem_listed hl (hblocks ▸ List.mem_cons_self))
  obtain ⟨hbs, -⟩ := blockSizeFor_sizeOk hsize hsz hle
  have hbsle := (blockSizeFor_le hsize hsz).mpr hle
  unfold SizeOk at hsz hbs
  have hsub : sub64 l.size (blockSizeFor size) = l.size - blockSizeFor size :=
    sub64_of_le hbsle (by omega)
  obtain ⟨hfirst, hsecond⟩ := ok.lists_ok.first_block hblocks
  rw [takeSafe, hfirst, hsecond, ok.lists_ok.node_size l hl, hsub] at safe
  obtain ⟨honly, hrest⟩ : after (nodeHead l.node) ys = nodeHead l.node ∧
      (l.size - blockSizeFor size < 32 ∨ notFound (findEqual L s.mem (l.size - blockSizeFor size)
        (s.nodes + 1) L.sentinel) = true) := by
    simpa only [Bool.and_eq_true, Bool.or_eq_true, decide_eq_true_eq] using safe
  -- the safety condition says that the block is alone on its list
  have hys : ys = [] := by
    cases ys with
    | nil => rfl
    | cons y ys =>
      refine absurd ?_ (ok.lists_ok.blocks_ring l hl).head_notMem
      rw [after_cons] at honly
      simp [hblocks, honly]
  subst hys
  refine ⟨x, ⟨ok.toConsistent, hblocks⟩, fun hroom => ?_⟩
  rcases hrest with hlt | hnone
  · omega
  · rw [ok.lists_ok.findEqual_eq (by omega)] at hnone
    exact (notFound_ok_map _ _).mp hnone

/-- The branches of `sf_malloc` for a list that has been found. -/
def takeFrom (L : Layout) (size t : ℕ) (s : State) : Except Fault (Option ℕ × State) :=
  if sub64 (s.mem.nodeSize t) (blockSizeFor size) ≥ 32 then do
    let (p, s) ← takeSplit L size t s
    return (some p, s)
  else
    let (p, s) := takeWhole size t s
    return (some p, s)

theorem HeapOk.takeFrom_ensures (ok : HeapOk L s blocks lists) (hsize : size < 2 ^ 31)
    (hfind : lists.find? (fits size) = some l) (safe : takeSafe L size l.node s = true) :
    Ensures (· = Fault.noNode)
      (fun r => ∃ blocks' lists', Allocated L ordered size s blocks lists r blocks' lists')
      (takeFrom L size l.node s) := by
  have hfit := List.find?_some hfind
  have hl := List.mem_of_find?_eq_some hfind
  have hroom : HasRoom size blocks := (ok.find_isSome hsize).mp ⟨l, hl, hfit⟩
  obtain ⟨A, B, rfl⟩ := List.append_of_mem hl
  obtain ⟨x, found, hnone⟩ := ok.found hsize hfit safe
  have hsz : SizeOk l.size := ok.sizeOk found.mem_blocks
  have hle : size + 8 ≤ l.size := by
    have : add64 size 8 ≤ l.size ∧ l.blocks ≠ [] := by simpa [fits] using hfit
    rw [add64_of_lt (by omega)] at this
    exact this.1
  obtain ⟨hbs, hfitbs⟩ := blockSizeFor_sizeOk hsize hsz hle
  have hbsle := (blockSizeFor_le hsize hsz).mpr hle
  have hlt := hsz.2.2
  have hsub : sub64 l.size (blockSizeFor size) = l.size - blockSizeFor size :=
    sub64_of_le hbsle (by omega)
  unfold takeFrom
  rw [found.nodeSize_eq, hsub]
  -- what remains is a block of its own, or part of the payload's block
  split_ifs with hsplit
  · refine Ensures.bind (found.takeSplit_served rfl hbs hfitbs (by omega) (hnone (by omega)))
      fun r hr => ?_
    obtain ⟨p, s'⟩ := r
    obtain ⟨rfl, hE, -, hcalls, blocks', lists', served, sorted⟩ := hr
    exact .ok ⟨blocks', lists', served.heap, served.payloads, served.keeps, served.origin,
      fun _ => sorted,
      fun _ => ⟨by simp, hcalls, hE⟩, fun h => absurd hroom h⟩
  · obtain ⟨m', blocks', hrun, served⟩ := found.takeWhole_served hle
    rw [hrun]
    exact .ok ⟨blocks', _, served.heap, served.payloads, served.keeps, served.origin,
      fun _ h => h.of_sizes rfl,
      fun _ => ⟨by simp, rfl, rfl⟩, fun h => absurd hroom h⟩

/-! ### Growing -/

/-- The safety condition on growing, in terms of the lists. -/
theorem HeapOk.growSafe_lists (ok : HeapOk L s blocks lists) (safe : growSafe L ordered s = true) :
    tailSize blocks + pageSz < 2 ^ 31 ∧
      listOf (tailSize blocks + pageSz) lists.dropLast = none ∧ (ordered = true →
      (∀ k, lists.head? = some k → k.size < tailSize blocks + pageSz) ∧
        listOf (tailSize blocks + pageSz) lists = none) := by
  have hpage := pageSz_eq
  obtain ⟨k, B, rfl⟩ := List.exists_cons_of_ne_nil ok.nonempty
  rw [growSafe, ok.grownSize_eq, ok.lists_ok.findEqual_eq (by omega), ok.lists_ok.findNode_eq,
    ok.lists_ok.nodeNext_sentinel, nodeAfter_cons,
    ok.lists_ok.node_size k List.mem_cons_self] at safe
  simp only [Bool.and_eq_true, Bool.or_eq_true, Bool.not_eq_true', decide_eq_true_eq,
    notFound_ok_map] at safe
  refine ⟨safe.1.1, safe.1.2, fun hordered => ?_⟩
  rcases safe.2 with hno | ⟨hfirst, hall⟩
  · simp [hordered] at hno
  · exact ⟨fun j hj => by
      obtain rfl : k = j := by simpa using hj
      exact hfirst, hall⟩

theorem mallocFuel_formatted (ok : HeapOk L s blocks lists) (pos : size ≠ 0) :
    mallocFuel L size (fuel + 1) s =
      match lists.find? (fits size) with
      | some l => takeFrom L size l.node s
      | none =>
        match sfMemGrow L s with
        | (true, s) => addPage L s >>= mallocFuel L size fuel
        | (false, s) => .ok (none, s) := by
  rw [mallocFuel, if_neg pos, if_neg ok.heapEnd_ne]
  change (findFit L s.mem size (s.nodes + 1) L.sentinel >>= _) = _
  rw [ok.lists_ok.findFit_eq ok.lists_ok.headsOk]
  cases lists.find? (fits size) <;> rfl

theorem mallocSafe_formatted (ok : HeapOk L s blocks lists) (pos : size ≠ 0)
    (safe : mallocSafe L ordered size (fuel + 1) s = true) :
    (∀ l, lists.find? (fits size) = some l → takeSafe L size l.node s = true) ∧
      (lists.find? (fits size) = none → CanGrow L s → growSafe L ordered s = true ∧
        ∀ s', addPage L (withPage s) = .ok s' → mallocSafe L ordered size fuel s' = true) := by
  rw [mallocSafe, callSafe, decide_eq_false pos, Bool.false_or, if_neg ok.heapEnd_ne,
    branchSafe, ok.lists_ok.findFit_eq ok.lists_ok.headsOk] at safe
  refine ⟨fun l hl => ?_, fun hnone hgrow => ?_⟩
  · rwa [hl] at safe
  · rw [hnone] at safe
    have hgrown : (growSafe L ordered s &&
        holdsAfter (mallocSafe L ordered size fuel) (addPage L (withPage s))) = true := by
      rcases Bool.or_eq_true_iff.mp safe with hno | hsafe
      · exact absurd hgrow (of_decide_eq_true hno)
      · exact hsafe
    have hboth := Bool.and_eq_true_iff.mp hgrown
    refine ⟨hboth.1, fun s' hs' => ?_⟩
    have hrest := hboth.2
    rwa [hs'] at hrest

theorem HeapOk.tailAfter_eq (ok : HeapOk L s blocks lists) (k : ℕ) :
    tailAfter L s blocks k = tailSize blocks + pageSz * k := by
  rw [tailAfter, if_neg ok.heapEnd_ne, Nat.sub_zero]

/-- The free block at the end of the heap is a free block. -/
theorem tailSize_lt_of_not_hasRoom (pos : 0 < blockSizeFor size) (h : ¬ HasRoom size blocks) :
    tailSize blocks < blockSizeFor size := by
  rcases List.eq_nil_or_concat blocks with rfl | ⟨front, ⟨x, n, u⟩, rfl⟩
  · exact pos
  · rw [List.concat_eq_append] at *
    cases u with
    | none =>
      rw [tailSize_free]
      by_contra hle
      exact h ⟨⟨x, n, none⟩, by simp, rfl, Nat.le_of_not_lt hle⟩
    | some j =>
      rw [tailSize_used (by simp)]
      exact pos

theorem Grown.hasRoom_iff (grown : Grown L s blocks lists s' blocks' lists')
    (h : ¬ HasRoom size blocks) :
    HasRoom size blocks' ↔ blockSizeFor size ≤ tailSize blocks + pageSz := by
  constructor
  · rintro ⟨b, hb, hfree, hle⟩
    rcases grown.old b hb with hold | ⟨-, hnew⟩
    · exact absurd ⟨b, hold, hfree, hle⟩ h
    · rwa [← hnew]
  · intro hle
    rw [← grown.tail] at hle
    rcases grown.heap.region.1.last with ⟨-, hzero⟩ | ⟨front, x, n, -, rfl, -, htail⟩
    · have := grown.tail
      have := pageSz_eq
      omega
    · exact ⟨⟨x, n, none⟩, by simp, rfl, by rwa [← htail]⟩

theorem Keeps.trans {sel : Block → Prop} {m m' m'' : Mem} {blocks'' : List Block}
    (h : Keeps sel m blocks m' blocks') (h' : Keeps sel m' blocks' m'' blocks'') :
    Keeps sel m blocks m'' blocks'' := fun b hb hsel =>
  ⟨(h' b (h b hb hsel).1 hsel).1, (h b hb hsel).2.trans (h' b (h b hb hsel).1 hsel).2⟩

/-- A call of `sf_malloc` in the heap that one more page has left. -/
theorem Allocated.of_page {s₁ : State} {blocks₁ : List Block} {lists₁ : List FreeList}
    {r : Option ℕ × State} (h : ¬ HasRoom size blocks)
    (hE : s₁.heapEnd = s.heapEnd + pageSz) (hcalls : s₁.growCalls = s.growCalls + 1)
    (hpayloads : Sfmm.payloads blocks₁ = Sfmm.payloads blocks)
    (hkeeps : Keeps (fun b => b.used ≠ none) s.mem blocks s₁.mem blocks₁)
    (horigin : ∀ b ∈ blocks₁, b.used ≠ none → b ∈ blocks)
    (horder : ordered = true → Increasing lists → Increasing lists₁)
    (hzero : tailAfter L s blocks 0 < blockSizeFor size)
    (htail : ∀ j, tailAfter L s₁ blocks₁ j = tailAfter L s blocks (j + 1))
    (hroom₁ : HasRoom size blocks₁ → blockSizeFor size ≤ tailAfter L s blocks 1)
    (alloc : Allocated L ordered size s₁ blocks₁ lists₁ r blocks' lists') :
    Allocated L ordered size s blocks lists r blocks' lists' where
  heap := alloc.heap
  payloads := hpayloads ▸ alloc.payloads
  keeps := hkeeps.trans alloc.keeps
  origin b hb used := (alloc.origin b hb used).imp_left fun h => horigin b h used
  order hordered inc := alloc.order hordered (horder hordered inc)
  room h' := absurd h' h
  grows _ := by
    -- this page was the last one needed, or the rest of the loop takes `k` more
    by_cases hroom : HasRoom size blocks₁
    · obtain ⟨hsome, hcalls', hE'⟩ := alloc.room hroom
      refine ⟨1, by omega, fun j hj => ?_, ?_⟩
      · obtain rfl : j = 0 := by omega
        exact hzero
      · rw [if_neg hsome]
        exact ⟨by omega, Nat.one_pos, hroom₁ hroom⟩
    · obtain ⟨k, hE', hsmall, hcase⟩ := alloc.grows hroom
      refine ⟨k + 1, by rw [Nat.mul_add]; omega, fun j hj => ?_, ?_⟩
      · cases j with
        | zero => exact hzero
        | succ j => exact htail j ▸ hsmall j (by omega)
      · split_ifs at hcase ⊢ with hnone
        · exact ⟨by omega, hcase.2⟩
        · exact ⟨by omega, Nat.succ_pos k, htail k ▸ hcase.2.2⟩

/-- `sf_malloc` in a heap that has a page. -/
theorem HeapOk.mallocFuel_ensures (ok : HeapOk L s blocks lists) (pos : size ≠ 0)
    (hsize : size < 2 ^ 31) (enough : s.pagesLeft < fuel)
    (safe : mallocSafe L ordered size fuel s = true) :
    Ensures (· = Fault.noNode)
      (fun r => ∃ blocks' lists', Allocated L ordered size s blocks lists r blocks' lists')
      (mallocFuel L size fuel s) := by
  induction fuel generalizing s blocks lists with
  | zero => exact absurd enough (Nat.not_lt_zero _)
  | succ fuel ih =>
    have hpos : 0 < blockSizeFor size := by
      rw [blockSizeFor_eq hsize]
      omega
    obtain ⟨htake, hgrow⟩ := mallocSafe_formatted ok pos safe
    rw [mallocFuel_formatted ok pos]
    cases hfind : lists.find? (fits size) with
    | some l => exact ok.takeFrom_ensures hsize hfind (htake l hfind)
    | none =>
      have hroom : ¬ HasRoom size blocks := by
        rw [← ok.find_isSome hsize]
        rintro ⟨l, hl, hfit⟩
        exact List.find?_eq_none.mp hfind l hl hfit
      by_cases granted : CanGrow L s
      · -- a page, and the call to itself
        obtain ⟨hsafe, hrest⟩ := hgrow hfind granted
        obtain ⟨hfits, hnone, horder⟩ := ok.growSafe_lists hsafe
        simp only [sfMemGrow_granted granted]
        have hadd := ok.addPage_ensures granted hfits hnone
        cases hpage : addPage L (withPage s) with
        | error e =>
          rw [hpage] at hadd
          cases hadd with
          | error he => exact .error he
        | ok s₁ =>
          rw [hpage] at hadd
          obtain ⟨blocks₁, lists₁, grown⟩ := hadd.of_ok rfl
          have hpages := grown.pagesLeft
          have hleft := granted.1
          refine (ih grown.heap (by omega) (hrest s₁ hpage)).mono fun r hr => ?_
          obtain ⟨blocks', lists', alloc⟩ := hr
          have htail : ∀ j, tailAfter L s₁ blocks₁ j = tailAfter L s blocks (j + 1) := by
            intro j
            rw [grown.heap.tailAfter_eq, ok.tailAfter_eq, grown.tail, Nat.mul_add]
            omega
          refine ⟨blocks', lists', alloc.of_page hroom grown.heapEnd grown.growCalls grown.payloads
            grown.keeps (fun b hb used => (grown.old b hb).resolve_right fun h => used h.1)
            (fun hordered inc => grown.order inc (horder hordered).1 (horder hordered).2)
            ?_ htail fun h => ?_⟩
          · rw [ok.tailAfter_eq]
            exact tailSize_lt_of_not_hasRoom hpos hroom
          · rw [ok.tailAfter_eq, Nat.mul_one]
            exact (grown.hasRoom_iff hroom).mp h
      · simp only [sfMemGrow_refused granted]
        refine .ok ⟨blocks, lists, ?_, List.Perm.refl _, fun b hb _ => ⟨hb, fun _ _ _ => rfl⟩,
          fun b hb _ => Or.inl hb, fun _ h => h, fun h => absurd h hroom,
          fun _ => ⟨0, by simp, by simp, ?_⟩⟩
        · exact ⟨⟨⟨⟨ok.region, ok.heapEnd_ge, ok.heapEnd_le⟩, ok.lists_ok⟩, ok.listed_frees⟩,
            ok.nonempty⟩
        · rw [if_pos rfl]
          exact ⟨rfl, granted, hroom⟩

/-- `sf_malloc` in a heap without a page. -/
theorem Unformatted.mallocFuel_ensures (h : Unformatted L s) (pos : size ≠ 0)
    (hsize : size < 2 ^ 31) (enough : s.pagesLeft < fuel)
    (safe : mallocSafe L ordered size fuel s = true) :
    Ensures (· = Fault.noNode)
      (fun r => ∃ blocks' lists', Allocated L ordered size s [] [] r blocks' lists')
      (mallocFuel L size fuel s) := by
  have hpage := pageSz_eq
  have hE := h.heapEnd.symm
  cases fuel with
  | zero => exact absurd enough (Nat.not_lt_zero _)
  | succ fuel =>
    have hpos : 0 < blockSizeFor size := by
      rw [blockSizeFor_eq hsize]
      omega
    rw [mallocSafe, callSafe, decide_eq_false pos, Bool.false_or, if_pos hE] at safe
    have hboth := Bool.and_eq_true_iff.mp safe
    have granted : CanGrow L s := of_decide_eq_true hboth.1
    have hrest := hboth.2
    have hfirst := h.firstPage_ensures granted
    cases hformat : firstPage L s with
    | error e =>
      have hrun : mallocFuel L size (fuel + 1) s = .error e := by
        rw [mallocFuel, if_neg pos, if_pos hE, hformat]
        rfl
      rw [hformat] at hfirst
      rw [hrun]
      cases hfirst with
      | error he => exact .error he
    | ok s₁ =>
      rw [hformat] at hfirst hrest
      obtain ⟨hE₁, hpages, hcalls, t, ok₁⟩ := hfirst.of_ok rfl
      -- from here on the call is one in a heap with a page
      have hrun : mallocFuel L size (fuel + 1) s = mallocFuel L size (fuel + 1) s₁ := by
        rw [mallocFuel, mallocFuel, if_neg pos, if_pos hE, if_neg pos, if_neg ok₁.heapEnd_ne,
          hformat]
      have hsafe : mallocSafe L ordered size (fuel + 1) s₁ = true := by
        rw [mallocSafe, callSafe, decide_eq_false pos, Bool.false_or, if_neg ok₁.heapEnd_ne]
        exact hrest
      rw [hrun]
      refine (ok₁.mallocFuel_ensures pos hsize (by omega) hsafe).mono fun r hr => ?_
      obtain ⟨blocks', lists', alloc⟩ := hr
      have hnone : ¬ HasRoom size [] := by
        rintro ⟨b, hb, -⟩
        exact List.not_mem_nil hb
      have htail : ∀ j, tailAfter L s₁ [⟨L.start + 40, pageSz - 48, none⟩] j =
          tailAfter L s [] (j + 1) := by
        intro j
        have hnil : tailSize [] = 0 := rfl
        have hsingle : tailSize [⟨L.start + 40, pageSz - 48, none⟩] = pageSz - 48 := rfl
        rw [ok₁.tailAfter_eq, tailAfter, if_pos hE, hnil, hsingle, Nat.mul_add]
        omega
      have hpayloads : payloads [⟨L.start + 40, pageSz - 48, none⟩] = payloads [] := rfl
      refine ⟨blocks', lists', alloc.of_page hnone hE₁ hcalls hpayloads (by simp [Keeps])
        (fun b hb used => absurd (by rw [List.mem_singleton.mp hb]) used)
        (fun _ _ => List.pairwise_singleton _ _) ?_ htail ?_⟩
      · have hzero : tailAfter L s [] 0 = 0 := by
          rw [tailAfter, if_pos hE]
          rfl
        rw [hzero]
        exact hpos
      · rintro ⟨b, hb, -, hle⟩
        obtain rfl := List.mem_singleton.mp hb
        rw [← htail 0, ok₁.tailAfter_eq]
        exact hle

end CLanguage.Sfmm
