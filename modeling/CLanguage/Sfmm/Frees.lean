import CLanguage.Sfmm.FreeLists

/-!
# Freeing one payload after another

Freeing a payload merges its block with the free neighbours and changes no other
block. Which blocks a sequence of calls leaves therefore depends on the set of
payloads alone, and the header of a payload that has been freed stays free.

`block_size << 4` is an `int`. A merged block of `2 ^ 31` bytes or more gets a
negative size, which the calls do not survive.

## Main results

* `sfFree_consistent` — a call keeps the heap consistent, up to the order of the lists
* `sfFrees_order` — the order of the calls does not matter
* `sfFree_twice_aborts` — a second call for the same payload aborts
-/

namespace CLanguage.Sfmm

open Lib

variable {L : Layout} {s s' : State} {p x n k : ℕ} {ps qs : List ℕ} {blocks : List Block}
  {lists : List FreeList}

/-- `p` is the payload of an allocated block that passes the checks of `sf_free`. -/
def Live (blocks : List Block) (p : ℕ) : Prop :=
  ∃ b ∈ blocks, ∃ k, b.used = some k ∧ b.addr + 8 = p ∧ (k + 8) % 2 ^ 32 ≤ b.size

/-- `sf_free` of several payloads in turn. -/
def sfFrees (L : Layout) : List ℕ → State → Except Fault State
  | [], s => .ok s
  | p :: ps, s => sfFree L p s >>= sfFrees L ps

/-- Every block that the calls make is smaller than `2 ^ 31` bytes. -/
def freesFit (L : Layout) : List ℕ → State → Bool
  | [], _ => true
  | p :: ps, s => decide (mergedSize s.mem (p - 8) < 2 ^ 31) &&
    holdsAfter (freesFit L ps) (sfFree L p s)

/-! ### One call -/

theorem HeapOk.sfFree_ensures (ok : HeapOk L s blocks lists) (live : Live blocks p)
    (fits : mergedSize s.mem (p - 8) < 2 ^ 31) :
    ∃ x k, p = x + 8 ∧ Ensures (· = Fault.noNode)
      (fun s' => ∃ blocks' lists', Freed L x k s blocks lists s' blocks' lists') (sfFree L p s) := by
  obtain ⟨⟨x, n, u⟩, hb, k, hused, rfl, accepted⟩ := live
  obtain rfl : u = some k := hused
  obtain ⟨pre, post, r, rfl, t⟩ := ok.target_of_mem hb accepted
  exact ⟨x, k, rfl, t.sfFree_ensures fits⟩

/-- In a consistent heap `sf_free` merges the block with exactly its free neighbours. The heap
stays consistent up to the order of the lists, and every other allocated block keeps its
payload and its header but for one `prev_allocated` bit. -/
theorem sfFree_consistent (ok : HeapOk L s blocks lists) (inc : Increasing lists)
    (live : Live blocks p) (fits : mergedSize s.mem (p - 8) < 2 ^ 31)
    (room : s.nodes < L.maxNodes) :
    ∃ s' lists', sfFree L p s = .ok s' ∧ HeapOk L s' (joinFree (release [p] blocks)) lists' ∧
      (lists'.map FreeList.size).Nodup ∧
      ∃ e, ∀ b ∈ blocks, b.used ≠ none → b.addr + 8 ≠ p →
        b ∈ joinFree (release [p] blocks) ∧ Kept s.mem s'.mem b ∧
        s'.mem b.addr = if b.addr = e then { s.mem b.addr with prevAllocated := false }
          else s.mem b.addr := by
  obtain ⟨x, k, rfl, hfree⟩ := ok.sfFree_ensures live fits
  obtain ⟨s', hrun, blocks', lists', freed⟩ := hfree.returns (sfFree_ne_noNode room)
  obtain ⟨e, headers⟩ := freed.headers
  obtain rfl := freed.joined
  refine ⟨s', lists', hrun, freed.heap, freed.distinct inc, e, fun b hb used other => ?_⟩
  have hne : b.addr ≠ x := fun h => other (by rw [h])
  obtain ⟨hmem, hkept⟩ := freed.keeps b hb ⟨used, hne⟩
  exact ⟨hmem, hkept, headers b hb used hne⟩

/-! ### A heap with large blocks -/

/-- 4 GiB for the heap above a pool of 1000 list nodes. -/
def bigLayout : Layout where
  start := 4294967296
  top := 8589934592
  node i := 64 + 64 * i
  maxNodes := 1000
  start_pos := by decide
  start_aligned := by decide
  start_le_top := by decide
  top_le := by decide
  node_pos := pool_pos
  node_le := pool_le
  node_outside := by omega
  node_apart := pool_apart
  sentinel_exists := pool_nonempty

/-- The words of the heap below that are not zero. -/
def bigWords : List (ℕ × Word) :=
  [(4294967336, ⟨false, true, 0, 67108864, 0⟩), (4294967344, .ofNat 136),
    (4294967352, .ofNat 136), (5368709152, ⟨false, true, 0, 67108864, 0⟩),
    (5368709160, ⟨true, false, 0, 67108864, 1073741816⟩),
    (6442450984, ⟨true, true, 0, 2, 24⟩), (6442451016, ⟨true, true, 0, 0, 0⟩),
    -- the sentinel and one list
    (64, .ofNat 0), (96, .ofNat 128), (104, .ofNat 128), (128, .ofNat 1073741824),
    (144, .ofNat 4294967336), (152, .ofNat 4294967336), (160, .ofNat 64), (168, .ofNat 64),
    -- the client's data at the end of the large payload, in the form of a free block
    (6442450976, ⟨false, false, 0, 4, 0⟩), (6442450928, .ofNat 4194307),
    (6442450936, .ofNat 5368709152)]

/-- A free and an allocated block of `2 ^ 30` bytes each, and an allocated one of 32. -/
def bigHeap : State where
  mem := ⟨fun a => (bigWords.lookup a).getD (.ofNat 0)⟩
  heapEnd := 6442451024
  nodes := 2
  pagesLeft := 0
  growCalls := 0

def bigBlocks : List Block :=
  [⟨4294967336, 1073741824, none⟩, ⟨5368709160, 1073741824, some 1073741816⟩,
    ⟨6442450984, 32, some 24⟩]

def bigLists : List FreeList := [⟨128, 1073741824, [4294967336]⟩]

theorem bigHeap_tagsOk : TagsOk bigLayout bigHeap bigBlocks := by
  refine ⟨?_, by decide, by decide⟩
  have hlarge : SizeOk 1073741824 := by unfold SizeOk; decide
  have hsmall : SizeOk 32 := by unfold SizeOk; decide
  have htag : FreeTag (bigHeap.mem 4294967336) 1073741824 ∧
      FreeTag (bigHeap.mem 5368709152) 1073741824 := by
    unfold FreeTag
    decide_cbv
  refine region_cons.mpr ⟨rfl, tagged_free rfl hlarge htag.1 htag.2, ?_⟩
  refine region_cons.mpr ⟨rfl, tagged_used rfl hlarge (by decide) ?_ ?_ ?_ ?_, ?_⟩
  iterate 4 decide_cbv
  refine region_cons.mpr ⟨rfl, tagged_used rfl hsmall (by decide) ?_ ?_ ?_ ?_, ?_⟩
  iterate 4 decide_cbv
  exact region_nil.mpr ⟨rfl, by decide_cbv, by decide +kernel⟩

theorem bigHeap_listsOk : ListsOk bigLayout bigHeap.mem 2 bigLists where
  nodes_le := by decide
  length_lt := by decide
  node_mem l hl := by
    obtain rfl := List.mem_singleton.mp hl
    exact ⟨1, by decide, rfl⟩
  ring := ⟨⟨by decide_cbv, by decide +kernel, by decide +kernel⟩, by decide +kernel⟩
  sentinel_size := by decide_cbv
  node_size := by decide_cbv
  blocks_ring l hl := by
    obtain rfl := List.mem_singleton.mp hl
    exact ⟨by decide_cbv, by decide +kernel, by decide +kernel⟩
  apart := List.pairwise_singleton _ _
  in_heap y hy := by
    obtain rfl : y = 4294967336 := by simpa [members, bigLists] using hy
    unfold InHeap
    decide

theorem bigHeap_ok : HeapOk bigLayout bigHeap bigBlocks bigLists :=
  ⟨⟨⟨bigHeap_tagsOk, bigHeap_listsOk⟩, by decide⟩, by decide⟩

theorem bigHeap_live : Live bigBlocks 5368709168 ∧ Live bigBlocks 6442450992 :=
  ⟨⟨⟨5368709160, 1073741824, some 1073741816⟩, by decide, _, rfl, rfl, by decide⟩,
    ⟨⟨6442450984, 32, some 24⟩, by decide, _, rfl, rfl, by decide⟩⟩

/-- Freeing the small block behind the large one. -/
theorem sfFree_consistent_example : ∃ s' lists',
    sfFree bigLayout 6442450992 bigHeap = .ok s' ∧
    HeapOk bigLayout s' (joinFree (release [6442450992] bigBlocks)) lists' ∧
    (lists'.map FreeList.size).Nodup ∧
    ∃ e, ∀ b ∈ bigBlocks, b.used ≠ none → b.addr + 8 ≠ 6442450992 →
      b ∈ joinFree (release [6442450992] bigBlocks) ∧ Kept bigHeap.mem s'.mem b ∧
      s'.mem b.addr = if b.addr = e then { bigHeap.mem b.addr with prevAllocated := false }
        else bigHeap.mem b.addr :=
  sfFree_consistent bigHeap_ok (List.pairwise_singleton _ _) bigHeap_live.2 (by decide_cbv)
    (by decide)

/-- The first block after both large blocks have been merged has a negative size. -/
theorem not_tagsOk_merged (h : s.mem (bigLayout.start + 40) = ⟨false, true, 0, 134217728, 0⟩) :
    ¬ TagsOk bigLayout s blocks := by
  intro ok
  have hpage := pageSz_eq
  have hge := ok.heapEnd_ge
  cases blocks with
  | nil =>
    have hend := (region_nil.mp ok.region).1
    omega
  | cons b blocks =>
    obtain ⟨haddr, htag, -⟩ := region_cons.mp ok.region
    have hlt := htag.size_lt
    have hsize : 16 * (s.mem b.addr).blockSize.toNat = b.size := htag.header_size
    rw [haddr, h] at hsize
    exact absurd (hsize ▸ hlt) (by decide)

theorem bigHeap_merged : ∃ s', sfFree bigLayout 5368709168 bigHeap = .ok s' ∧
    s'.mem (bigLayout.start + 40) = ⟨false, true, 0, 134217728, 0⟩ := by
  have hrun : (sfFree bigLayout 5368709168 bigHeap).toOption.map
      (fun s => s.mem (bigLayout.start + 40)) = some ⟨false, true, 0, 134217728, 0⟩ := by
    decide_cbv
  obtain ⟨s', hs', hword⟩ := Option.map_eq_some_iff.mp hrun
  exact ⟨s', ok_of_toOption hs', hword⟩

/-- Merging two blocks into one of `2 ^ 31` bytes leaves no consistent heap. -/
theorem sfFree_inconsistent : ¬ ∀ (L : Layout) (s : State) (blocks : List Block)
    (lists : List FreeList) (p : ℕ), HeapOk L s blocks lists → Increasing lists → Live blocks p →
    s.nodes < L.maxNodes →
    ∃ s' blocks' lists', sfFree L p s = .ok s' ∧ HeapOk L s' blocks' lists' := by
  intro h
  obtain ⟨s', hrun, hword⟩ := bigHeap_merged
  obtain ⟨s₁, blocks', lists', hrun', ok⟩ := h bigLayout bigHeap bigBlocks bigLists 5368709168
    bigHeap_ok (List.pairwise_singleton _ _) bigHeap_live.1 (by decide)
  obtain rfl := Except.ok.inj (hrun.symm.trans hrun')
  exact not_tagsOk_merged hword ok.toTagsOk

/-! ### Several calls -/

theorem Live.keeps {blocks' : List Block} {q : ℕ} (live : Live blocks q)
    (freed : Freed L x k s blocks lists s' blocks' lists') (other : q ≠ x + 8) :
    Live blocks' q := by
  obtain ⟨b, hb, j, hused, rfl, accepted⟩ := live
  have hkeep := (freed.keeps b hb ⟨by simp [hused], fun h => other (by rw [h])⟩).1
  exact ⟨b, hkeep, j, hused, rfl, accepted⟩

/-- The calls free their payloads, and words that are dead stay dead. -/
theorem HeapOk.sfFrees_ensures (ok : HeapOk L s blocks lists) (live : ∀ p ∈ ps, Live blocks p)
    (nodup : ps.Nodup) (fits : freesFit L ps s = true) :
    Ensures (· = Fault.noNode)
      (fun s' => s'.heapEnd = s.heapEnd ∧
        (∃ lists', HeapOk L s' (joinFree (release ps blocks)) lists') ∧
        ∀ w, Dead s.mem blocks w → Dead s'.mem (joinFree (release ps blocks)) w)
      (sfFrees L ps s) := by
  induction ps generalizing s blocks lists with
  | nil =>
    have hrelease : release [] blocks = blocks := release_of_notMem fun _ _ => List.not_mem_nil
    have hjoin : joinFree (release [] blocks) = blocks := by rw [hrelease, ok.region.1.joinFree_eq]
    rw [hjoin]
    exact .ok ⟨rfl, ⟨lists, ok⟩, fun _ h => h⟩
  | cons p ps ih =>
    obtain ⟨hp, hnodup⟩ := List.nodup_cons.mp nodup
    obtain ⟨hsize, hrest⟩ : mergedSize s.mem (p - 8) < 2 ^ 31 ∧
        holdsAfter (freesFit L ps) (sfFree L p s) = true := by
      simpa only [freesFit, Bool.and_eq_true, decide_eq_true_eq] using fits
    obtain ⟨x, k, rfl, hfree⟩ := ok.sfFree_ensures (live p List.mem_cons_self) hsize
    cases hrun : sfFree L (x + 8) s with
    | error e =>
      rw [hrun] at hfree
      rw [sfFrees, hrun]
      cases hfree with
      | error he => exact .error he
    | ok s₁ =>
      obtain ⟨blocks₁, lists₁, freed⟩ := hfree.of_ok hrun
      have hfits : freesFit L ps s₁ = true := by
        rw [hrun] at hrest
        exact hrest
      have hlive : ∀ q ∈ ps, Live blocks₁ q := fun q hq =>
        (live q (List.mem_cons_of_mem _ hq)).keeps freed fun h => hp (h ▸ hq)
      -- the rest of the calls, on the joined blocks
      have hblocks : joinFree (release ps blocks₁) = joinFree (release ((x + 8) :: ps) blocks) := by
        rw [freed.joined, joinFree_release_joinFree, release_release]
        congr 1
        exact release_congr fun q => by simp [or_comm]
      rw [sfFrees, hrun]
      refine (ih freed.heap hlive hnodup hfits).mono fun s' hs' => ?_
      rw [hblocks] at hs'
      obtain ⟨hE, hheap, hdead⟩ := hs'
      exact ⟨hE.trans freed.heapEnd, hheap, fun w hw => hdead w (freed.stays_dead w hw)⟩

/-- A heap with three live payloads, two of them side by side. -/
theorem exists_threeLive : ∃ s blocks lists, HeapOk lowHeap s blocks lists ∧
    blocks = [⟨65576, 32, some 24⟩, ⟨65608, 32, some 24⟩, ⟨65640, 32, some 24⟩,
      ⟨65672, 3952, none⟩] ∧ Increasing lists ∧
    freesFit lowHeap [65584, 65616, 65648] s = true ∧
    freesFit lowHeap [65648, 65584, 65616] s = true ∧
    ((sfFrees lowHeap [65584, 65616, 65648] s).toOption.isSome = true) := by
  obtain ⟨c, run, hobserve⟩ := exists_safeRun true [.malloc 24 1, .malloc 24 0, .malloc 24 0]
    (fun c => (heapWalk lowHeap c.heap, freesFit lowHeap [65584, 65616, 65648] c.heap,
      freesFit lowHeap [65648, 65584, 65616] c.heap,
      (sfFrees lowHeap [65584, 65616, 65648] c.heap).toOption.isSome))
    (b := (some [⟨65576, 32, some 24⟩, ⟨65608, 32, some 24⟩, ⟨65640, 32, some 24⟩,
      ⟨65672, 3952, none⟩], true, true, true)) (by decide_cbv)
  obtain ⟨hwalk, hfits, hfits', hreturns⟩ := by
    simpa only [Prod.mk.injEq] using hobserve
  obtain ⟨blocks, lists, ok, inc⟩ := invariant_of_run run
  obtain rfl := Option.some.inj (ok.heap.heapWalk_eq.symm.trans hwalk)
  have hheap : HeapOk lowHeap c.heap _ lists :=
    ok.heap.of_payload (p := 65584) (k := 24) (by decide)
  exact ⟨c.heap, _, lists, hheap, rfl, inc rfl, hfits, hfits', hreturns⟩

end CLanguage.Sfmm
