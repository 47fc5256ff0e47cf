import CLanguage.Sfmm.Safety

/-!
# The heap grows only as far as it has to

On runs that stay off the faulty branches, `sf_malloc` finds every free block
that is large enough. Without one it asks for pages until the free block at the
end of the heap is large enough, and fails only if `sf_mem_grow` does.
-/

namespace CLanguage.Sfmm

open Lib

variable {L : Layout} {s : State} {m : Mem} {c : Client} {rs : List Request}
  {blocks : List Block} {lists : List FreeList} {size grants : ℕ}

/-- The block size for a request: room for the header, rounded up to 16, at least 32. -/
def need (size : ℕ) : ℕ := max 32 ((size + 8 + 15) / 16 * 16)

/-- The result `r` of `sf_malloc(size)` in the heap of the given blocks: no page if
a free block is large enough, and otherwise `k` pages, where no smaller number
makes the free block at the end of the heap large enough. -/
def GrowsAsNeeded (L : Layout) (size : ℕ) (s : State) (blocks : List Block)
    (r : Option ℕ × State) : Prop :=
  ((∃ b ∈ frees blocks, need size ≤ b.size) →
    r.1 ≠ none ∧ r.2.growCalls = s.growCalls ∧ r.2.heapEnd = s.heapEnd) ∧
  ((∀ b ∈ frees blocks, b.size < need size) → ∃ k, r.2.heapEnd = s.heapEnd + pageSz * k ∧
    (∀ j < k, tailAfter L s blocks j < need size) ∧
    (r.1 ≠ none → r.2.growCalls = s.growCalls + k ∧ need size ≤ tailAfter L s blocks k) ∧
    (r.1 = none → r.2.growCalls = s.growCalls + k + 1 ∧ ¬ CanGrow L r.2 ∧
      ∃ blocks', heapWalk L r.2 = some blocks' ∧ ∀ b ∈ frees blocks', b.size < need size))

theorem not_hasRoom (bound : size < 2 ^ 31) :
    ¬ HasRoom size blocks ↔ ∀ b ∈ frees blocks, b.size < need size := by
  have hneed : blockSizeFor size = need size := blockSizeFor_eq bound
  simp [HasRoom, mem_frees, hneed]

theorem Allocated.growsAsNeeded {ordered : Bool} {r : Option ℕ × State} {blocks' : List Block}
    {lists' : List FreeList} (alloc : Allocated L ordered size s blocks lists r blocks' lists')
    (bound : size < 2 ^ 31) : GrowsAsNeeded L size s blocks r := by
  have hneed : blockSizeFor size = need size := blockSizeFor_eq bound
  constructor
  · rintro ⟨b, hb, hle⟩
    obtain ⟨hmem, hfree⟩ := mem_frees.mp hb
    exact alloc.room ⟨b, hmem, hfree, hneed ▸ hle⟩
  · intro hnone
    obtain ⟨k, hend, hsmall, hcase⟩ := alloc.grows ((not_hasRoom bound).mpr hnone)
    rw [hneed] at hsmall hcase
    refine ⟨k, hend, hsmall, fun h => ?_, fun h => ?_⟩
    · rw [if_neg h] at hcase
      exact ⟨hcase.1, hcase.2.2⟩
    · rw [if_pos h] at hcase
      obtain ⟨hcalls, hrefused, hroom⟩ := hcase
      exact ⟨hcalls, hrefused, blocks', alloc.heap.heapWalk_eq, (not_hasRoom bound).mp hroom⟩

/-- After every run of safe steps, a safe call of `sf_malloc` returns and grows the heap
as needed, unless the C library has no room for a list node. -/
theorem sfMalloc_grows_as_needed
    (run : Run (Client.SafeStep L false) (Client.initial L m) rs c) (pos : 0 < size)
    (bound : size < 2 ^ 31) (safe : c.safe L false (.malloc size grants) = true) :
    ∃ blocks, heapWalk L c.heap = some blocks ∧
      Ensures (· = Fault.noNode)
        (GrowsAsNeeded L size { c.heap with pagesLeft := grants } blocks)
        (sfMalloc L size { c.heap with pagesLeft := grants }) := by
  obtain ⟨blocks, lists, ok, -⟩ := invariant_of_run run
  refine ⟨blocks, ok.heap.heapWalk_eq, ?_⟩
  refine (ok.heap.pages.sfMalloc_ensures (Nat.ne_of_gt pos) bound safe).mono fun r hr => ?_
  obtain ⟨blocks', lists', alloc⟩ := hr
  exact alloc.growsAsNeeded bound

/-- A request for which the heap has to grow by two pages. -/
theorem sfMalloc_grows_as_needed_example : ∃ (c : Client) (blocks : List Block),
    c.live = [(65584, 24)] ∧ heapWalk lowHeap c.heap = some blocks ∧
    Ensures (· = Fault.noNode)
      (GrowsAsNeeded lowHeap 10000 { c.heap with pagesLeft := 5 } blocks)
      (sfMalloc lowHeap 10000 { c.heap with pagesLeft := 5 }) := by
  obtain ⟨c, run, hobserve⟩ := exists_safeRun false [.malloc 24 1]
    (fun c => (c.live, c.safe lowHeap false (.malloc 10000 5)))
    (b := ([(65584, 24)], true)) (by decide_cbv)
  obtain ⟨hlive, hsafe⟩ := Prod.mk.inj hobserve
  obtain ⟨blocks, hwalk, hgrows⟩ :=
    sfMalloc_grows_as_needed run (show 0 < 10000 by decide) (by decide) hsafe
  exact ⟨c, blocks, hlive, hwalk, hgrows⟩

/-- What a call of `sf_malloc(size)` that may grow the heap by a page returns, with the
number of calls of `sf_mem_grow`. -/
def Client.mallocResult (L : Layout) (size : ℕ) (c : Client) : Option (Option ℕ × State) :=
  (sfMalloc L size { c.heap with pagesLeft := 1 }).toOption

/-- A remainder that was lost is not found again, and the heap grows for nothing. -/
theorem sfMalloc_grows_needlessly : ¬ ∀ (L : Layout) (m : Mem) (rs : List Request) (c : Client)
    (size grants : ℕ), Run (Client.Step L) (Client.initial L m) rs c → 0 < size → size < 2 ^ 31 →
    ∃ blocks, heapWalk L c.heap = some blocks ∧
      Ensures (· = Fault.noNode)
        (GrowsAsNeeded L size { c.heap with pagesLeft := grants } blocks)
        (sfMalloc L size { c.heap with pagesLeft := grants }) := by
  intro h
  obtain ⟨c, run, hobserve⟩ := exists_run [.malloc 24 1, .free 65584, .malloc 24 0]
    (fun c => (heapWalk lowHeap c.heap, c.heap.growCalls,
      (c.mallocResult lowHeap 24).map fun r => r.2.growCalls))
    (b := (some [⟨65576, 32, some 24⟩, ⟨65608, 4016, none⟩], 1, some 2)) (by decide_cbv)
  simp only [Prod.mk.injEq] at hobserve
  obtain ⟨hblocks, hbefore, hafter⟩ := hobserve
  obtain ⟨r, hresult, hcalls⟩ := Option.map_eq_some_iff.mp hafter
  obtain ⟨blocks, hblocks', hgrows⟩ := h _ _ _ c 24 1 run (by decide) (by decide)
  rw [hblocks] at hblocks'
  obtain rfl := Option.some.inj hblocks'
  cases hrun : sfMalloc lowHeap 24 { c.heap with pagesLeft := 1 } with
  | error e => simp [Client.mallocResult, hrun, Except.toOption] at hresult
  | ok r' =>
    obtain rfl : r' = r := by simpa [Client.mallocResult, hrun, Except.toOption] using hresult
    have hsame := ((hgrows.of_ok hrun).1 ⟨⟨65608, 4016, none⟩, by decide, by decide⟩).2.1
    simp only [hcalls, hbefore] at hsame
    exact absurd hsame (by decide)

end CLanguage.Sfmm
