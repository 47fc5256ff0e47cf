import CLanguage.Sfmm.Growth
import CLanguage.Sfmm.Join

/-!
# Where the memory goes

After every run that stays off the faulty branches the blocks account for the whole heap:
their sizes add up to it, every live pointer has a block that is large enough, and there is
at most one more free block than live pointers. If nothing is live, the heap is one free
block. A block is taken from the smallest free ones that are large enough.

## Main results

* `heap_accounted` — the blocks account for the heap
* `sfMalloc_best_fit` — `sf_malloc` takes a block of the smallest size that fits
-/

namespace CLanguage.Sfmm

open Lib

variable {L : Layout} {ordered : Bool} {s s' : State} {m : Mem} {c : Client} {rs : List Request}
  {a e p size grants : ℕ} {q r : Bool} {b : Block} {blocks : List Block} {lists : List FreeList}
  {l : FreeList}

/-! ### The blocks of a stretch -/

theorem Tiled.sum_sizes (h : Tiled m a q blocks e r) : a + (blocks.map Block.size).sum = e := by
  induction blocks generalizing a q with
  | nil => exact (tiled_nil.mp h).1
  | cons b blocks ih =>
    obtain ⟨rfl, -, hrest⟩ := h
    have hsum := ih hrest
    have hfin := b.fin_eq
    rw [List.map_cons, List.sum_cons]
    omega

/-- Between two free blocks there is an allocated one. -/
theorem Tiled.length_frees_le (h : Tiled m a q blocks e r) :
    (frees blocks).length ≤ (payloads blocks).length + q.toNat := by
  induction blocks generalizing a q with
  | nil => exact Nat.zero_le _
  | cons b blocks ih =>
    obtain ⟨-, htag, hrest⟩ := h
    have hle := ih hrest
    cases hused : b.used with
    | none =>
      obtain rfl := htag.no_adjacent hused
      rw [hused] at hle
      rw [frees_cons_free hused, payloads_cons_free hused, List.length_cons]
      exact Nat.succ_le_succ hle
    | some k =>
      rw [hused] at hle
      rw [frees_cons_used (by simp [hused]), payloads_cons_used hused, List.length_cons]
      exact hle.trans (Nat.le_add_right _ _)

/-- Blocks that are all free are one block. -/
theorem Tiled.eq_singleton (h : Tiled m a q blocks e r) (nonempty : blocks ≠ [])
    (free : payloads blocks = []) : blocks = [⟨a, e - a, none⟩] := by
  have hfree : ∀ b ∈ blocks, b.used = none := by
    intro b hb
    cases hused : b.used with
    | none => rfl
    | some k =>
      have hp : (b.addr + 8, k) ∈ payloads blocks := mem_payloads.mpr ⟨b, hb, hused, rfl⟩
      rw [free] at hp
      exact absurd hp List.not_mem_nil
  have hjoined : joinFree (release [] blocks) = [⟨a, e - a, none⟩] :=
    h.joinFree_all nonempty fun b hb used => absurd (hfree b hb) used
  rwa [release_of_notMem fun _ _ => List.not_mem_nil, h.joinFree_eq] at hjoined

/-! ### The whole heap -/

/-- The blocks between prologue and epilogue account for the heap of a client. -/
structure Accounted (L : Layout) (c : Client) (blocks : List Block) : Prop where
  walk : heapWalk L c.heap = some blocks
  sizes : (blocks.map Block.size).sum = c.heap.heapEnd - (L.start + 48)
  live : ∀ e ∈ c.live, ∃ n, ⟨e.1 - 8, n, some e.2⟩ ∈ blocks ∧ need e.2 ≤ n
  free : (frees blocks).length ≤ c.live.length + 1
  empty : c.live = [] → c.heap.heapEnd ≠ L.start →
    blocks = [⟨L.start + 40, c.heap.heapEnd - (L.start + 48), none⟩]

theorem ClientOk.accounted (ok : ClientOk L c blocks lists) : Accounted L c blocks := by
  have hlength := ok.live.length_eq
  rcases ok.heap with hok | ⟨hun, rfl, rfl⟩
  · have hpage := pageSz_eq
    have hge := hok.heapEnd_ge
    have hle := hok.region.1.length_frees_le
    have hsum := hok.region.1.sum_sizes
    refine ⟨hok.heapWalk_eq, by omega, fun e he => ?_, ?_, fun hlive _ => ?_⟩
    · obtain ⟨⟨x, n, u⟩, hb, hused, haddr⟩ := mem_payloads.mp (ok.payload he)
      obtain rfl : u = some e.2 := hused
      have haddr : e.1 - 8 = x := Nat.sub_eq_of_eq_add haddr.symm
      have hfit : e.2 + 8 ≤ n := ok.fits _ hb e.2 rfl
      have hsize : SizeOk n := hok.sizeOk hb
      refine ⟨n, haddr ▸ hb, ?_⟩
      unfold SizeOk at hsize
      unfold need
      omega
    · rw [hlength]
      exact hle
    · have hfree : payloads blocks = [] := List.nil_perm.mp (hlive ▸ ok.live)
      have hnonempty : blocks ≠ [] := by
        rintro rfl
        have hend := (region_nil.mp hok.region).1
        omega
      rw [hok.region.1.eq_singleton hnonempty hfree]
      congr 2
      omega
  · refine ⟨ok.heap.heapWalk_eq, ?_, fun e he => absurd (ok.payload he) List.not_mem_nil,
      Nat.zero_le _, fun _ hend => absurd hun.heapEnd hend⟩
    rw [hun.heapEnd]
    exact (Nat.sub_eq_zero_of_le (Nat.le_add_right _ _)).symm

/-- After every run of safe steps the blocks account for the heap. -/
theorem heap_accounted (run : Run (Client.SafeStep L false) (Client.initial L m) rs c) :
    ∃ blocks, Accounted L c blocks := by
  obtain ⟨blocks, lists, ok, -⟩ := invariant_of_run run
  exact ⟨blocks, ok.accounted⟩

/-- Three payloads that are freed again. -/
theorem heap_accounted_example : ∃ c : Client,
    heapWalk lowHeap c.heap = some [⟨65576, 4048, none⟩] := by
  obtain ⟨c, run, hobserve⟩ := exists_safeRun false
    [.malloc 24 1, .malloc 24 0, .malloc 24 0, .free 65616, .free 65584, .free 65648]
    (fun c => (c.live, c.heap.heapEnd)) (b := ([], 69632)) (by decide_cbv)
  obtain ⟨hlive, hend⟩ := Prod.mk.inj hobserve
  obtain ⟨blocks, accounted⟩ := heap_accounted run
  have hblocks := accounted.empty hlive (by rw [hend]; decide)
  rw [hend] at hblocks
  exact ⟨c, accounted.walk.trans (congrArg some hblocks)⟩

/-! ### Best fit -/

theorem size_of_fits (bound : size < 2 ^ 31) (hfit : fits size l = true) : size + 8 ≤ l.size := by
  have hboth : add64 size 8 ≤ l.size ∧ l.blocks ≠ [] := by simpa [fits] using hfit
  rw [add64_of_lt (by omega)] at hboth
  exact hboth.1

/-- The payload is the first block of the first list with room, if there is one. -/
theorem HeapOk.sfMalloc_takes (ok : HeapOk L s blocks lists) (pos : 0 < size)
    (bound : size < 2 ^ 31) (safe : mallocSafe L ordered size (s.pagesLeft + 1) s = true)
    (hfind : lists.find? (fits size) = some l) (ret : sfMalloc L size s = .ok (some p, s')) :
    ∃ x, p = x + 8 ∧ x ∈ l.blocks := by
  have hpos : size ≠ 0 := Nat.ne_of_gt pos
  have hl := List.mem_of_find?_eq_some hfind
  have hfit := List.find?_some hfind
  have htake := (mallocSafe_formatted ok hpos safe).1 l hfind
  rw [sfMalloc, mallocFuel_formatted ok hpos, hfind] at ret
  obtain ⟨A, B, rfl⟩ := List.append_of_mem hl
  obtain ⟨x, found, hnone⟩ := ok.found bound hfit htake
  have hmem : x ∈ l.blocks := by simp [found.blocks_eq]
  have hsz := ok.sizeOk (ok.mem_listed hl hmem)
  have hle := size_of_fits bound hfit
  obtain ⟨hbs, hfitbs⟩ := blockSizeFor_sizeOk bound hsz hle
  have hsub : sub64 l.size (blockSizeFor size) = l.size - blockSizeFor size :=
    sub64_of_le ((blockSizeFor_le bound hsz).mpr hle) (hsz.2.2.trans (by decide))
  refine ⟨x, ?_, hmem⟩
  simp only [takeFrom, found.nodeSize_eq, hsub] at ret
  split_ifs at ret with hsplit
  · obtain ⟨⟨y, s₁⟩, hrun, hret⟩ := bind_eq_ok ret
    have htaken := (found.takeSplit_served rfl hbs hfitbs (by omega) (hnone (by omega))).of_ok hrun
    obtain rfl : y = x + 8 := htaken.1
    exact (Option.some.inj (Prod.mk.inj (Except.ok.inj hret)).1).symm
  · obtain ⟨m', blocks', hrun, -⟩ := found.takeWhole_served hle
    rw [hrun] at ret
    exact (Option.some.inj (Prod.mk.inj (Except.ok.inj ret)).1).symm

/-- In increasing lists the first list with room has the smallest blocks with room. -/
theorem HeapOk.find_smallest (ok : HeapOk L s blocks lists) (inc : Increasing lists)
    (bound : size < 2 ^ 31) (hfind : lists.find? (fits size) = some l) (hb : b ∈ frees blocks)
    (room : need size ≤ b.size) : l.size ≤ b.size := by
  obtain ⟨hmem, hfree⟩ := mem_frees.mp hb
  obtain ⟨k, hk, hbk⟩ := List.mem_flatMap.mp (ok.listed_frees.symm.subset hb)
  obtain ⟨x, hx, rfl⟩ := List.mem_map.mp hbk
  have hneed : blockSizeFor size = need size := blockSizeFor_eq bound
  have hle : size + 8 ≤ k.size := (blockSizeFor_le bound (ok.sizeOk hmem)).mp (hneed ▸ room)
  have hfits : fits size k = true := by
    have hadd : add64 size 8 = size + 8 := add64_of_lt (by omega)
    have hne : k.blocks ≠ [] := List.ne_nil_of_mem hx
    simp [fits, hadd, hle, hne]
  obtain ⟨-, A, B, rfl, hbefore⟩ := List.find?_eq_some_iff_append.mp hfind
  rcases List.mem_append.mp hk with hA | hB
  · have hno := hbefore k hA
    rw [hfits] at hno
    exact absurd hno (by decide)
  · rcases List.mem_cons.mp hB with rfl | hB
    · exact le_rfl
    · exact ((List.pairwise_cons.mp (List.pairwise_append.mp inc).2.1).1 k hB).le

/-- After every run of safe and ordered steps, `sf_malloc` takes a free block of the smallest
size that fits, whenever there is one that fits. -/
theorem sfMalloc_best_fit (run : Run (Client.SafeStep L true) (Client.initial L m) rs c)
    (pos : 0 < size) (bound : size < 2 ^ 31) (safe : c.safe L true (.malloc size grants) = true)
    (ret : sfMalloc L size { c.heap with pagesLeft := grants } = .ok (some p, s')) :
    ∃ blocks, heapWalk L c.heap = some blocks ∧
      ((∃ b ∈ frees blocks, need size ≤ b.size) → ∃ b ∈ frees blocks, p = b.addr + 8 ∧
        need size ≤ b.size ∧ ∀ b' ∈ frees blocks, need size ≤ b'.size → b.size ≤ b'.size) := by
  obtain ⟨blocks, lists, ok, inc⟩ := invariant_of_run run
  refine ⟨blocks, ok.heap.heapWalk_eq, fun ⟨b₀, hb₀, hroom⟩ => ?_⟩
  obtain ⟨hmem₀, hfree₀⟩ := mem_frees.mp hb₀
  have hok : HeapOk L { c.heap with pagesLeft := grants } blocks lists := by
    rcases ok.heap with hok | ⟨-, rfl, -⟩
    · exact hok.pages
    · exact absurd hmem₀ List.not_mem_nil
  have hneed : blockSizeFor size = need size := blockSizeFor_eq bound
  have hsome : ∃ l ∈ lists, fits size l = true :=
    (hok.find_isSome bound).mpr ⟨b₀, hmem₀, hfree₀, hneed ▸ hroom⟩
  obtain ⟨l, hfind⟩ := Option.isSome_iff_exists.mp (List.find?_isSome.mpr hsome)
  have hl := List.mem_of_find?_eq_some hfind
  obtain ⟨x, rfl, hx⟩ := hok.sfMalloc_takes pos bound safe hfind ret
  have hb := hok.mem_listed hl hx
  refine ⟨⟨x, l.size, none⟩, mem_frees.mpr ⟨hb, rfl⟩, rfl, ?_, fun b' hb' hroom' =>
    hok.find_smallest (inc rfl) bound hfind hb' hroom'⟩
  rw [← hneed]
  exact (blockSizeFor_le bound (hok.sizeOk hb)).mpr (size_of_fits bound (List.find?_some hfind))

/-- Of the free blocks of 208 and 3808 bytes the smaller one is taken. -/
theorem sfMalloc_best_fit_example : ∃ c : Client,
    heapWalk lowHeap c.heap =
      some [⟨65576, 208, none⟩, ⟨65784, 32, some 24⟩, ⟨65816, 3808, none⟩] ∧
    ∃ b ∈ frees [⟨65576, 208, none⟩, ⟨65784, 32, some 24⟩, ⟨65816, 3808, none⟩],
      65584 = b.addr + 8 := by
  obtain ⟨c, run, hobserve⟩ := exists_safeRun true [.malloc 200 1, .malloc 24 0, .free 65584]
    (fun c => (heapWalk lowHeap c.heap, c.safe lowHeap true (.malloc 100 1),
      (c.mallocResult lowHeap 100).map Prod.fst))
    (b := (some [⟨65576, 208, none⟩, ⟨65784, 32, some 24⟩, ⟨65816, 3808, none⟩], true,
      some (some 65584))) (by decide_cbv)
  simp only [Prod.mk.injEq] at hobserve
  obtain ⟨hwalk, hsafe, hresult⟩ := hobserve
  obtain ⟨⟨_, s'⟩, hresult, rfl⟩ := Option.map_eq_some_iff.mp hresult
  have hrun : sfMalloc lowHeap 100 { c.heap with pagesLeft := 1 } = .ok (some 65584, s') := by
    rw [Client.mallocResult] at hresult
    exact ok_of_toOption hresult
  obtain ⟨blocks, hblocks, htaken⟩ :=
    sfMalloc_best_fit run (show 0 < 100 by decide) (by decide) hsafe hrun
  obtain rfl := Option.some.inj (hwalk.symm.trans hblocks)
  obtain ⟨b, hb, haddr, -⟩ := htaken ⟨⟨65576, 208, none⟩, by decide, by decide⟩
  exact ⟨c, hwalk, b, hb, haddr⟩

end CLanguage.Sfmm
