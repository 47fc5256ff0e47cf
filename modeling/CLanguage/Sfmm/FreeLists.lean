import CLanguage.Sfmm.Safety

/-!
# The free lists describe the heap

On runs that also keep every list in its place, the walks of the free lists find
exactly the free blocks of the heap walk, and the sizes of the nodes increase.

## Main results

* `lists_exact` — each list holds the free blocks of its size
* `sizes_increase` — the list of free lists is strictly increasing
-/

namespace CLanguage.Sfmm

open Lib

variable {L : Layout} {s : State} {m : Mem} {c : Client} {rs : List Request}
  {blocks : List Block} {lists A B : List FreeList} {l : FreeList} {t : ℕ}

/-! ### The blocks of a list -/

/-- Following `next` on the list of node `t` visits the free blocks of its size,
each once, and `prev` of each visited block is its predecessor. -/
def ListExact (L : Layout) (s : State) (blocks : List Block) (t : ℕ) : Prop :=
  ∃ ys, listWalk L s t = some ys ∧
    ys.Perm (((frees blocks).filter fun b => b.size = s.mem.nodeSize t).map Block.addr) ∧
    ys.Nodup ∧ ys.map s.mem.linksPrev = (nodeHead t :: ys).dropLast

/-- The free lists hold the free blocks of the heap walk, by their sizes. -/
def ListsExact (L : Layout) (s : State) : Prop :=
  ∃ blocks nodes, heapWalk L s = some blocks ∧ nodeWalk L s = some nodes ∧
    (∀ t ∈ nodes, ListExact L s blocks t) ∧
    ∀ b ∈ frees blocks, b.size ∈ nodes.map s.mem.nodeSize

theorem filter_listed_of_ne {n : ℕ} (h : ∀ k ∈ lists, k.size ≠ n) :
    (listed lists).filter (fun b => b.size = n) = [] := by
  refine List.filter_eq_nil_iff.mpr fun b hb => ?_
  obtain ⟨k, hk, hbk⟩ := List.mem_flatMap.mp hb
  obtain ⟨a, -, rfl⟩ := List.mem_map.mp hbk
  simpa using h k hk

/-- In increasing lists the blocks of one size are those of one list. -/
theorem filter_listed (inc : Increasing lists) (hl : l ∈ lists) :
    (listed lists).filter (fun b => b.size = l.size) = l.blocks.map (⟨·, l.size, none⟩) := by
  obtain ⟨A, B, rfl⟩ := List.append_of_mem hl
  obtain ⟨-, hB, hA⟩ := List.pairwise_append.mp inc
  have hafter : ∀ k ∈ B, k.size ≠ l.size := fun k hk =>
    Nat.ne_of_gt ((List.pairwise_cons.mp hB).1 k hk)
  have hbefore : ∀ k ∈ A, k.size ≠ l.size := fun k hk => Nat.ne_of_lt (hA k hk l List.mem_cons_self)
  have hsplit : listed (A ++ l :: B) =
      listed A ++ (l.blocks.map (⟨·, l.size, none⟩) ++ listed B) := by
    rw [listed_append]
    rfl
  rw [hsplit, List.filter_append, List.filter_append, filter_listed_of_ne hbefore,
    filter_listed_of_ne hafter, List.nil_append, List.append_nil]
  exact List.filter_eq_self.mpr fun b hb => by
    obtain ⟨a, -, rfl⟩ := List.mem_map.mp hb
    simp

theorem HeapOk.listExact (ok : HeapOk L s blocks lists) (inc : Increasing lists) (hl : l ∈ lists) :
    ListExact L s blocks l.node := by
  have ring := ok.lists_ok.blocks_ring l hl
  refine ⟨l.blocks, ok.listWalk_eq hl, ?_, (List.nodup_cons.mp ring.nodup).2, ring.map_prev⟩
  have hperm := ((ok.listed_frees.filter fun b => b.size = l.size).map Block.addr)
  rw [filter_listed inc hl, List.map_map] at hperm
  have hid : (Block.addr ∘ fun a => (⟨a, l.size, none⟩ : Block)) = id := rfl
  rw [hid, List.map_id] at hperm
  rw [ok.lists_ok.node_size l hl]
  exact hperm

theorem ListsOk.map_nodeSize {n : ℕ} (ok : ListsOk L m n lists) :
    (lists.map FreeList.node).map m.nodeSize = lists.map FreeList.size := by
  rw [List.map_map]
  exact List.map_congr_left fun l hl => ok.node_size l hl

theorem Valid.listsExact (h : Valid L s blocks lists) (inc : Increasing lists) : ListsExact L s := by
  refine ⟨blocks, lists.map FreeList.node, h.heapWalk_eq, h.nodeWalk_eq, ?_, ?_⟩
  · intro t ht
    obtain ⟨l, hl, rfl⟩ := List.mem_map.mp ht
    rcases h with ok | ⟨-, -, rfl⟩
    · exact ok.listExact inc hl
    · exact absurd hl List.not_mem_nil
  · intro b hb
    rw [h.lists_ok.map_nodeSize]
    rcases h with ok | ⟨-, rfl, -⟩
    · obtain ⟨l, hl, hbl⟩ := List.mem_flatMap.mp (ok.listed_frees.symm.subset hb)
      obtain ⟨a, -, rfl⟩ := List.mem_map.mp hbl
      exact List.mem_map_of_mem hl
    · exact absurd hb List.not_mem_nil

/-- After every run of safe and ordered steps the free lists describe the heap exactly. -/
theorem lists_exact (run : Run (Client.SafeStep L true) (Client.initial L m) rs c) :
    ListsExact L c.heap := by
  obtain ⟨blocks, lists, ok, inc⟩ := invariant_of_run run
  exact ok.heap.listsExact (inc rfl)

set_option maxRecDepth 2000 in
/-- A run that lists blocks of several sizes. -/
theorem lists_exact_example : ∃ c : Client, c.live = [(65680, 40), (65648, 24)] ∧
    ListsExact lowHeap c.heap := by
  obtain ⟨c, run, hlive⟩ := exists_safeRun true
    [.malloc 24 1, .malloc 24 0, .malloc 24 0, .free 65616, .realloc 65584 40 0] Client.live
    (b := [(65680, 40), (65648, 24)]) (by decide_cbv)
  exact ⟨c, hlive, lists_exact run⟩

/-- A remainder whose size already has a list is not reachable from its node. -/
theorem remainder_lost : ¬ ∀ (L : Layout) (m : Mem) (rs : List Request) (c : Client),
    Run (Client.Step L) (Client.initial L m) rs c → ListsExact L c.heap := by
  intro h
  obtain ⟨c, run, hobserve⟩ := exists_run [.malloc 24 1, .free 65584, .malloc 24 0]
    (fun c => (heapWalk lowHeap c.heap, nodeWalk lowHeap c.heap, c.heap.mem.nodeSize 192,
      listWalk lowHeap c.heap 192))
    (b := (some [⟨65576, 32, some 24⟩, ⟨65608, 4016, none⟩], some [192, 128], 4016, some []))
    (by decide_cbv)
  simp only [Prod.mk.injEq] at hobserve
  obtain ⟨hblocks, hnodes, hsize, hlist⟩ := hobserve
  obtain ⟨blocks, nodes, hblocks', hnodes', hexact, -⟩ := h _ _ _ c run
  rw [hblocks] at hblocks'
  rw [hnodes] at hnodes'
  obtain rfl := Option.some.inj hblocks'
  obtain rfl := Option.some.inj hnodes'
  obtain ⟨ys, hys, hperm, -⟩ := hexact 192 (by simp)
  rw [hlist] at hys
  obtain rfl := Option.some.inj hys
  rw [hsize] at hperm
  exact absurd hperm.length_eq (by decide)

/-! ### The order of the lists -/

/-- The sizes of the nodes increase strictly along the list of free lists. -/
def SizesIncrease (L : Layout) (s : State) : Prop :=
  ∃ nodes, nodeWalk L s = some nodes ∧ (nodes.map s.mem.nodeSize).Pairwise (· < ·)

/-- After every run of safe and ordered steps the sizes of the lists increase. -/
theorem sizes_increase (run : Run (Client.SafeStep L true) (Client.initial L m) rs c) :
    SizesIncrease L c.heap := by
  obtain ⟨blocks, lists, ok, inc⟩ := invariant_of_run run
  refine ⟨_, ok.heap.nodeWalk_eq, ?_⟩
  rw [ok.heap.lists_ok.map_nodeSize]
  exact (inc rfl).map _ fun _ _ h => h

set_option maxRecDepth 2000 in
/-- A run that makes four lists. -/
theorem sizes_increase_example : ∃ c : Client, c.live = [(65680, 40), (65648, 24)] ∧
    SizesIncrease lowHeap c.heap := by
  obtain ⟨c, run, hlive⟩ := exists_safeRun true
    [.malloc 24 1, .malloc 24 0, .malloc 24 0, .free 65616, .realloc 65584 40 0] Client.live
    (b := [(65680, 40), (65648, 24)]) (by decide_cbv)
  exact ⟨c, hlive, sizes_increase run⟩

/-- A freed block smaller than the only list gets its node behind it. -/
theorem sizes_decrease : ¬ ∀ (L : Layout) (m : Mem) (rs : List Request) (c : Client),
    Run (Client.Step L) (Client.initial L m) rs c → SizesIncrease L c.heap := by
  intro h
  obtain ⟨c, run, hobserve⟩ := exists_run [.malloc 4040 1, .realloc 65584 1 0]
    (fun c => (nodeWalk lowHeap c.heap, (nodeWalk lowHeap c.heap).map (List.map c.heap.mem.nodeSize)))
    (b := (some [128, 192], some [4048, 4016])) (by decide_cbv)
  simp only [Prod.mk.injEq] at hobserve
  obtain ⟨hnodes, hsizes⟩ := hobserve
  obtain ⟨nodes, hnodes', hsorted⟩ := h _ _ _ c run
  rw [hnodes] at hnodes' hsizes
  obtain rfl := Option.some.inj hnodes'
  rw [Option.some.inj hsizes] at hsorted
  exact absurd hsorted (by decide)

end CLanguage.Sfmm
