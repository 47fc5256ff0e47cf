import CLanguage.Sfmm.Growth

/-!
# Reallocating to a smaller size

`sf_realloc` keeps the payload where it is. What is left over behind it becomes a
free block if it is large enough for one, merged with a free block after it.
-/

namespace CLanguage.Sfmm

open Lib

variable {L : Layout} {s : State} {x n k size : ℕ} {r : Bool} {pre post blocks : List Block}
  {lists : List FreeList}

/-- In a heap below `2 ^ 31` bytes no tail is too large. -/
theorem Target.shrinkFits_of_small (t : Target L s lists pre r x n k post)
    (small : s.heapEnd < L.start + 2 ^ 31) : shrinkFits (x + 8) size s = true := by
  obtain ⟨hn, hx, hxn, hE, htop, hlt⟩ := t.bounds
  have hown : 16 * (s.mem x).blockSize.toNat = n := t.tagged.header_size
  have hpage := pageSz_eq
  rw [shrinkFits, Nat.add_sub_cancel, hown]
  cases hnext : (s.mem (x + n)).allocated with
  | true => simp
  | false =>
    obtain ⟨⟨z, o, u⟩, back, rfl, hfree⟩ := t.after.allocated_eq_false.mp hnext
    obtain ⟨rfl, htag, hback⟩ := region_cons.mp t.after
    have hsize : 16 * (s.mem (x + n)).blockSize.toNat = o := htag.header_size
    have hle : x + n + o ≤ s.heapEnd - 8 := hback.le
    rw [hsize]
    simp only [Bool.or_false, Bool.or_eq_true, decide_eq_true_eq]
    omega

/-- The block of the payload after the call. -/
theorem mem_shrunkBlocks (bound : size < 2 ^ 31) :
    (⟨x, if n - need size < 32 then n else need size, some size⟩ : Block) ∈
      shrunkBlocks pre x n size post := by
  have hneed : blockSizeFor size = need size := blockSizeFor_eq bound
  rw [shrunkBlocks, hneed]
  split_ifs
  · simp
  · exact mem_joinFree (by simp) (by simp)

/-- `sf_realloc` to a smaller size: the payload stays, its block gives up what it can, and the
rest of the heap is kept up to the order of the lists. -/
theorem sfRealloc_smaller (ok : HeapOk L s blocks lists) (inc : Increasing lists)
    (small : s.heapEnd < L.start + 2 ^ 31) (live : ⟨x, n, some k⟩ ∈ blocks) (fit : k + 8 ≤ n)
    (pos : 0 < size) (lt : size < k) (room : s.nodes < L.maxNodes) :
    ∃ s' pre post lists', sfRealloc L (x + 8) size s = .ok (some (x + 8), s') ∧
      blocks = pre ++ ⟨x, n, some k⟩ :: post ∧
      HeapOk L s' (shrunkBlocks pre x n size post) lists' ∧ (lists'.map FreeList.size).Nodup ∧
      ⟨x, if n - need size < 32 then n else need size, some size⟩ ∈
        shrunkBlocks pre x n size post ∧
      (∀ i < size, s'.mem.byteAt (x + 8 + i) = s.mem.byteAt (x + 8 + i)) ∧
      ∀ b ∈ blocks, b.used ≠ none → b.addr ≠ x →
        b ∈ shrunkBlocks pre x n size post ∧ Kept s.mem s'.mem b := by
  have haligned : x % 8 = 0 := (ok.aligned live).1
  obtain ⟨pre, post, r, rfl, t⟩ := ok.target_of_mem live ((Nat.mod_le _ _).trans fit)
  have hn31 : n < 2 ^ 31 := t.tagged.size_lt
  obtain ⟨hensures, hroom⟩ :=
    t.shrink_ensures (t.shrinkFits_of_small small) (show size + 8 ≤ n by omega)
  obtain ⟨s', hrun, lists', shrunk⟩ := hensures.returns (hroom room)
  refine ⟨s', pre, post, lists', ?_, rfl, shrunk.heap, shrunk.distinct inc,
    mem_shrunkBlocks (by omega), fun i hi => ?_, fun b hb used other =>
      shrunk.keeps b hb ⟨used, other⟩⟩
  · rw [t.sfRealloc_eq, if_neg (by omega), if_neg (by omega), if_pos lt, hrun]
    rfl
  · obtain ⟨n', hfit, hsame⟩ := shrunk.own
    exact Mem.byteAt_congr (hsame _ (by omega) (by omega))

/-- A payload of 200 bytes that shrinks to 24, with a free block behind it. -/
theorem sfRealloc_smaller_example : ∃ s s' : State,
    sfRealloc lowHeap 65584 24 s = .ok (some 65584, s') ∧
    ∀ i < 24, s'.mem.byteAt (65584 + i) = s.mem.byteAt (65584 + i) := by
  obtain ⟨c, run, hobserve⟩ := exists_safeRun true [.malloc 200 1]
    (fun c => (heapWalk lowHeap c.heap, c.heap.heapEnd, c.heap.nodes))
    (b := (some [⟨65576, 208, some 200⟩, ⟨65784, 3840, none⟩], 69632, 3)) (by decide_cbv)
  simp only [Prod.mk.injEq] at hobserve
  obtain ⟨hwalk, hend, hnodes⟩ := hobserve
  obtain ⟨blocks, lists, ok, inc⟩ := invariant_of_run run
  obtain rfl := Option.some.inj (ok.heap.heapWalk_eq.symm.trans hwalk)
  have hheap := ok.heap.of_payload (p := 65584) (k := 200) (by decide)
  obtain ⟨s', -, -, -, hrun, -, -, -, -, hbytes, -⟩ := sfRealloc_smaller hheap (inc rfl)
    (by rw [hend]; decide) List.mem_cons_self (by decide) (show 0 < 24 by decide) (by decide)
    (by rw [hnodes]; decide)
  exact ⟨c.heap, s', hrun, hbytes⟩

end CLanguage.Sfmm
