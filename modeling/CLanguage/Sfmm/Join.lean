import CLanguage.Lib.Joining
import CLanguage.Sfmm.Blocks

/-!
# Freeing, as a change of the sequence of blocks

`release` marks blocks as free, and `joinFree` merges free neighbours. Neither
looks at memory: they say which blocks a heap has after its pointers are freed.
-/

namespace CLanguage.Sfmm

open Lib

/-- Two neighbouring free blocks as one. -/
def Block.glue (b c : Block) : Block := ⟨b.addr, b.size + c.size, none⟩

/-- Merge the free neighbours. -/
def joinFree (blocks : List Block) : List Block :=
  joinRuns (fun b => b.used = none) Block.glue blocks

/-- A block whose payload is at one of `ps` is free. -/
def Block.release (ps : List ℕ) (b : Block) : Block :=
  if b.addr + 8 ∈ ps then { b with used := none } else b

/-- The blocks once those with payloads at `ps` are free. -/
def release (ps : List ℕ) (blocks : List Block) : List Block := blocks.map (Block.release ps)

variable {m : Mem} {a e : ℕ} {p q : Bool} {b : Block} {blocks : List Block} {ps qs : List ℕ}

theorem Block.gluing : Gluing (fun b : Block => b.used = none) Block.glue where
  free_glue _ _ := rfl
  assoc {a b c} _ _ _ := by simp [Block.glue, Nat.add_assoc]

theorem Block.release_of_free (h : b.used = none) : b.release ps = b := by
  unfold Block.release
  split_ifs
  · rw [← h]
  · rfl

theorem Block.release_of_notMem (h : b.addr + 8 ∉ ps) : b.release ps = b := if_neg h

theorem Block.release_release : (b.release qs).release ps = b.release (ps ++ qs) := by
  by_cases hq : b.addr + 8 ∈ qs <;> by_cases hp : b.addr + 8 ∈ ps <;>
    simp [Block.release, hp, hq]

theorem release_of_notMem (h : ∀ b ∈ blocks, b.addr + 8 ∉ ps) : release ps blocks = blocks := by
  rw [release, List.map_congr_left fun b hb => Block.release_of_notMem (h b hb)]
  exact List.map_id blocks

theorem release_release : release ps (release qs blocks) = release (ps ++ qs) blocks := by
  rw [release, release, release, List.map_map]
  exact List.map_congr_left fun b _ => Block.release_release

/-- Only the set of pointers matters. -/
theorem release_congr (h : ∀ x, x ∈ ps ↔ x ∈ qs) : release ps blocks = release qs blocks :=
  List.map_congr_left fun b _ => by rw [Block.release, Block.release, if_congr (h _) rfl rfl]

/-- Free neighbours may be merged after every step or once at the end. -/
theorem joinFree_release_joinFree :
    joinFree (release ps (joinFree blocks)) = joinFree (release ps blocks) :=
  joinRuns_map_joinRuns Block.gluing fun _ h => Block.release_of_free h

/-- Allocated blocks stay as they are. -/
theorem mem_joinFree (used : b.used ≠ none) (hb : b ∈ blocks) : b ∈ joinFree blocks :=
  mem_joinRuns used hb

/-- Two free neighbours behind a stretch, and the same merged. -/
theorem joinFree_glue {pre : List Block} {c : Block} (hb : b.used = none) (hc : c.used = none) :
    joinFree (pre ++ b :: c :: blocks) = joinFree (pre ++ b.glue c :: blocks) :=
  joinRuns_append_congr (joinRuns_glue Block.gluing hb hc).symm

/-- A tiled stretch has no free neighbours. -/
theorem Tiled.separated (h : Tiled m a p blocks e q) :
    Separated (fun b : Block => b.used = none) blocks := by
  induction blocks generalizing a p with
  | nil => exact .nil
  | cons b blocks ih =>
    obtain ⟨-, -, hrest⟩ := h
    cases blocks with
    | nil => exact List.isChain_singleton b
    | cons c blocks =>
      refine List.isChain_cons_cons.mpr ⟨?_, ih hrest⟩
      rintro ⟨hb, hc⟩
      have hprev := hrest.2.1.no_adjacent hc
      simp [hb] at hprev

theorem Tiled.joinFree_eq (h : Tiled m a p blocks e q) : joinFree blocks = blocks :=
  joinRuns_eq_self h.separated

/-- Once all its blocks are free, a stretch is a single block. -/
theorem Tiled.joinFree_all (h : Tiled m a p blocks e q) (nonempty : blocks ≠ [])
    (all : ∀ b ∈ blocks, b.used ≠ none → b.addr + 8 ∈ ps) :
    joinFree (release ps blocks) = [⟨a, e - a, none⟩] := by
  induction blocks generalizing a p with
  | nil => exact absurd rfl nonempty
  | cons b blocks ih =>
    obtain ⟨rfl, -, hrest⟩ := h
    have hfin := b.fin_eq
    have hfree : b.release ps = ⟨b.addr, b.size, none⟩ := by
      obtain ⟨x, n, _ | k⟩ := b
      · exact Block.release_of_free rfl
      · exact if_pos (all _ List.mem_cons_self (by simp))
    cases blocks with
    | nil =>
      have hend := (tiled_nil.mp hrest).1
      have hsize : b.size = e - b.addr := by omega
      rw [release, List.map_cons, List.map_nil, hfree, hsize]
      rfl
    | cons c blocks =>
      have hle := hrest.le
      have hsize : b.size + (e - b.fin) = e - b.addr := by omega
      -- the rest is one block, and it begins where this one ends
      have hih := ih hrest (List.cons_ne_nil c blocks) fun d hd =>
        all d (List.mem_cons_of_mem b hd)
      rw [release, List.map_cons, hfree, joinFree, joinRuns_cons]
      change consJoin _ _ _ (joinFree (release ps (c :: blocks))) = _
      rw [hih, ← hsize]
      rfl

end CLanguage.Sfmm
