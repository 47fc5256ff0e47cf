import CLanguage.Sfmm.Heap
import CLanguage.Lib.Numerals
import Mathlib.Tactic.IntervalCases

/-!
# Bytes of payloads

The client and `memcpy` store single bytes. A byte of an allocated payload lies
in a word that no tag and no link occupies, so storing it keeps the invariant of
the heap (`HeapOk.fill`).
-/

namespace CLanguage.Sfmm

variable {L : Layout} {s : State} {m m' : Mem} {a b dst src n i k j v w x : ℕ} {u : Option ℕ}
  {blocks : List Block} {lists : List FreeList}

/-! ### Bytes of a word -/

namespace Word

private theorem toNat_setByte (w : Word) (hk : k < 8) (hv : v < 256) :
    (w.setByte k v).toNat = w.toNat - w.byte k * 256 ^ k + v * 256 ^ k := by
  have hlt := w.toNat_lt
  apply toNat_ofNat_of_lt
  unfold byte
  interval_cases k <;> omega

theorem byte_setByte (w : Word) (hk : k < 8) (hv : v < 256) :
    (w.setByte k v).byte j = if j = k then v else w.byte j := by
  rw [byte, toNat_setByte w hk hv]
  exact Lib.digitAt_replace hv

theorem byte_lt (w : Word) : w.byte k < 256 := Nat.mod_lt _ (by decide)

end Word

/-! ### Bytes of memory -/

namespace Mem

theorem byteAt_congr (h : m' (a - a % 8) = m (a - a % 8)) : m'.byteAt a = m.byteAt a := by
  rw [byteAt, byteAt, h]

theorem byteAt_lt : m.byteAt a < 256 := Word.byte_lt _

theorem setByte_of_ne (h : w ≠ a - a % 8) : m.setByte a v w = m w := write_of_ne _ _ _ _ h

theorem byteAt_setByte (hv : v < 256) :
    (m.setByte a v).byteAt b = if b = a then v else m.byteAt b := by
  have ha := Nat.mod_lt a (show 0 < 8 by decide)
  by_cases hword : b - b % 8 = a - a % 8
  · rw [byteAt, setByte, hword, write_self, Word.byte_setByte _ ha hv, byteAt, hword]
    by_cases hab : b = a
    · rw [if_pos hab, if_pos (by rw [hab])]
    · rw [if_neg hab, if_neg fun h => hab (by omega)]
  · rw [if_neg (fun h => hword (by rw [h]))]
    exact byteAt_congr (setByte_of_ne hword)

/-- `memcpy` changes only the words of its destination. -/
theorem memcpy_word (h : ∀ i < n, w ≠ dst + i - (dst + i) % 8) : m.memcpy dst src n w = m w := by
  induction n with
  | zero => rfl
  | succ n ih =>
    rw [memcpy, setByte_of_ne (h n n.lt_succ_self)]
    exact ih fun i hi => h i (hi.trans n.lt_succ_self)

theorem byteAt_memcpy :
    (m.memcpy dst src n).byteAt a =
      if dst ≤ a ∧ a < dst + n then m.byteAt (src + (a - dst)) else m.byteAt a := by
  induction n with
  | zero => rw [if_neg (by omega), memcpy]
  | succ n ih =>
    rw [memcpy, byteAt_setByte byteAt_lt]
    by_cases ha : a = dst + n
    · rw [if_pos ha, if_pos (by omega), ha, Nat.add_sub_cancel_left]
    · rw [if_neg ha, ih]
      by_cases hin : dst ≤ a ∧ a < dst + n
      · rw [if_pos hin, if_pos (by omega)]
      · rw [if_neg hin, if_neg (by omega)]

end Mem

/-! ### Filling a payload -/

/-- Storing into the payload of an allocated block keeps the heap. -/
theorem HeapOk.fill (ok : HeapOk L s blocks lists) (hb : ⟨x, n, u⟩ ∈ blocks) (used : u ≠ none)
    (outside : ∀ w, w < x + 8 ∨ x + n ≤ w → m' w = s.mem w) :
    HeapOk L { s with mem := m' } blocks lists := by
  have hrange : L.start + 40 ≤ x ∧ x + n ≤ s.heapEnd - 8 := ok.region.1.range hb
  have hsize : 32 ≤ n := ok.region.1.size_ge hb
  have hlo := ok.heapEnd_ge
  have htop := ok.heapEnd_le
  have hpage := pageSz_eq
  have hother : ∀ c ∈ blocks, c = ⟨x, n, u⟩ ∨ c.addr + c.size ≤ x ∨ x + n ≤ c.addr := by
    intro c hc
    by_cases hne : c = ⟨x, n, u⟩
    · exact Or.inl hne
    · exact Or.inr (ok.region.1.apart hc hb hne)
  have hregion : Region m' (L.start + 40) true blocks (s.heapEnd - 8) := by
    have hend : m' (s.heapEnd - 8) = s.mem (s.heapEnd - 8) := outside _ (by omega)
    refine ⟨?_, by rw [hend]; exact ok.region.2⟩
    rw [hend]
    refine ok.region.1.congr (fun c hc => outside _ ?_) fun c hc hfree => outside _ ?_
    · rcases hother c hc with rfl | h
      · exact Or.inl (Nat.lt_add_of_pos_right (by decide))
      · have := ok.region.1.size_ge hc
        omega
    · rcases hother c hc with rfl | h
      · exact absurd hfree used
      · have := ok.region.1.size_ge hc
        have := c.footer_eq
        omega
  refine ⟨⟨⟨⟨hregion, hlo, htop⟩, ok.lists_ok.congr fun w hw => outside w ?_⟩, ok.listed_frees⟩,
    ok.nonempty⟩
  -- no link word lies in the payload
  by_contra hin
  rw [not_or] at hin
  refine not_linkWord ok.lists_ok.nodes_le (w := w) (by omega) (by omega) (fun z hz => ?_) hw
  obtain ⟨c, hc, rfl, hfree⟩ := ok.covers z hz
  have := ok.region.1.size_ge hc
  rcases hother c hc with rfl | h
  · exact absurd hfree used
  · omega

/-- The words of the first `k` bytes of a payload. -/
theorem payload_word (hx : x % 8 = 0) (hn : n % 8 = 0) (fit : k + 8 ≤ n) (hi : i < k) :
    x + 8 ≤ x + 8 + i - (x + 8 + i) % 8 ∧ x + 8 + i - (x + 8 + i) % 8 < x + n := by
  omega

end CLanguage.Sfmm
