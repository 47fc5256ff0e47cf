import CLanguage.Sfmm.Walk
import Mathlib

/-!
# The client's data is safe

On runs that stay off the faulty branches, the payloads of the live pointers do
not overlap, and `sf_realloc` keeps the bytes of all of them. Runs that take a
faulty branch can break both.

## Main results

* `payloads_apart` — live payloads are disjoint and lie inside the heap
* `sfRealloc_preserves` — `sf_realloc` keeps the client's bytes
-/

namespace CLanguage.Sfmm

open Lib

variable {L : Layout} {m : Mem} {c : Client} {rs : List Request} {p n size grants q : ℕ} {s' : State}

/-! ### A pool of 1000 list nodes, with 64 bytes for each -/

theorem pool_pos : ∀ i < 1000, 0 < 64 + 64 * i := by omega

theorem pool_le : ∀ i < 1000, 64 + 64 * i + 48 ≤ 2 ^ 64 := by omega

theorem pool_apart : ∀ i < 1000, ∀ j < 1000, i ≠ j →
    64 + 64 * i + 48 ≤ 64 + 64 * j ∨ 64 + 64 * j + 48 ≤ 64 + 64 * i := by omega

theorem pool_nonempty : 0 < 1000 := by decide

/-- A heap of 16 MiB above a pool of 1000 list nodes. -/
def lowHeap : Layout where
  start := 65536
  top := 16777216
  node i := 64 + 64 * i
  maxNodes := 1000
  start_pos := by decide
  start_aligned := by decide
  start_le_top := by decide
  top_le := by decide
  node_pos := pool_pos
  node_le := pool_le
  node_outside := by omega
  node_apart := pool_apart
  sentinel_exists := pool_nonempty

/-- The client before its first request, in a memory of zeros. -/
abbrev blank : Client := Client.initial lowHeap ⟨fun _ => Word.ofNat 0⟩

/-- The successor in a safe step, if the request is one. -/
def Client.safeNext (L : Layout) (ordered : Bool) (c : Client) (r : Request) : Option Client :=
  if c.safe L ordered r = true then c.next L r else none

theorem Client.safeStep_of_next {ordered : Bool} (c : Client) (r : Request) (c' : Client)
    (h : c.safeNext L ordered r = some c') : c.SafeStep L ordered r c' := by
  unfold Client.safeNext at h
  split at h
  · next safe => exact ⟨Client.step_of_next L h, safe⟩
  · exact absurd h nofun

variable {β : Type*} {b : β}

/-- A run of a client in `lowHeap`, with what is observed at its end. -/
theorem exists_run (rs : List Request) (observe : Client → β)
    (h : (rs.foldlM (Client.next lowHeap) blank).map observe = some b) :
    ∃ c, Run (Client.Step lowHeap) blank rs c ∧ observe c = b :=
  Run.exists_of_foldlM (fun _ _ _ => Client.step_of_next lowHeap) h

theorem exists_safeRun (ordered : Bool) (rs : List Request) (observe : Client → β)
    (h : (rs.foldlM (Client.safeNext lowHeap ordered) blank).map observe = some b) :
    ∃ c, Run (Client.SafeStep lowHeap ordered) blank rs c ∧ observe c = b :=
  Run.exists_of_foldlM Client.safeStep_of_next h

/-! ### Disjoint payloads -/

/-- The payloads of the live pointers are disjoint and lie inside the heap. -/
def Client.PayloadsApart (L : Layout) (c : Client) : Prop :=
  c.live.Pairwise (fun i j => i.1 + i.2 ≤ j.1 ∨ j.1 + j.2 ≤ i.1) ∧
    ∀ i ∈ c.live, L.start ≤ i.1 ∧ i.1 + i.2 ≤ c.heap.heapEnd

instance (L : Layout) (c : Client) : Decidable (c.PayloadsApart L) :=
  inferInstanceAs (Decidable (_ ∧ _))

theorem ClientOk.payloads_sorted {blocks : List Block} {lists : List FreeList}
    (ok : ClientOk L c blocks lists) :
    (payloads blocks).Pairwise fun i j => i.1 + i.2 ≤ j.1 := by
  rcases ok.heap with hok | ⟨-, rfl, -⟩
  · exact hok.region.1.payloads_sorted ok.fits
  · exact List.Pairwise.nil

theorem ClientOk.payloadsApart {blocks : List Block} {lists : List FreeList}
    (ok : ClientOk L c blocks lists) : c.PayloadsApart L := by
  have hpage := pageSz_eq
  constructor
  · refine ok.live.symm.pairwise (ok.payloads_sorted.imp fun h => Or.inl h) ?_
    exact fun h => h.symm
  · intro i hi
    have hp := ok.payload hi
    have hok := ok.heap.of_payload hp
    obtain ⟨b, hb, hused, haddr⟩ := mem_payloads.mp hp
    have hrange := hok.region.1.range hb
    have hfit := ok.fits b hb i.2 hused
    have hfin := b.fin_eq
    have hge := hok.heapEnd_ge
    omega

/-- After every run of safe steps the live payloads are disjoint and inside the heap. -/
theorem payloads_apart (run : Run (Client.SafeStep L false) (Client.initial L m) rs c) :
    c.PayloadsApart L := by
  obtain ⟨blocks, lists, ok, -⟩ := invariant_of_run run
  exact ok.payloadsApart

set_option maxRecDepth 2000 in
/-- A run with a reallocation, a split and a merge. -/
theorem payloads_apart_example :
    ∃ c : Client, c.live = [(65680, 40), (65648, 24)] ∧ c.PayloadsApart lowHeap := by
  obtain ⟨c, run, hlive⟩ := exists_safeRun false
    [.malloc 24 1, .malloc 24 0, .malloc 24 0, .free 65616, .realloc 65584 40 0] Client.live
    (b := [(65680, 40), (65648, 24)]) (by decide_cbv)
  exact ⟨c, hlive, payloads_apart run⟩

/-- Taking the first of two free blocks leaves a stale link, and a later merge
hands out memory that is still live. -/
theorem payloads_overlap : ¬ ∀ (L : Layout) (m : Mem) (rs : List Request) (c : Client),
    Run (Client.Step L) (Client.initial L m) rs c → c.PayloadsApart L := by
  intro h
  obtain ⟨c, run, hlive⟩ := exists_run
    [.malloc 24 1, .malloc 24 0, .malloc 24 0, .malloc 24 0, .free 65648, .free 65584,
      .malloc 24 0, .free 65616, .malloc 24 0, .malloc 56 0] Client.live
    (b := [(65616, 56), (65648, 24), (65584, 24), (65680, 24)]) (by decide_cbv)
  have hapart := (h _ _ _ _ run).1
  rw [hlive] at hapart
  exact absurd hapart (by decide)

/-! ### Reallocation -/

/-- Memory `m'` has the first bytes of the payload at `p` at `q`, and the bytes
of every other live payload where they were. -/
def Client.Preserved (c : Client) (p n size q : ℕ) (m' : Mem) : Prop :=
  (∀ i < min n size, m'.byteAt (q + i) = c.heap.mem.byteAt (p + i)) ∧
    ∀ e ∈ c.live, e.1 ≠ p → ∀ i < e.2, m'.byteAt (e.1 + i) = c.heap.mem.byteAt (e.1 + i)

/-- After every run of safe steps, a safe call of `sf_realloc` preserves the client's data. -/
theorem sfRealloc_preserves (run : Run (Client.SafeStep L false) (Client.initial L m) rs c)
    (live : (p, n) ∈ c.live) (bound : size < 2 ^ 31)
    (safe : c.safe L false (.realloc p size grants) = true)
    (ret : sfRealloc L p size { c.heap with pagesLeft := grants } = .ok (some q, s')) :
    c.Preserved p n size q s'.mem := by
  obtain ⟨blocks, lists, ok, -⟩ := invariant_of_run run
  have hp := ok.payload live
  have hpages : HeapOk L { c.heap with pagesLeft := grants } blocks lists :=
    (ok.heap.of_payload hp).pages
  obtain ⟨x, k, pre, post, r, rfl, rfl, t⟩ := hpages.target ok.fits hp
  obtain ⟨blocks', lists', resized⟩ := (t.sfRealloc_ensures ok.fits bound safe).of_ok ret
  refine ⟨resized.copied q rfl, fun e he hne i hi => ?_⟩
  obtain ⟨b, hb, hused, haddr⟩ := mem_payloads.mp (ok.payload he)
  have haligned := hpages.aligned hb
  have hfit := ok.fits b hb e.2 hused
  have hother : b.addr ≠ x := fun h => hne (by rw [← haddr, h])
  have hkept := (resized.keeps b hb ⟨by simp [hused], hother⟩).2
  rw [← haddr]
  exact hkept.byteAt haligned.1 haligned.2 hfit hi

/-- What a call of `sf_realloc(p, size)` that may grow the heap by a page returns. -/
def Client.reallocResult (L : Layout) (p size : ℕ) (c : Client) : Option (ℕ × State) :=
  match sfRealloc L p size { c.heap with pagesLeft := 1 } with
  | .ok (some q, s') => some (q, s')
  | _ => none

theorem Client.ok_of_reallocResult {c : Client} (h : c.reallocResult L p size = some (q, s')) :
    sfRealloc L p size { c.heap with pagesLeft := 1 } = .ok (some q, s') := by
  unfold Client.reallocResult at h
  split at h
  · next hrun =>
    obtain ⟨rfl, rfl⟩ := Prod.mk.inj (Option.some.inj h)
    exact hrun
  · exact absurd h nofun

/-- A payload that moves. -/
theorem sfRealloc_preserves_example : ∃ (c : Client) (s' : State),
    c.live = [(65616, 24), (65584, 24)] ∧ c.Preserved 65584 24 40 65648 s'.mem := by
  obtain ⟨c, run, hobserve⟩ := exists_safeRun false [.malloc 24 1, .malloc 24 0, .write 65584 7]
    (fun c => (c.live, c.safe lowHeap false (.realloc 65584 40 1),
      (c.reallocResult lowHeap 65584 40).map Prod.fst))
    (b := ([(65616, 24), (65584, 24)], true, some 65648)) (by decide_cbv)
  obtain ⟨hlive, hsafe, hresult⟩ : c.live = [(65616, 24), (65584, 24)] ∧
      c.safe lowHeap false (.realloc 65584 40 1) = true ∧
      (c.reallocResult lowHeap 65584 40).map Prod.fst = some 65648 := by
    simpa only [Prod.mk.injEq] using hobserve
  obtain ⟨⟨q, s'⟩, hresult, rfl⟩ := Option.map_eq_some_iff.mp hresult
  exact ⟨c, s', hlive, sfRealloc_preserves run (by simp [hlive]) (by decide) hsafe
    (Client.ok_of_reallocResult hresult)⟩

set_option maxRecDepth 2000 in
/-- The allocation inside `sf_realloc` leaves a stale link to the block that it
takes, and the call of `sf_free` writes through it into the bytes just copied. -/
theorem sfRealloc_corrupts : ¬ ∀ (L : Layout) (m : Mem) (rs : List Request) (c : Client)
    (p n size grants q : ℕ) (s' : State), Run (Client.Step L) (Client.initial L m) rs c →
    (p, n) ∈ c.live → 0 < size → size < 2 ^ 31 →
    sfRealloc L p size { c.heap with pagesLeft := grants } = .ok (some q, s') →
    c.Preserved p n size q s'.mem := by
  intro h
  obtain ⟨c, run, hobserve⟩ := exists_run
    [.malloc 40 1, .malloc 24 0, .malloc 24 0, .malloc 40 0, .malloc 24 0, .write 65664 7,
      .free 65696, .free 65584]
    (fun c => (c.live, c.heap.mem.byteAt 65664,
      (c.reallocResult lowHeap 65664 40).map fun r => (r.1, r.2.mem.byteAt 65584)))
    (b := ([(65744, 24), (65664, 24), (65632, 24)], 7, some (65584, 8))) (by decide_cbv)
  obtain ⟨hlive, hbefore, hafter⟩ : c.live = [(65744, 24), (65664, 24), (65632, 24)] ∧
      c.heap.mem.byteAt 65664 = 7 ∧ (c.reallocResult lowHeap 65664 40).map
        (fun r => (r.1, r.2.mem.byteAt 65584)) = some (65584, 8) := by
    simpa only [Prod.mk.injEq] using hobserve
  obtain ⟨⟨q, s'⟩, hresult, hq⟩ := Option.map_eq_some_iff.mp hafter
  obtain ⟨rfl, hbyte⟩ := Prod.mk.inj hq
  have hkept := (h lowHeap _ _ c 65664 24 40 1 65584 s' run (by simp [hlive]) (by decide) (by decide)
    (Client.ok_of_reallocResult hresult)).1 0 (by decide)
  rw [Nat.add_zero, Nat.add_zero, hbefore, hbyte] at hkept
  exact absurd hkept (by decide)

end CLanguage.Sfmm
