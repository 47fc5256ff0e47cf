import CLanguage.Lib.Run
import CLanguage.Sfmm.Realloc

/-!
# The invariant of a run

The client's live pointers are the payloads of the allocated blocks. Every step
that stays off the faulty branches keeps this, together with the invariant of
the heap.
-/

namespace CLanguage.Sfmm

open Lib

variable {L : Layout} {ordered : Bool} {s : State} {c c' : Client} {q : Request}
  {p size grants k : ℕ} {blocks blocks' : List Block} {lists lists' : List FreeList}
  {live : List (ℕ × ℕ)}

/-! ### The heap between two requests -/

theorem HeapOk.pages (ok : HeapOk L s blocks lists) :
    HeapOk L { s with pagesLeft := grants } blocks lists :=
  ⟨⟨⟨⟨ok.region, ok.heapEnd_ge, ok.heapEnd_le⟩, ok.lists_ok⟩, ok.listed_frees⟩, ok.nonempty⟩

theorem Valid.pages (h : Valid L s blocks lists) :
    Valid L { s with pagesLeft := grants } blocks lists := by
  rcases h with ok | ⟨ok, rfl, rfl⟩
  · exact Or.inl ok.pages
  · exact Or.inr ⟨⟨ok.heapEnd, ok.lists_ok⟩, rfl, rfl⟩

/-- A heap without a page has no live payload. -/
theorem Valid.of_payload (h : Valid L s blocks lists) (hp : (p, k) ∈ payloads blocks) :
    HeapOk L s blocks lists := by
  rcases h with ok | ⟨-, rfl, -⟩
  · exact ok
  · exact absurd hp List.not_mem_nil

theorem Valid.payloads_nodup (h : Valid L s blocks lists) :
    ((payloads blocks).map Prod.fst).Nodup := by
  rcases h with ok | ⟨-, rfl, -⟩
  · exact ok.region.1.payloads_nodup
  · exact List.nodup_nil

/-- `sf_malloc`, whether or not the heap has a page. -/
theorem Valid.sfMalloc_ensures (h : Valid L s blocks lists) (pos : size ≠ 0)
    (hsize : size < 2 ^ 31) (safe : mallocSafe L ordered size (s.pagesLeft + 1) s = true) :
    Ensures (· = Fault.noNode)
      (fun r => ∃ blocks' lists', Allocated L ordered size s blocks lists r blocks' lists')
      (sfMalloc L size s) := by
  rcases h with ok | ⟨ok, rfl, rfl⟩
  · exact ok.mallocFuel_ensures pos hsize (Nat.lt_succ_self _) safe
  · exact ok.mallocFuel_ensures pos hsize (Nat.lt_succ_self _) safe

theorem sfMalloc_zero : sfMalloc L 0 s = .ok (none, s) := by
  rw [sfMalloc, mallocFuel, if_pos rfl]

/-! ### Live pointers -/

/-- The heap is valid, and the live pointers are the payloads of its allocated blocks. -/
structure ClientOk (L : Layout) (c : Client) (blocks : List Block) (lists : List FreeList) :
    Prop where
  heap : Valid L c.heap blocks lists
  fits : Fits blocks
  live : c.live.Perm (payloads blocks)

theorem ClientOk.payload (ok : ClientOk L c blocks lists) {e : ℕ × ℕ} (he : e ∈ c.live) :
    e ∈ payloads blocks :=
  ok.live.subset he

theorem ClientOk.live_nodup (ok : ClientOk L c blocks lists) : (c.live.map Prod.fst).Nodup :=
  (ok.live.map Prod.fst).nodup_iff.mpr ok.heap.payloads_nodup

/-- Giving back `p` removes its entry. -/
theorem Client.drop_perm (nodup : (c.live.map Prod.fst).Nodup) (hp : (p, k) ∈ c.live) :
    c.live.Perm ((p, k) :: c.drop p) := by
  obtain ⟨e, front, back, -, hep, hlive, hdrop⟩ :=
    List.exists_of_eraseP (p := fun e => e.1 == p) hp (beq_self_eq_true p)
  have he : e ∈ c.live := by simp [hlive]
  obtain rfl : e = (p, k) :=
    List.inj_on_of_nodup_map nodup he hp (by simpa using hep)
  rw [Client.drop, hdrop, hlive]
  exact List.perm_middle

theorem ClientOk.drop_perm (ok : ClientOk L c blocks lists) (hp : (p, k) ∈ c.live)
    (perm : (payloads blocks).Perm ((p, k) :: live)) : (c.drop p).Perm live :=
  ((Client.drop_perm ok.live_nodup hp).symm.trans (ok.live.trans perm)).cons_inv

/-- Exchanging an entry for a new one. -/
theorem ClientOk.exchange_perm {i : ℕ × ℕ} (ok : ClientOk L c blocks lists) (hp : (p, k) ∈ c.live)
    (perm : (i :: payloads blocks).Perm ((p, k) :: live)) : (i :: c.drop p).Perm live := by
  have hdrop := (Client.drop_perm ok.live_nodup hp).symm.trans ok.live
  exact ((List.Perm.swap i (p, k) _).trans ((hdrop.cons i).trans perm)).cons_inv

/-! ### Steps -/

/-- What a step keeps. -/
def Invariant (L : Layout) (ordered : Bool) (c : Client) : Prop :=
  ∃ blocks lists, ClientOk L c blocks lists ∧ (ordered = true → Increasing lists)

private theorem ClientOk.malloc (ok : ClientOk L c blocks lists)
    (inc : ordered = true → Increasing lists) (step : c.SafeStep L ordered (.malloc size grants) c') :
    Invariant L ordered c' := by
  obtain ⟨⟨hsize, hexec⟩, safe⟩ := step
  obtain ⟨⟨r, s'⟩, hrun, hret⟩ := bind_eq_ok hexec
  obtain rfl : { heap := s', live := r.toList.map (·, size) ++ c.live } = c' := Except.ok.inj hret
  by_cases pos : size = 0
  · subst pos
    rw [sfMalloc_zero] at hrun
    obtain ⟨rfl, rfl⟩ := Prod.mk.inj (Except.ok.inj hrun)
    exact ⟨blocks, lists, ⟨ok.heap.pages, ok.fits, ok.live⟩, inc⟩
  · obtain ⟨blocks', lists', alloc⟩ :=
      (ok.heap.pages.sfMalloc_ensures pos hsize safe).of_ok hrun
    exact ⟨blocks', lists', ⟨Or.inl alloc.heap, ok.fits.of_origin alloc.origin,
      (ok.live.append_left _).trans alloc.payloads.symm⟩,
      fun h => alloc.order h (inc h)⟩

private theorem ClientOk.free (ok : ClientOk L c blocks lists)
    (inc : ordered = true → Increasing lists) (step : c.SafeStep L ordered (.free p) c') :
    Invariant L ordered c' := by
  obtain ⟨⟨⟨e, he, rfl⟩, hexec⟩, safe⟩ := step
  obtain ⟨s', hrun, hret⟩ := bind_eq_ok hexec
  obtain rfl : { heap := s', live := c.drop e.1 } = c' := Except.ok.inj hret
  have hp := ok.payload he
  obtain ⟨x, n, pre, post, r, haddr, rfl, t⟩ := (ok.heap.of_payload hp).target ok.fits hp
  rw [haddr] at hrun
  have hsafe : freeSafe L ordered (x + 8) c.heap = true := haddr ▸ safe
  obtain ⟨hfits, horder⟩ := freeSafe_iff.mp hsafe
  obtain ⟨blocks', lists', freed⟩ := (t.sfFree_ensures hfits).of_ok hrun
  exact ⟨blocks', lists', ⟨Or.inl freed.heap,
    ok.fits.of_origin (k := e.2) fun b hb hused => Or.inl (freed.origin b hb hused),
    ok.drop_perm he (haddr ▸ freed.payloads)⟩,
    fun h => freed.order (horder h) (inc h)⟩

private theorem ClientOk.realloc (ok : ClientOk L c blocks lists)
    (inc : ordered = true → Increasing lists)
    (step : c.SafeStep L ordered (.realloc p size grants) c') : Invariant L ordered c' := by
  obtain ⟨⟨⟨hsize, e, he, rfl⟩, hexec⟩, safe⟩ := step
  obtain ⟨⟨q, s'⟩, hrun, hret⟩ := bind_eq_ok hexec
  have hp := ok.payload he
  have hpages : HeapOk L { c.heap with pagesLeft := grants } blocks lists :=
    (ok.heap.of_payload hp).pages
  obtain ⟨x, n, pre, post, r, haddr, rfl, t⟩ := hpages.target ok.fits hp
  rw [haddr] at hrun
  have hsafe : reallocSafe L ordered (x + 8) size { c.heap with pagesLeft := grants } = true :=
    haddr ▸ safe
  obtain ⟨blocks', lists', resized⟩ := (t.sfRealloc_ensures ok.fits hsize hsafe).of_ok hrun
  have hpayloads := resized.payloads
  refine ⟨blocks', lists', ⟨?_, resized.fits, ?_⟩, fun h => resized.order h (inc h)⟩
  · cases q <;> cases hret <;> exact Or.inl resized.heap
  · cases q with
    | some q =>
      cases hret
      exact ok.exchange_perm he (haddr ▸ hpayloads)
    | none =>
      cases hret
      -- `NULL` is returned for size 0, and when there is no memory
      by_cases zero : size = 0
      · simp only [if_pos zero] at hpayloads ⊢
        exact ok.drop_perm he (haddr ▸ hpayloads)
      · simp only [if_neg zero] at hpayloads ⊢
        exact ok.live.trans hpayloads.symm

private theorem ClientOk.write {a : ℕ} {v : Fin 256} (ok : ClientOk L c blocks lists)
    (inc : ordered = true → Increasing lists) (step : c.SafeStep L ordered (.write a v) c') :
    Invariant L ordered c' := by
  obtain ⟨⟨⟨e, he, hlo, hhi⟩, hexec⟩, -⟩ := step
  obtain rfl := Except.ok.inj hexec
  have hp := ok.payload he
  have hok := ok.heap.of_payload hp
  obtain ⟨⟨x, n, u⟩, hb, hused, haddr⟩ := mem_payloads.mp hp
  obtain rfl : u = some e.2 := hused
  have haddr : x + 8 = e.1 := haddr
  have haligned : x % 8 = 0 ∧ n % 8 = 0 := hok.aligned hb
  have hfit : e.2 + 8 ≤ n := ok.fits _ hb e.2 rfl
  refine ⟨blocks, lists, ⟨Or.inl (hok.fill hb (by simp) fun w hw => ?_), ok.fits, ok.live⟩, inc⟩
  exact Mem.setByte_of_ne (by omega)

theorem Invariant.step (h : Invariant L ordered c) (step : c.SafeStep L ordered q c') :
    Invariant L ordered c' := by
  obtain ⟨blocks, lists, ok, inc⟩ := h
  cases q with
  | malloc size grants => exact ok.malloc inc step
  | free p => exact ok.free inc step
  | realloc p size grants => exact ok.realloc inc step
  | write a v => exact ok.write inc step

/-! ### Runs -/

theorem unformatted_initial (m : Mem) : Unformatted L (sfMemInit L m) := by
  have hpos := L.sentinel_exists
  have hlt : L.sentinel < 2 ^ 64 := by
    have := L.node_le 0 hpos
    unfold Layout.sentinel
    omega
  have hnext : (sfMemInit L m).mem.nodeNext L.sentinel = L.sentinel := Mem.ptr_setPtr_self _ _ hlt
  have hprev : (sfMemInit L m).mem.nodePrev L.sentinel = L.sentinel := by
    simp only [sfMemInit, Mem.nodePrev, Mem.setNodeNext, Mem.setNodePrev]
    rw [Mem.ptr_setPtr_of_ne _ _ _ _ (by omega), Mem.ptr_setPtr_self _ _ hlt]
  have hsize : (sfMemInit L m).mem.nodeSize L.sentinel = 0 := by
    simp only [sfMemInit, Mem.nodeSize, Mem.setNodeNext, Mem.setNodePrev]
    rw [Mem.ptr_setPtr_of_ne _ _ _ _ (by omega), Mem.ptr_setPtr_of_ne _ _ _ _ (by omega),
      Mem.ptr_setPtr_self _ _ (by decide)]
  refine ⟨rfl, ?_⟩
  exact {
    nodes_le := hpos
    length_lt := Nat.one_pos
    node_mem := by simp
    ring := ⟨⟨by simpa using hnext, List.isChain_singleton _, List.nodup_singleton _⟩, hprev⟩
    sentinel_size := hsize
    node_size := by simp
    blocks_ring := by simp
    apart := List.Pairwise.nil
    in_heap := by simp [members] }

theorem invariant_initial (m : Mem) : Invariant L ordered (Client.initial L m) :=
  ⟨[], [], ⟨Or.inr ⟨unformatted_initial m, rfl, rfl⟩, by simp [Fits], List.Perm.refl _⟩,
    fun _ => List.Pairwise.nil⟩

/-- The invariant holds after every run of safe steps. -/
theorem invariant_of_run {m : Mem} {rs : List Request}
    (run : Run (Client.SafeStep L ordered) (Client.initial L m) rs c) : Invariant L ordered c :=
  run.invariant (fun _ _ _ h step => h.step step) (invariant_initial m)

end CLanguage.Sfmm
