import CLanguage.Lib.Store
import CLanguage.Sfmm.Safety

/-!
# The allocator is a store of buffers

Seen by its client, the allocator is a store of buffers: whatever the boundary tags and
the lists look like, a run that stays off the faulty branches is a run of the store, and
every byte that the store knows is in memory. New payloads are aligned to 16 bytes, lie
inside the heap region and apart from the live ones; a payload that shrinks stays where
it is, and only a payload that grows can be refused.

## Main results

* `refines_store` — the runs of the client are runs of a store
* `byte_stays` — a byte that no request touches keeps its value
-/

namespace CLanguage.Sfmm

open Lib

variable {L : Layout} {m : Mem} {c c' : Client} {rs rs' : List Request} {r : Request}
  {p n size grants q i : ℕ} {s : State} {blocks blocks' : List Block} {lists : List FreeList}
  {σ σ' : Store ℕ} {e : ℕ × ℕ}

/-! ### The store of a client -/

/-- Where a payload of `n` bytes can lie. -/
def Placed (L : Layout) (p n : ℕ) : Prop :=
  0 < n ∧ p % 16 = 0 ∧ L.start ≤ p ∧ p + n ≤ L.top

/-- What a request asks of the store. -/
def Request.op : Request → Store.Op ℕ
  | .malloc size _ => .alloc size
  | .free p => .free p
  | .realloc p size _ => .resize p size
  | .write a v => .put a v

/-- The memory has the bytes that the store knows. -/
def Agrees (m : Mem) (σ : Store ℕ) : Prop := ∀ b ∈ σ, ∀ i v, b.Holds i v → m.byteAt (b.addr + i) = v

/-- The buffers are the live payloads, and their known cells are in memory. -/
structure Represents (c : Client) (σ : Store ℕ) : Prop where
  live : σ.map Buffer.extent = c.live
  agrees : Agrees c.heap.mem σ

theorem Represents.mem (rep : Represents c σ) {b : Buffer ℕ} (hb : b ∈ σ) : b.extent ∈ c.live :=
  rep.live ▸ List.mem_map_of_mem hb

theorem Represents.exists_buffer (rep : Represents c σ) (he : e ∈ c.live) :
    ∃ b ∈ σ, b.extent = e := by
  rw [← rep.live] at he
  exact List.mem_map.mp he

theorem Represents.drop (rep : Represents c σ) (p : ℕ) :
    (σ.drop p).map Buffer.extent = c.drop p := by
  rw [Client.drop, ← rep.live, List.eraseP_map]
  rfl

theorem Agrees.congr {m m' : Mem} (h : Agrees m σ)
    (kept : ∀ b ∈ σ, ∀ i < b.cells.length, m'.byteAt (b.addr + i) = m.byteAt (b.addr + i)) :
    Agrees m' σ := fun b hb i v hv => (kept b hb i hv.lt).trans (h b hb i v hv)

theorem Agrees.cons {m : Mem} {b : Buffer ℕ} (h : Agrees m σ)
    (first : ∀ i v, b.Holds i v → m.byteAt (b.addr + i) = v) : Agrees m (b :: σ) :=
  List.forall_mem_cons.mpr ⟨first, h⟩

/-! ### What the requests keep -/

/-- Payloads of kept blocks have the same bytes. -/
theorem Keeps.byteAt {sel : Block → Prop} {m' : Mem} (keeps : Keeps sel s.mem blocks m' blocks')
    (ok : HeapOk L s blocks lists) (fits : Fits blocks) (he : e ∈ payloads blocks)
    (chosen : ∀ b : Block, b.used = some e.2 → b.addr + 8 = e.1 → sel b) (hi : i < e.2) :
    m'.byteAt (e.1 + i) = s.mem.byteAt (e.1 + i) := by
  obtain ⟨b, hb, hused, haddr⟩ := mem_payloads.mp he
  obtain ⟨haligned, hsize⟩ := ok.aligned hb
  rw [← haddr]
  exact (keeps b hb (chosen b hused haddr)).2.byteAt haligned hsize (fits b hb e.2 hused) hi

/-- `sf_malloc` adds at most its payload, and keeps the bytes of the others. -/
theorem ClientOk.malloc_live {ordered : Bool} (ok : ClientOk L c blocks lists)
    (step : c.SafeStep L ordered (.malloc size grants) c') :
    ∃ r : Option ℕ, c'.live = r.toList.map (·, size) ++ c.live ∧ (r ≠ none → 0 < size) ∧
      ∀ e ∈ c.live, ∀ i < e.2, c'.heap.mem.byteAt (e.1 + i) = c.heap.mem.byteAt (e.1 + i) := by
  obtain ⟨⟨hsize, hexec⟩, safe⟩ := step
  obtain ⟨⟨r, s'⟩, hrun, hret⟩ := bind_eq_ok hexec
  obtain rfl : { heap := s', live := r.toList.map (·, size) ++ c.live } = c' := Except.ok.inj hret
  refine ⟨r, rfl, ?_, ?_⟩
  · intro hr
    refine Nat.pos_of_ne_zero fun zero => hr ?_
    subst zero
    rw [sfMalloc_zero] at hrun
    exact (congrArg Prod.fst (Except.ok.inj hrun)).symm
  · intro e he i hi
    by_cases pos : size = 0
    · subst pos
      rw [sfMalloc_zero] at hrun
      obtain ⟨-, rfl⟩ := Prod.mk.inj (Except.ok.inj hrun)
      rfl
    · obtain ⟨blocks', lists', alloc⟩ := (ok.heap.pages.sfMalloc_ensures pos hsize safe).of_ok hrun
      have hp := ok.payload he
      exact alloc.keeps.byteAt (s := { c.heap with pagesLeft := grants }) (ok.heap.of_payload hp).pages
        ok.fits hp (fun b hused _ => by simp [hused]) hi

/-- `sf_free` removes its payload, and keeps the bytes of the others. -/
theorem ClientOk.free_live {ordered : Bool} (ok : ClientOk L c blocks lists)
    (step : c.SafeStep L ordered (.free p) c') :
    (∃ k, (p, k) ∈ c.live) ∧ c'.live = c.drop p ∧
      ∀ e ∈ c.live, e.1 ≠ p → ∀ i < e.2,
        c'.heap.mem.byteAt (e.1 + i) = c.heap.mem.byteAt (e.1 + i) := by
  obtain ⟨⟨⟨⟨p, k⟩, hlive, rfl⟩, hexec⟩, safe⟩ := step
  obtain ⟨s', hrun, hret⟩ := bind_eq_ok hexec
  obtain rfl : { heap := s', live := c.drop p } = c' := Except.ok.inj hret
  have hp := ok.payload hlive
  obtain ⟨x, n, pre, post, r, rfl, rfl, t⟩ := (ok.heap.of_payload hp).target ok.fits hp
  obtain ⟨blocks', lists', freed⟩ := (t.sfFree_ensures (freeSafe_iff.mp safe).1).of_ok hrun
  refine ⟨⟨k, hlive⟩, rfl, fun e he hne i hi => ?_⟩
  refine freed.keeps.byteAt t.heap ok.fits (ok.payload he) (fun b hused haddr => ?_) hi
  exact ⟨by simp [hused], fun h => hne (by rw [← haddr, h])⟩

/-- What `sf_realloc` returns for a live payload of `k` bytes. -/
theorem Target.sfRealloc_result {x k : ℕ} {pre post : List Block} {b : Bool} {a : Option ℕ}
    {s' : State} (t : Target L s lists pre b x n k post)
    (ret : sfRealloc L (x + 8) size s = .ok (a, s')) :
    (a = none → size = 0 ∨ k < size) ∧
      ∀ q, a = some q → 0 < size ∧ (size ≤ k → q = x + 8) := by
  rw [t.sfRealloc_eq] at ret
  split_ifs at ret with zero more less
  · obtain ⟨s₁, -, hret⟩ := bind_eq_ok ret
    obtain ⟨rfl, -⟩ := Prod.mk.inj (Except.ok.inj hret)
    exact ⟨fun _ => Or.inl zero, by simp⟩
  · exact ⟨fun _ => Or.inr more, fun q _ => ⟨Nat.pos_of_ne_zero zero, by omega⟩⟩
  · obtain ⟨s₁, -, hret⟩ := bind_eq_ok ret
    obtain ⟨rfl, -⟩ := Prod.mk.inj (Except.ok.inj hret)
    exact ⟨by simp, fun q hq => ⟨Nat.pos_of_ne_zero zero, fun _ => (Option.some.inj hq).symm⟩⟩
  · obtain ⟨rfl, -⟩ := Prod.mk.inj (Except.ok.inj ret)
    exact ⟨by simp, fun q hq => ⟨Nat.pos_of_ne_zero zero, fun _ => (Option.some.inj hq).symm⟩⟩

/-- The live payloads after `sf_realloc(p, size)`, for a payload of `k` bytes. -/
inductive Reallocated (c : Client) (p k size : ℕ) (c' : Client) : Prop
  | freed (zero : size = 0) (live : c'.live = c.drop p)
  | refused (more : k < size) (live : c'.live = c.live)
      (own : ∀ i < k, c'.heap.mem.byteAt (p + i) = c.heap.mem.byteAt (p + i))
  | resized (q : ℕ) (pos : 0 < size) (live : c'.live = (q, size) :: c.drop p)
      (stay : size ≤ k → q = p)
      (copied : ∀ i < min k size, c'.heap.mem.byteAt (q + i) = c.heap.mem.byteAt (p + i))

/-- `sf_realloc` changes its payload, and keeps the bytes of the others. -/
theorem ClientOk.realloc_live {ordered : Bool} (ok : ClientOk L c blocks lists)
    (step : c.SafeStep L ordered (.realloc p size grants) c') :
    ∃ k, (p, k) ∈ c.live ∧ Reallocated c p k size c' ∧
      ∀ e ∈ c.live, e.1 ≠ p → ∀ i < e.2,
        c'.heap.mem.byteAt (e.1 + i) = c.heap.mem.byteAt (e.1 + i) := by
  obtain ⟨⟨⟨hsize, ⟨p, k⟩, hlive, rfl⟩, hexec⟩, safe⟩ := step
  obtain ⟨⟨a, s'⟩, hrun, hret⟩ := bind_eq_ok hexec
  have hp := ok.payload hlive
  have hpages : HeapOk L { c.heap with pagesLeft := grants } blocks lists :=
    (ok.heap.of_payload hp).pages
  obtain ⟨x, n, pre, post, r, rfl, rfl, t⟩ := hpages.target ok.fits hp
  obtain ⟨hnull, hsome⟩ := t.sfRealloc_result hrun
  obtain ⟨blocks', lists', resized⟩ := (t.sfRealloc_ensures ok.fits hsize safe).of_ok hrun
  have hother : ∀ e ∈ c.live, e.1 ≠ x + 8 → ∀ i < e.2,
      s'.mem.byteAt (e.1 + i) = c.heap.mem.byteAt (e.1 + i) := by
    intro e he hne i hi
    refine resized.keeps.byteAt t.heap ok.fits (ok.payload he) (fun b hused haddr => ?_) hi
    exact ⟨by simp [hused], fun h => hne (by rw [← haddr, h])⟩
  refine ⟨k, hlive, ?_⟩
  cases a with
  | some q =>
    obtain rfl : { heap := s', live := (q, size) :: c.drop (x + 8) } = c' := Except.ok.inj hret
    obtain ⟨pos, stay⟩ := hsome q rfl
    exact ⟨.resized q pos rfl stay (resized.copied q rfl), hother⟩
  | none =>
    obtain rfl : { heap := s', live := if size = 0 then c.drop (x + 8) else c.live } = c' :=
      Except.ok.inj hret
    refine ⟨?_, hother⟩
    by_cases zero : size = 0
    · exact .freed zero (if_pos zero)
    · refine .refused ((hnull rfl).resolve_left zero) (if_neg zero) fun i hi => ?_
      refine (resized.own rfl zero).byteAt t.heap ok.fits (ok.payload hlive) (fun b hused haddr => ?_) hi
      exact ⟨by simp [hused], Nat.add_right_cancel haddr⟩

/-! ### The simulation -/

theorem Invariant.live_nodup (h : Invariant L false c) : (c.live.map Prod.fst).Nodup := by
  obtain ⟨blocks, lists, ok, -⟩ := h
  exact ok.live_nodup

/-- A live payload lies where payloads can lie. -/
theorem Invariant.placed (h : Invariant L false c) (he : e ∈ c.live) (pos : 0 < e.2) :
    Placed L e.1 e.2 := by
  obtain ⟨blocks, lists, ok, -⟩ := h
  have hp := ok.payload he
  have hok := ok.heap.of_payload hp
  obtain ⟨b, hb, -, haddr⟩ := mem_payloads.mp hp
  have haligned := hok.region.1.aligned hb
  have hstart := L.start_aligned
  have hrange := ok.payloadsApart.2 e he
  have htop := hok.heapEnd_le
  exact ⟨pos, by omega, hrange.1, by omega⟩

/-- The first live payload is fresh among the others. -/
theorem Invariant.fresh (h : Invariant L false c) (live : c.live = e :: σ.map Buffer.extent)
    (pos : 0 < e.2) : Store.Fresh (Placed L) σ e.1 e.2 := by
  refine ⟨h.placed (live ▸ List.mem_cons_self) pos, fun b hb => ?_⟩
  obtain ⟨blocks, lists, ok, -⟩ := h
  have hapart := ok.payloadsApart.1
  rw [live] at hapart
  exact (List.pairwise_cons.mp hapart).1 _ (List.mem_map_of_mem hb)

/-- A buffer that is left after the one at `p` is gone is another one. -/
theorem Represents.addr_ne (rep : Represents c σ) (h : Invariant L false c) {b : Buffer ℕ}
    (hp : (p, n) ∈ c.live) (hb : b ∈ σ.drop p) : b.addr ≠ p := by
  intro heq
  have hnodup := ((Client.drop_perm h.live_nodup hp).map Prod.fst).nodup_iff.mp h.live_nodup
  refine (List.nodup_cons.mp hnodup).1 ?_
  rw [← rep.drop p, List.map_map]
  exact List.mem_map.mpr ⟨b, hb, heq⟩

/-- The buffers other than the one at `p` are in memory after a request that keeps their bytes. -/
theorem Represents.agrees_drop (rep : Represents c σ) (inv : Invariant L false c) {k : ℕ}
    (hp : (p, k) ∈ c.live)
    (kept : ∀ e ∈ c.live, e.1 ≠ p → ∀ i < e.2, m.byteAt (e.1 + i) = c.heap.mem.byteAt (e.1 + i)) :
    Agrees m (σ.drop p) := by
  have hdrop : Agrees c.heap.mem (σ.drop p) := fun b hb => rep.agrees b (Store.mem_of_mem_drop hb)
  refine hdrop.congr fun b hb => ?_
  exact kept _ (rep.mem (Store.mem_of_mem_drop hb)) (rep.addr_ne inv hp hb)

theorem Represents.malloc (rep : Represents c σ) (inv : Invariant L false c)
    (step : c.SafeStep L false (.malloc size grants) c') :
    ∃ σ', Store.Step (Placed L) σ (.alloc size) σ' ∧ Represents c' σ' := by
  have inv' := inv.step step
  obtain ⟨blocks, lists, ok, -⟩ := inv
  obtain ⟨a, hlive, hpos, hkept⟩ := ok.malloc_live step
  have hagrees : Agrees c'.heap.mem σ := rep.agrees.congr fun b hb => hkept _ (rep.mem hb)
  cases a with
  | none => exact ⟨σ, .refuse, rep.live.trans hlive.symm, hagrees⟩
  | some p =>
    rw [← rep.live] at hlive
    refine ⟨_, .alloc (inv'.fresh hlive (hpos (by simp))), ?_, ?_⟩
    · rw [hlive, List.map_cons, Buffer.extent_new]
      rfl
    · exact hagrees.cons fun i v hv => absurd hv Buffer.not_holds_new

theorem Represents.free (rep : Represents c σ) (inv : Invariant L false c)
    (step : c.SafeStep L false (.free p) c') :
    ∃ σ', Store.Step (Placed L) σ (.free p) σ' ∧ Represents c' σ' := by
  have inv₀ := inv
  obtain ⟨blocks, lists, ok, -⟩ := inv₀
  obtain ⟨⟨k, hp⟩, hlive, hkept⟩ := ok.free_live step
  obtain ⟨b, hb, hextent⟩ := rep.exists_buffer hp
  obtain ⟨rfl, rfl⟩ := Prod.mk.inj hextent
  exact ⟨_, .free hb, (rep.drop b.addr).trans hlive.symm, rep.agrees_drop inv hp hkept⟩

theorem Represents.realloc (rep : Represents c σ) (inv : Invariant L false c)
    (step : c.SafeStep L false (.realloc p size grants) c') :
    ∃ σ', Store.Step (Placed L) σ (.resize p size) σ' ∧ Represents c' σ' := by
  have inv' := inv.step step
  have inv₀ := inv
  obtain ⟨blocks, lists, ok, -⟩ := inv₀
  obtain ⟨k, hp, result, hkept⟩ := ok.realloc_live step
  obtain ⟨b, hb, hextent⟩ := rep.exists_buffer hp
  obtain ⟨rfl, rfl⟩ := Prod.mk.inj hextent
  have hdrop := rep.agrees_drop inv hp hkept
  cases result with
  | freed zero live =>
    subst zero
    exact ⟨_, .release hb, (rep.drop b.addr).trans live.symm, hdrop⟩
  | refused more live own =>
    refine ⟨σ, .keep hb more, rep.live.trans live.symm, rep.agrees.congr fun b' hb' i hi => ?_⟩
    by_cases heq : b'.addr = b.addr
    · -- two live buffers at one address are the same one
      have hsame : b'.extent = b.extent :=
        List.inj_on_of_nodup_map inv.live_nodup (rep.mem hb') hp heq
      rw [heq]
      exact own i (lt_of_lt_of_eq hi (congrArg Prod.snd hsame))
    · exact hkept _ (rep.mem hb') heq i hi
  | resized q pos live stay copied =>
    rw [← rep.drop b.addr] at live
    refine ⟨_, .resize hb (inv'.fresh live pos) stay, ?_, hdrop.cons fun i v hv => ?_⟩
    · rw [live, List.map_cons, Buffer.extent_resized]
    · obtain ⟨hi, hold⟩ := Buffer.holds_resized hv
      exact (copied i hi).trans (rep.agrees b hb i v hold)

theorem Represents.write {a : ℕ} {v : Fin 256} (rep : Represents c σ)
    (step : c.SafeStep L false (.write a v) c') :
    ∃ σ', Store.Step (Placed L) σ (.put a v) σ' ∧ Represents c' σ' := by
  obtain ⟨⟨⟨e, he, lo, hi⟩, hexec⟩, -⟩ := step
  obtain rfl := Except.ok.inj hexec
  obtain ⟨b, hb, rfl⟩ := rep.exists_buffer he
  refine ⟨_, .put hb lo hi, ?_, fun b' hb' i w hw => ?_⟩
  · rw [List.map_map, ← rep.live]
    exact List.map_congr_left fun _ _ => Buffer.extent_put
  · obtain ⟨b₀, hb₀, rfl⟩ := List.mem_map.mp hb'
    change (c.heap.mem.setByte a v).byteAt (b₀.addr + i) = w
    rw [Mem.byteAt_setByte v.isLt]
    rcases Buffer.holds_put hw with ⟨heq, rfl⟩ | ⟨hne, hold⟩
    · exact if_pos heq
    · rw [if_neg hne]
      exact rep.agrees b₀ hb₀ i w hold

/-- One request is one operation of the store. -/
theorem Represents.step (rep : Represents c σ) (inv : Invariant L false c)
    (step : c.SafeStep L false r c') :
    ∃ σ', Store.Step (Placed L) σ r.op σ' ∧ Represents c' σ' := by
  cases r with
  | malloc size grants => exact rep.malloc inv step
  | free p => exact rep.free inv step
  | realloc p size grants => exact rep.realloc inv step
  | write a v => exact rep.write step

/-- A run from a client that a store represents is a run of the store. -/
theorem Represents.run (rep : Represents c σ) (inv : Invariant L false c)
    (run : Run (Client.SafeStep L false) c rs c') :
    ∃ σ', Run (Store.Step (Placed L)) σ (rs.map Request.op) σ' ∧ Represents c' σ' := by
  have hsim : ∀ c r c' σ, Invariant L false c ∧ Represents c σ → c.SafeStep L false r c' →
      ∃ σ', Store.Step (Placed L) σ r.op σ' ∧ Invariant L false c' ∧ Represents c' σ' := by
    intro c r c' σ hrel hstep
    obtain ⟨σ', hanswer, hrep⟩ := hrel.2.step hrel.1 hstep
    exact ⟨σ', hanswer, hrel.1.step hstep, hrep⟩
  obtain ⟨σ', hrun, -, hrep⟩ := run.simulate hsim ⟨inv, rep⟩
  exact ⟨σ', hrun, hrep⟩

theorem represents_initial (m : Mem) : Represents (Client.initial L m) [] :=
  ⟨rfl, fun _ hb => absurd hb List.not_mem_nil⟩

/-- **The allocator refines the store of buffers**: a run of safe steps is a run of the store
whose buffers are the live payloads, and memory has every byte that the store knows. -/
theorem refines_store (run : Run (Client.SafeStep L false) (Client.initial L m) rs c) :
    ∃ σ, Run (Store.Step (Placed L)) [] (rs.map Request.op) σ ∧ Represents c σ :=
  (represents_initial m).run (invariant_initial m) run

/-- Two payloads, of which one moves. -/
theorem refines_store_example : ∃ (c : Client) (σ : Store ℕ),
    c.live = [(65648, 40), (65616, 24)] ∧ Represents c σ ∧
    Run (Store.Step (Placed lowHeap)) []
      [.alloc 24, .alloc 24, .put 65584 7, .put 65616 9, .resize 65584 40] σ := by
  obtain ⟨c, run, hlive⟩ := exists_safeRun false
    [.malloc 24 1, .malloc 24 0, .write 65584 7, .write 65616 9, .realloc 65584 40 0] Client.live
    (b := [(65648, 40), (65616, 24)]) (by decide_cbv)
  obtain ⟨σ, hrun, hrep⟩ := refines_store run
  exact ⟨c, σ, hlive, hrep, hrun⟩

/-! ### Bytes that no request touches -/

/-- The store that knows every byte of the live payloads. -/
def Client.snapshot (c : Client) : Store ℕ :=
  c.live.map fun e => ⟨e.1, (List.range e.2).map fun i => some (c.heap.mem.byteAt (e.1 + i))⟩

theorem represents_snapshot (c : Client) : Represents c c.snapshot := by
  constructor
  · rw [Client.snapshot, List.map_map]
    refine (List.map_congr_left fun e _ => ?_).trans (List.map_id _)
    simp [Buffer.extent]
  · intro b hb i v hv
    obtain ⟨e, -, rfl⟩ := List.mem_map.mp hb
    have hi := hv.lt
    rw [List.length_map, List.length_range] at hi
    rw [Buffer.Holds, List.getElem?_map, List.getElem?_range hi] at hv
    exact Option.some.inj (Option.some.inj hv)

/-- A live payload that no request frees or reallocates stays live, and each of its bytes that
no request writes keeps its value, whatever else is allocated, freed and moved. -/
theorem byte_stays (run : Run (Client.SafeStep L false) (Client.initial L m) rs c)
    (run' : Run (Client.SafeStep L false) c rs' c') (live : (p, n) ∈ c.live) (hi : i < n)
    (still : ∀ r ∈ rs', ¬ r.op.Moves p) (unwritten : ∀ r ∈ rs', ¬ r.op.Puts (p + i)) :
    (p, n) ∈ c'.live ∧ c'.heap.mem.byteAt (p + i) = c.heap.mem.byteAt (p + i) := by
  obtain ⟨σ', hrun, hrep⟩ := (represents_snapshot c).run (invariant_of_run run) run'
  have hb := List.mem_map_of_mem live
    (f := fun e => (⟨e.1, (List.range e.2).map fun i => some (c.heap.mem.byteAt (e.1 + i))⟩ : Buffer ℕ))
  have hheld : Buffer.Holds ⟨p, (List.range n).map fun i => some (c.heap.mem.byteAt (p + i))⟩ i
      (c.heap.mem.byteAt (p + i)) := by
    rw [Buffer.Holds, List.getElem?_map, List.getElem?_range hi]
    rfl
  obtain ⟨b', hb', hextent, hheld'⟩ := Store.holds_of_run hrun hb hheld
    (List.forall_mem_map.mpr still) (List.forall_mem_map.mpr unwritten)
  have hmem := hrep.mem hb'
  have hbyte := hrep.agrees b' hb' i _ hheld'
  have hextent : b'.extent = (p, n) := by
    rw [hextent]
    simp [Buffer.extent]
  obtain ⟨rfl, rfl⟩ := Prod.mk.inj hextent
  exact ⟨hmem, hbyte⟩

/-- Two runs in `lowHeap`, one after the other. -/
theorem exists_safeRuns {β : Type*} {b : β} (ordered : Bool) (rs rs' : List Request)
    (observe : Client → Client → β)
    (h : ((rs.foldlM (Client.safeNext lowHeap ordered) blank).bind fun c =>
      (rs'.foldlM (Client.safeNext lowHeap ordered) c).map (observe c)) = some b) :
    ∃ c c', Run (Client.SafeStep lowHeap ordered) blank rs c ∧
      Run (Client.SafeStep lowHeap ordered) c rs' c' ∧ observe c c' = b := by
  obtain ⟨c, hrun, hrest⟩ := Option.bind_eq_some_iff.mp h
  obtain ⟨c', hrun', hobserve⟩ := Run.exists_of_foldlM Client.safeStep_of_next hrest
  exact ⟨c, c', Run.of_foldlM Client.safeStep_of_next hrun, hrun', hobserve⟩

/-- A byte while the payload before it moves behind it and is freed. -/
theorem byte_stays_example : ∃ c c' : Client, c.heap.mem.byteAt (65616 + 0) = 9 ∧
    c'.live = [(65616, 24)] ∧ c'.heap.mem.byteAt (65616 + 0) = c.heap.mem.byteAt (65616 + 0) := by
  obtain ⟨c, c', run, run', hobserve⟩ := exists_safeRuns false
    [.malloc 24 1, .malloc 24 0, .write 65584 7, .write 65616 9]
    [.realloc 65584 40 0, .write 65649 5, .free 65648]
    (fun c c' => (c.live, c.heap.mem.byteAt (65616 + 0), c'.live))
    (b := ([(65616, 24), (65584, 24)], 9, [(65616, 24)])) (by decide_cbv)
  simp only [Prod.mk.injEq] at hobserve
  obtain ⟨hlive, hbyte, hlive'⟩ := hobserve
  refine ⟨c, c', hbyte, hlive', (byte_stays run run' (n := 24) (by simp [hlive]) (by decide) ?_ ?_).2⟩
  · simp [Request.op, Store.Op.Moves]
  · simp [Request.op, Store.Op.Puts]

end CLanguage.Sfmm
