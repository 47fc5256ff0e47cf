import CLanguage.Sfmm.Allocate
import CLanguage.Sfmm.Bytes
import CLanguage.Sfmm.Resize

/-!
# What `sf_realloc` does

Growing a payload allocates a new one, copies the old bytes and frees the old
one. The copy ends up in the new payload alone, so the heap that `sf_free` then
works on still satisfies the invariant.
-/

namespace CLanguage.Sfmm

open Lib

variable {L : Layout} {ordered : Bool} {s s₁ : State} {m : Mem} {p q size x y n o k : ℕ}
  {a e : ℕ} {r r' : Bool} {blocks blocks' blocks₁ pre post : List Block} {lists lists' : List FreeList}

/-! ### Payloads -/

/-- The payloads of a stretch follow one another. -/
theorem Tiled.payloads_lt (h : Tiled m a r blocks e r') :
    (payloads blocks).Pairwise fun i j => i.1 < j.1 := by
  induction blocks generalizing a r with
  | nil => exact List.Pairwise.nil
  | cons b blocks ih =>
    obtain ⟨-, htag, hrest⟩ := h
    cases hused : b.used with
    | none =>
      rw [payloads_cons_free hused]
      exact ih hrest
    | some k =>
      rw [payloads_cons_used hused]
      refine List.Pairwise.cons (fun j hj => ?_) (ih hrest)
      obtain ⟨c, hc, -, haddr⟩ := mem_payloads.mp hj
      have hsize := htag.size_ge
      have hlo := (hrest.range hc).1
      have hfin := b.fin_eq
      simp only
      omega

/-- The payloads of a stretch do not overlap. -/
theorem Tiled.payloads_sorted (h : Tiled m a r blocks e r') (fits : Fits blocks) :
    (payloads blocks).Pairwise fun i j => i.1 + i.2 ≤ j.1 := by
  induction blocks generalizing a r with
  | nil => exact List.Pairwise.nil
  | cons b blocks ih =>
    obtain ⟨-, htag, hrest⟩ := h
    cases hused : b.used with
    | none =>
      rw [payloads_cons_free hused]
      exact ih hrest fun c hc => fits c (List.mem_cons_of_mem b hc)
    | some k =>
      rw [payloads_cons_used hused]
      refine List.Pairwise.cons (fun j hj => ?_)
        (ih hrest fun c hc => fits c (List.mem_cons_of_mem b hc))
      obtain ⟨c, hc, -, haddr⟩ := mem_payloads.mp hj
      have hfit := fits b List.mem_cons_self k hused
      have hlo := (hrest.range hc).1
      have hfin := b.fin_eq
      simp only
      omega

theorem Tiled.payloads_nodup (h : Tiled m a r blocks e r') :
    ((payloads blocks).map Prod.fst).Nodup :=
  List.Pairwise.map _ (fun _ _ hij heq => absurd heq (Nat.ne_of_lt hij)) h.payloads_lt

theorem HeapOk.target_of_mem (ok : HeapOk L s blocks lists) (hb : ⟨x, n, some k⟩ ∈ blocks)
    (accepted : (k + 8) % 2 ^ 32 ≤ n) :
    ∃ pre post r, blocks = pre ++ ⟨x, n, some k⟩ :: post ∧ Target L s lists pre r x n k post := by
  obtain ⟨pre, post, r, rfl, t⟩ := ok.toTagsOk.spot hb accepted
  exact ⟨pre, post, r, rfl, t, ok⟩

/-- The payload of an allocated block, given back by its address. -/
theorem HeapOk.target (ok : HeapOk L s blocks lists) (fits : Fits blocks)
    (hp : (p, k) ∈ payloads blocks) :
    ∃ x n pre post r, p = x + 8 ∧ blocks = pre ++ ⟨x, n, some k⟩ :: post ∧
      Target L s lists pre r x n k post := by
  obtain ⟨⟨x, n, u⟩, hb, hused, haddr⟩ := mem_payloads.mp hp
  obtain rfl : u = some k := hused
  obtain ⟨pre, post, r, rfl, t⟩ := ok.target_of_mem hb ((Nat.mod_le _ _).trans (fits _ hb k rfl))
  exact ⟨x, n, pre, post, r, haddr.symm, rfl, t⟩

/-- The bytes of a payload that is kept. -/
theorem Kept.byteAt {m m' : Mem} {b : Block} {i : ℕ} (h : Kept m m' b) (aligned : b.addr % 8 = 0)
    (hsize : b.size % 8 = 0) (fit : k + 8 ≤ b.size) (hi : i < k) :
    m'.byteAt (b.addr + 8 + i) = m.byteAt (b.addr + 8 + i) := by
  obtain ⟨hlo, hhi⟩ := payload_word aligned hsize fit hi
  exact Mem.byteAt_congr (h _ hlo hhi)

theorem HeapOk.aligned (ok : HeapOk L s blocks lists) {b : Block} (hb : b ∈ blocks) :
    b.addr % 8 = 0 ∧ b.size % 8 = 0 := by
  have haddr := ok.region.1.aligned hb
  have hstart := L.start_aligned
  have hsize := (ok.sizeOk hb).2.1
  omega

/-! ### The outcome -/

/-- The outcome of `sf_realloc(pp, size)` for the payload of `k` bytes at `x + 8`. -/
structure Resized (L : Layout) (ordered : Bool) (x k size : ℕ) (s : State) (blocks : List Block)
    (lists : List FreeList) (r : Option ℕ × State) (blocks' : List Block)
    (lists' : List FreeList) : Prop where
  heap : HeapOk L r.2 blocks' lists'
  fits : Fits blocks'
  payloads : match r.1 with
    | some q => ((q, size) :: payloads blocks).Perm ((x + 8, k) :: payloads blocks')
    | none => if size = 0 then (payloads blocks).Perm ((x + 8, k) :: payloads blocks')
      else (payloads blocks').Perm (payloads blocks)
  keeps : Keeps (fun b => b.used ≠ none ∧ b.addr ≠ x) s.mem blocks r.2.mem blocks'
  own : r.1 = none → size ≠ 0 →
    Keeps (fun b => b.used ≠ none ∧ b.addr = x) s.mem blocks r.2.mem blocks'
  copied : ∀ q, r.1 = some q → ∀ i < min k size,
    r.2.mem.byteAt (q + i) = s.mem.byteAt (x + 8 + i)
  order : ordered = true → Increasing lists → Increasing lists'

/-- The heap between the copy and the call of `sf_free`. -/
structure Copied (L : Layout) (x k size : ℕ) (s : State) (blocks : List Block) (s₂ : State)
    (y o : ℕ) (blocks₁ : List Block) (lists₁ : List FreeList) : Prop where
  heap : HeapOk L s₂ blocks₁ lists₁
  fits : Fits blocks₁
  target : y + 8 ∉ (Sfmm.payloads blocks).map Prod.fst
  new : ⟨y, o, some size⟩ ∈ blocks₁
  keeps : Keeps (fun b => b.used ≠ none) s.mem blocks s₂.mem blocks₁
  bytes : ∀ i < k, s₂.mem.byteAt (y + 8 + i) = s.mem.byteAt (x + 8 + i)

/-! ### Growing -/

/-- `memcpy` into the payload that `sf_malloc` has just returned. -/
private theorem Allocated.copy {lists₁ : List FreeList}
    (alloc : Allocated L ordered size s blocks lists (some q, s₁) blocks₁ lists₁)
    (fits : Fits blocks) (hx : ⟨x, n, some k⟩ ∈ blocks) (hlt : k < size) :
    ∃ y o, q = y + 8 ∧ Copied L x k size s blocks
      { s₁ with mem := s₁.mem.memcpy q (x + 8) k } y o blocks₁ lists₁ := by
  have hok : HeapOk L s₁ blocks₁ lists₁ := alloc.heap
  have hperm : (Sfmm.payloads blocks₁).Perm ((q, size) :: Sfmm.payloads blocks) := alloc.payloads
  obtain ⟨⟨y, o, u⟩, hy, hused, haddr⟩ := mem_payloads.mp (hperm.symm.subset List.mem_cons_self)
  obtain rfl : u = some size := hused
  obtain rfl : y + 8 = q := haddr
  have haligned : y % 8 = 0 ∧ o % 8 = 0 := hok.aligned hy
  have hfits : Fits blocks₁ := fits.of_origin alloc.origin
  have hfit : size + 8 ≤ o := hfits _ hy size rfl
  -- the payload is new
  have hnew : y + 8 ∉ (Sfmm.payloads blocks).map Prod.fst := by
    intro hmem
    have hnodup := (hperm.map Prod.fst).nodup_iff.mp hok.region.1.payloads_nodup
    exact (List.nodup_cons.mp hnodup).1 hmem
  have hother : ∀ b ∈ blocks, b.used ≠ none → b.addr ≠ y := by
    intro b hb hne heq
    obtain ⟨j, hj⟩ := Option.ne_none_iff_exists'.mp hne
    exact hnew (List.mem_map.mpr ⟨(b.addr + 8, j), mem_payloads.mpr ⟨b, hb, hj, rfl⟩, by simp [heq]⟩)
  -- the copy stays inside it
  have houtside : ∀ w, w < y + 8 ∨ y + o ≤ w → s₁.mem.memcpy (y + 8) (x + 8) k w = s₁.mem w := by
    intro w hw
    refine Mem.memcpy_word fun i hi => ?_
    have := payload_word haligned.1 haligned.2 hfit (hi.trans hlt)
    omega
  have hkept : ∀ b ∈ blocks, b.used ≠ none → b ∈ blocks₁ ∧
      Kept s₁.mem (s₁.mem.memcpy (y + 8) (x + 8) k) b := by
    intro b hb hne
    have hb₁ := (alloc.keeps b hb hne).1
    refine ⟨hb₁, fun w hlo hhi => houtside w ?_⟩
    have hapart : b.fin ≤ y ∨ y + o ≤ b.addr :=
      hok.region.1.apart hb₁ hy fun h => hother b hb hne (by rw [h])
    omega
  refine ⟨y, o, rfl, hok.fill hy (by simp) houtside, hfits, hnew, hy,
    fun b hb hne => ⟨(hkept b hb hne).1, (alloc.keeps b hb hne).2.trans (hkept b hb hne).2⟩,
    fun i hi => ?_⟩
  obtain ⟨hx₁, hsame⟩ := alloc.keeps _ hx (by simp)
  obtain ⟨hax, hsx⟩ := hok.aligned hx₁
  have hfitx : k + 8 ≤ n := fits _ hx k rfl
  have hsource : s₁.mem.byteAt (x + 8 + i) = s.mem.byteAt (x + 8 + i) :=
    hsame.byteAt hax hsx hfitx hi
  simp only [Mem.byteAt_memcpy]
  rw [if_pos (by omega), Nat.add_sub_cancel_left]
  exact hsource

/-- `sf_free` of the old payload after the copy. -/
private theorem Copied.free {s₂ : State} {lists₁ : List FreeList}
    (c : Copied L x k size s (pre ++ ⟨x, n, some k⟩ :: post) s₂ y o blocks₁ lists₁)
    (hlt : k < size) (payloads₁ : (payloads blocks₁).Perm
      ((y + 8, size) :: payloads (pre ++ ⟨x, n, some k⟩ :: post)))
    (order : ordered = true → Increasing lists → Increasing lists₁)
    (safe : freeSafe L ordered (x + 8) s₂ = true) :
    Ensures (· = Fault.noNode)
      (fun s' => ∃ blocks' lists', Resized L ordered x k size s (pre ++ ⟨x, n, some k⟩ :: post) lists
        (some (y + 8), s') blocks' lists')
      (sfFree L (x + 8) s₂) := by
  have hx : ⟨x, n, some k⟩ ∈ blocks₁ := (c.keeps ⟨x, n, some k⟩ (by simp) (by simp)).1
  -- the new block is not the old one, which was in use when it was found
  have hne : y ≠ x := by
    rintro rfl
    have hy : (y + 8, k) ∈ payloads (pre ++ ⟨y, n, some k⟩ :: post) :=
      mem_payloads.mpr ⟨⟨y, n, some k⟩, by simp, rfl, rfl⟩
    exact c.target (List.mem_map_of_mem hy)
  obtain ⟨pre₁, post₁, r₁, hblocks, t₁⟩ :=
    c.heap.target_of_mem hx ((Nat.mod_le _ _).trans (c.fits _ hx k rfl))
  obtain ⟨hfits, horder⟩ := freeSafe_iff.mp safe
  refine (t₁.sfFree_ensures hfits).mono fun s' hs' => ?_
  obtain ⟨blocks', lists', freed⟩ := hs'
  rw [← hblocks] at freed
  refine ⟨blocks', lists', freed.heap,
    c.fits.of_origin (k := k) fun b hb hused => Or.inl (freed.origin b hb hused), ?_,
    fun b hb hsel => ?_, fun h => absurd h (by simp), ?_, ?_⟩
  · exact payloads₁.symm.trans freed.payloads
  · obtain ⟨hb₁, hsame⟩ := c.keeps b hb hsel.1
    obtain ⟨hb', hsame'⟩ := freed.keeps b hb₁ hsel
    exact ⟨hb', hsame.trans hsame'⟩
  · intro q hq i hi
    obtain rfl : y + 8 = q := by simpa using hq
    have hik : i < k := lt_of_lt_of_le hi (Nat.min_le_left k size)
    obtain ⟨hay, hoy⟩ := c.heap.aligned c.new
    have hfit : size + 8 ≤ o := c.fits _ c.new size rfl
    have hsame := (freed.keeps _ c.new ⟨by simp, hne⟩).2
    exact (hsame.byteAt hay hoy hfit (hik.trans hlt)).trans (c.bytes i hik)
  · exact fun hordered inc => freed.order (horder hordered) (order hordered inc)

/-! ### The four branches -/

theorem Target.sfRealloc_eq (t : Target L s lists pre r x n k post) :
    sfRealloc L (x + 8) size s =
      if size = 0 then do
        let s ← sfFree L (x + 8) s
        return (none, s)
      else if k < size then do
        let (p, s) ← sfMalloc L size s
        match p with
        | none => return (none, s)
        | some p =>
          let m := s.mem.memcpy p (x + 8) (s.mem x).requestedSize.toNat
          let s ← sfFree L (x + 8) { s with mem := m }
          return (some p, s)
      else if k > size then do
        let s ← shrink L (x + 8) size s
        return (some (x + 8), s)
      else
        .ok (some (x + 8), s) := by
  have hreq : (s.mem x).requestedSize.toNat = k := t.tagged.requested k rfl
  rw [sfRealloc, if_pos t.valid, Nat.add_sub_cancel]
  subst hreq
  rfl

private theorem Target.sfRealloc_free (t : Target L s lists pre r x n k post)
    (fits : Fits (pre ++ ⟨x, n, some k⟩ :: post)) (zero : size = 0)
    (safe : reallocSafe L ordered (x + 8) size s = true) :
    Ensures (· = Fault.noNode)
      (fun r' => ∃ blocks' lists', Resized L ordered x k size s (pre ++ ⟨x, n, some k⟩ :: post) lists
        r' blocks' lists')
      (sfRealloc L (x + 8) size s) := by
  rw [t.sfRealloc_eq, if_pos zero]
  rw [reallocSafe, if_pos zero] at safe
  obtain ⟨hfits, horder⟩ := freeSafe_iff.mp safe
  refine (t.sfFree_ensures hfits).bind fun s' hs' => ?_
  obtain ⟨blocks', lists', freed⟩ := hs'
  refine .of_pure ⟨blocks', lists', freed.heap,
    fits.of_origin (k := k) fun b hb hused => Or.inl (freed.origin b hb hused), ?_, freed.keeps,
    fun _ h => absurd zero h,
    fun q hq => absurd hq (by simp), fun hordered inc => freed.order (horder hordered) inc⟩
  simp only [if_pos zero]
  exact freed.payloads

private theorem Target.sfRealloc_grow (t : Target L s lists pre r x n k post)
    (fits : Fits (pre ++ ⟨x, n, some k⟩ :: post)) (hsize : size < 2 ^ 31) (hlt : k < size)
    (safe : reallocSafe L ordered (x + 8) size s = true) :
    Ensures (· = Fault.noNode)
      (fun r' => ∃ blocks' lists', Resized L ordered x k size s (pre ++ ⟨x, n, some k⟩ :: post) lists
        r' blocks' lists')
      (sfRealloc L (x + 8) size s) := by
  have hreq : (s.mem x).requestedSize.toNat = k := t.tagged.requested k rfl
  have hpos : size ≠ 0 := Nat.ne_zero_of_lt hlt
  rw [t.sfRealloc_eq, if_neg hpos, if_pos hlt]
  rw [reallocSafe, if_neg hpos, Nat.add_sub_cancel, hreq, if_pos hlt] at safe
  have hsafe := Bool.and_eq_true_iff.mp safe
  have hmalloc := t.heap.mallocFuel_ensures hpos hsize (Nat.lt_succ_self _) hsafe.1
  -- a new block is taken, and the old one freed after the copy
  cases hrun : sfMalloc L size s with
  | error e =>
    rw [sfMalloc] at hrun
    rw [hrun] at hmalloc
    cases hmalloc with
    | error he => exact .error he
  | ok result =>
    obtain ⟨p, s₁⟩ := result
    have hfree := hsafe.2
    rw [hrun] at hfree
    rw [sfMalloc] at hrun
    obtain ⟨blocks₁, lists₁, alloc⟩ := hmalloc.of_ok hrun
    cases p with
    | none =>
      refine .ok ⟨blocks₁, lists₁, alloc.heap, fits.of_origin alloc.origin, ?_,
        fun b hb hsel => alloc.keeps b hb hsel.1, fun _ _ b hb hsel => alloc.keeps b hb hsel.1,
        fun q hq => absurd hq (by simp), alloc.order⟩
      simp only [if_neg hpos]
      exact alloc.payloads
    | some q =>
      have hx : ⟨x, n, some k⟩ ∈ pre ++ ⟨x, n, some k⟩ :: post := by simp
      have hx₁ : ⟨x, n, some k⟩ ∈ blocks₁ := (alloc.keeps _ hx (by simp)).1
      have hreq₁ : (s₁.mem x).requestedSize.toNat = k := by
        obtain ⟨_, htag⟩ := alloc.heap.region.1.tagged hx₁
        exact htag.requested k rfl
      obtain ⟨y, o, rfl, copied⟩ := alloc.copy fits hx hlt
      simp only [hreq₁] at hfree
      change Ensures _ _ (sfFree L (x + 8)
        { s₁ with mem := s₁.mem.memcpy (y + 8) (x + 8) (s₁.mem x).requestedSize.toNat } >>= _)
      rw [hreq₁]
      exact (copied.free hlt alloc.payloads alloc.order hfree).bind fun s' hs' => .of_pure hs'

private theorem Target.shrinkSafe (t : Target L s lists pre r x n k post)
    (pos : size ≠ 0) (hgt : size < k) (safe : reallocSafe L ordered (x + 8) size s = true) :
    shrinkFits (x + 8) size s = true ∧ (ordered = true → shrinkOrdered L (x + 8) size s = true) := by
  have hreq : (s.mem x).requestedSize.toNat = k := t.tagged.requested k rfl
  rw [reallocSafe, if_neg pos, Nat.add_sub_cancel, hreq, if_neg (Nat.lt_asymm hgt),
    if_pos hgt] at safe
  have hboth := Bool.and_eq_true_iff.mp safe
  refine ⟨hboth.1, fun hordered => ?_⟩
  exact (Bool.or_eq_true_iff.mp hboth.2).resolve_left (by rw [hordered]; exact Bool.false_ne_true)

private theorem Target.resized_of_shrunk {s' : State} (t : Target L s lists pre r x n k post)
    (fits : Fits (pre ++ ⟨x, n, some k⟩ :: post)) (pos : size ≠ 0) (hgt : size < k)
    (safe : reallocSafe L ordered (x + 8) size s = true)
    (shrunk : Shrunk L pre x n k size post s lists s' lists') :
    Resized L ordered x k size s (pre ++ ⟨x, n, some k⟩ :: post) lists (some (x + 8), s')
      (shrunkBlocks pre x n size post) lists' := by
  refine ⟨shrunk.heap, fits.of_origin shrunk.origin, shrunk.payloads, shrunk.keeps,
    fun h => absurd h (by simp), ?_, fun hordered inc => shrunk.order ((t.shrinkSafe pos hgt safe).2 hordered) inc⟩
  · intro q hq i hi
    obtain rfl : x + 8 = q := by simpa using hq
    obtain ⟨n', hfit, hsame⟩ := shrunk.own
    have hx : x % 8 = 0 := (t.heap.aligned (b := ⟨x, n, some k⟩) (by simp)).1
    have hi' : i < size := lt_of_lt_of_le hi (Nat.min_le_right k size)
    exact Mem.byteAt_congr (hsame _ (by omega) (by omega))

/-- `sf_realloc` of a live payload. -/
theorem Target.sfRealloc_ensures (t : Target L s lists pre r x n k post)
    (fits : Fits (pre ++ ⟨x, n, some k⟩ :: post)) (hsize : size < 2 ^ 31)
    (safe : reallocSafe L ordered (x + 8) size s = true) :
    Ensures (· = Fault.noNode)
      (fun r' => ∃ blocks' lists', Resized L ordered x k size s (pre ++ ⟨x, n, some k⟩ :: post) lists
        r' blocks' lists')
      (sfRealloc L (x + 8) size s) := by
  by_cases zero : size = 0
  · exact t.sfRealloc_free fits zero safe
  · rcases Nat.lt_trichotomy k size with hlt | rfl | hgt
    · exact t.sfRealloc_grow fits hsize hlt safe
    · rw [t.sfRealloc_eq, if_neg zero, if_neg (lt_irrefl _), if_neg (lt_irrefl _)]
      exact .ok ⟨_, lists, t.heap, fits, List.Perm.refl _, fun b hb _ => ⟨hb, fun _ _ _ => rfl⟩,
        fun h => absurd h (by simp), fun q hq i _ => by
          obtain rfl : x + 8 = q := by simpa using hq
          rfl, fun _ inc => inc⟩
    · rw [t.sfRealloc_eq, if_neg zero, if_neg (Nat.lt_asymm hgt), if_pos hgt]
      have hfit : k + 8 ≤ n := fits ⟨x, n, some k⟩ (by simp) k rfl
      refine (t.shrink_ensures (t.shrinkSafe zero hgt safe).1 (by omega)).1.bind fun s' hs' => ?_
      obtain ⟨lists', shrunk⟩ := hs'
      exact .of_pure ⟨_, lists', t.resized_of_shrunk fits zero hgt safe shrunk⟩

end CLanguage.Sfmm
