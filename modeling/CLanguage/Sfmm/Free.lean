import CLanguage.Sfmm.Malloc

/-!
# `sf_free` and `sf_realloc`

`sf_free` validates the pointer, merges the block with its free neighbours and
puts the result on the list of its size. `sf_realloc` validates in the same
way; it grows a block by `sf_malloc`, `memcpy` and `sf_free`, and shrinks it in
place, putting the cut-off tail on a list exactly as `sf_free` would.
-/

namespace CLanguage.Sfmm

variable (L : Layout)

/-! ## Putting a freed block on the list of its size -/

/-- The `flag` loop of `sf_free` and `sf_realloc`: a node of size `bs`. -/
def findNode (m : Mem) (bs : ℕ) : ℕ → ℕ → Except Fault (Option ℕ)
  | 0, _ => .error .diverge
  | fuel + 1, t =>
    if t = L.sentinel then
      .ok none
    else if m.nodeSize t = bs then
      .ok (some t)
    else if m.nodeSize t > bs then
      .ok none
    else
      findNode m bs fuel (m.nodeNext t)

/-- Where the second loop puts a new node. -/
inductive Place where
  | after (t : ℕ)
  | before (t : ℕ)
  deriving DecidableEq

/-- The second loop of `sf_free` and `sf_realloc`. -/
def findPlace (m : Mem) (bs : ℕ) : ℕ → ℕ → Except Fault (Option Place)
  | 0, _ => .error .diverge
  | fuel + 1, t =>
    if t = L.sentinel then
      .ok none
    else if (m.nodeSize t < bs ∧ m.nodeSize (m.nodeNext t) > bs) ∨
        m.nodeNext t = L.sentinel then
      .ok (some (.after t))
    else if m.nodePrev t = L.sentinel ∧ m.nodeSize t > bs then
      .ok (some (.before t))
    else
      findPlace m bs fuel (m.nodeNext t)

/-- Put `h` in front of the list of node `t`. -/
def linkFront (m : Mem) (t h : ℕ) : Mem :=
  let m := m.setLinksPrev (m.linksNext (nodeHead t)) h
  let m := m.setLinksPrev h (nodeHead t)
  let m := m.setLinksNext h (m.linksNext (nodeHead t))
  m.setLinksNext (nodeHead t) h

/-- A new node of size `bs` before the first node `t`, with the one block `h`. -/
def addListFirst (bs t h : ℕ) (s : State) : Except Fault State := do
  let (new, s) ← sfAddFreeList L bs t s
  let m := s.mem.setNodeNext L.sentinel new
  let m := m.setNodePrev new L.sentinel
  return { s with mem := linkAlone m new h }

/-- List the free block `h` of size `bs`. -/
def insertFreed (bs h : ℕ) (s : State) : Except Fault State := do
  match ← findNode L s.mem bs (s.nodes + 1) (s.mem.nodeNext L.sentinel) with
  | some t => return { s with mem := linkFront s.mem t h }
  | none =>
    match ← findPlace L s.mem bs (s.nodes + 1) (s.mem.nodeNext L.sentinel) with
    | some (.after t) => addListAfter L bs t h s
    | some (.before t) => addListFirst L bs t h s
    | none => return s

/-! ## Validation -/

/-- The checks that `sf_free` and `sf_realloc` make before touching a block. -/
def validPointer (s : State) (pp : ℕ) : Bool :=
  let m := s.mem
  let header := m (pp - 8)
  let footer := m (pp - 16)
  !(pp = 0) && !(pp < L.start + 40 || pp > s.heapEnd - 8) && header.allocated &&
    !(intShl4 header.blockSize % 16 ≠ 0 || intShl4 header.blockSize < 32) &&
    !((header.requestedSize.toNat + 8) % 2 ^ 32 > 16 * header.blockSize.toNat) &&
    (header.prevAllocated ||
      (!footer.allocated && !(m (sub64 (pp - 16 + 8) (shl4 footer.blockSize))).allocated))

/-! ## Coalescing -/

/-- Copy the tag of a freed block to its footer. -/
def copyTag (m : Mem) (src footer : ℕ) : Mem :=
  m.modify footer fun w =>
    { w with
      blockSize := (m src).blockSize
      prevAllocated := (m src).prevAllocated
      allocated := (m src).allocated
      requestedSize := (m src).requestedSize }

/-- The four coalescing cases of `sf_free`: the merged block and the memory. -/
def coalesce (m : Mem) (pp : ℕ) : ℕ × Mem :=
  let h := pp - 8
  let next := add64 h (shl4 (m h).blockSize)
  if (m next).allocated then
    if (m h).prevAllocated then
      let m := m.modify h fun w => { w with allocated := false, requestedSize := 0 }
      let m := m.modify next fun w => { w with prevAllocated := false }
      (h, copyTag m h (next - 8))
    else
      let m := m.modify h fun w => { w with allocated := false }
      let prev := sub64 (pp - 16 + 8) (shl4 (m (pp - 16)).blockSize)
      let m := m.modify prev fun w => { w with blockSize := w.blockSize + (m h).blockSize }
      let m := copyTag m prev (sub64 (add64 prev (shl4 (m prev).blockSize)) 8)
      let m := m.unlink prev
      (prev, m.modify next fun w => { w with prevAllocated := false })
  else if (m h).prevAllocated then
    let m := m.modify h fun w => { w with allocated := false, requestedSize := 0 }
    let m := m.modify h fun w => { w with blockSize := w.blockSize + (m next).blockSize }
    let m := copyTag m h (sub64 (add64 next (shl4 (m next).blockSize)) 8)
    (h, m.unlink next)
  else
    let m := m.modify h fun w => { w with allocated := false }
    let prev := sub64 (pp - 16 + 8) (shl4 (m (pp - 16)).blockSize)
    let m := m.modify prev fun w =>
      { w with blockSize := w.blockSize + (m h).blockSize + (m next).blockSize }
    let m := copyTag m prev (sub64 (add64 next (shl4 (m next).blockSize)) 8)
    (prev, (m.unlink next).unlink prev)

/-- `sf_free(pp)`. -/
def sfFree (pp : ℕ) (s : State) : Except Fault State :=
  if validPointer L s pp then
    let (final, m) := coalesce s.mem pp
    insertFreed L (shl4 (m final).blockSize) final { s with mem := m }
  else
    .error .abort

/-! ## `sf_realloc` -/

/-- `split`: the block size that `sf_realloc` shrinks to, an `int`. -/
def splitFor (rsize : ℕ) : ℤ :=
  if intOf (rsize + 8) < 32 then
    32
  else if intOf (rsize + 8) % 16 ≠ 0 then
    intOf (rsize + 8) + (16 - intOf (rsize + 8) % 16)
  else
    intOf (rsize + 8)

/-- Cut the tail off a block: the memory and the free block made of it. -/
def cutTail (m : Mem) (pp : ℕ) (split : ℤ) : ℕ × Mem :=
  let h := pp - 8
  let next := add64 h (shl4 (m h).blockSize)
  let new := add64 h (sizeOfInt split)
  if (m next).allocated then
    let m := m.modify next fun w => { w with prevAllocated := false }
    let m := m.modify new fun w =>
      { w with
        blockSize := BitVec.ofInt 28 (intOf (intShl4 (m h).blockSize - split) / 16)
        requestedSize := 0
        allocated := false
        prevAllocated := true }
    let footer := sub64 (add64 h (shl4 (m h).blockSize)) 8
    (new, m.modify footer fun w =>
      { w with
        blockSize := (m new).blockSize
        requestedSize := 0
        allocated := false
        prevAllocated := true })
  else
    let m := m.modify new fun w =>
      { w with requestedSize := 0, allocated := false, prevAllocated := true }
    let m := m.modify new fun w =>
      { w with
        blockSize := BitVec.ofInt 28
          (intOf (intOf (intShl4 (m h).blockSize - split) + intShl4 (m next).blockSize) / 16) }
    let footer := sub64 (add64 new (shl4 (m new).blockSize)) 8
    let m := m.modify footer fun w =>
      { w with
        blockSize := (m new).blockSize
        requestedSize := 0
        prevAllocated := true
        allocated := false }
    (new, m.unlink next)

/-- Shrink the block at `pp` in place. -/
def shrink (pp rsize : ℕ) (s : State) : Except Fault State :=
  let h := pp - 8
  let split := splitFor rsize
  let m := s.mem.modify h fun w => { w with requestedSize := BitVec.ofNat 32 rsize }
  if intOf (intShl4 (s.mem h).blockSize - split) < 32 then
    .ok { s with mem := m }
  else
    let (final, m) := cutTail m pp split
    let m := m.modify h fun w => { w with blockSize := BitVec.ofInt 28 (split / 16) }
    insertFreed L (shl4 (m final).blockSize) final { s with mem := m }

/-- `sf_realloc(pp, rsize)`. -/
def sfRealloc (pp rsize : ℕ) (s : State) : Except Fault (Option ℕ × State) :=
  if validPointer L s pp then
    if rsize = 0 then do
      let s ← sfFree L pp s
      return (none, s)
    else if (s.mem (pp - 8)).requestedSize.toNat < rsize then do
      let (p, s) ← sfMalloc L rsize s
      match p with
      | none => return (none, s)
      | some p =>
        let m := s.mem.memcpy p pp (s.mem (pp - 8)).requestedSize.toNat
        let s ← sfFree L pp { s with mem := m }
        return (some p, s)
    else if (s.mem (pp - 8)).requestedSize.toNat > rsize then do
      let s ← shrink L pp rsize s
      return (some pp, s)
    else
      .ok (some pp, s)
  else
    .error .abort

end CLanguage.Sfmm
