import CLanguage.Sfmm.State

/-!
# `sf_malloc`

`sf_malloc` formats the first page when the heap has none, takes the first
block of the first list that is large enough, and otherwise grows the heap by a
page and calls itself again.

Every loop over the list of free lists stops at the sentinel. Its counter
starts at the number of nodes, which bounds every walk that does not repeat a
node, so running out of it means that the loop of the source never ends.
-/

namespace CLanguage.Sfmm

variable (L : Layout)

/-! ## Searching the list of free lists -/

/-- The search loop: the first node with a block for `size + 8` bytes. -/
def findFit (m : Mem) (size : ℕ) : ℕ → ℕ → Except Fault (Option ℕ)
  | 0, _ => .error .diverge
  | fuel + 1, t =>
    if m.nodeNext t = L.sentinel then
      .ok none
    else if add64 size 8 ≤ m.nodeSize (m.nodeNext t) ∧
        m.linksNext (nodeHead (m.nodeNext t)) ≠ nodeHead (m.nodeNext t) then
      .ok (some (m.nodeNext t))
    else
      findFit m size fuel (m.nodeNext t)

/-- The `flag` loop of `sf_malloc`: a node of size `bs`. It starts at the
sentinel, stops at the first larger size and never looks at the last node. -/
def findEqual (m : Mem) (bs : ℕ) : ℕ → ℕ → Except Fault (Option ℕ)
  | 0, _ => .error .diverge
  | fuel + 1, t =>
    if m.nodeNext t = L.sentinel then
      .ok none
    else if m.nodeSize t = bs then
      .ok (some t)
    else if m.nodeSize t > bs then
      .ok none
    else
      findEqual m bs fuel (m.nodeNext t)

/-- The second loop after a split: a node below `bs` whose successor is above it. -/
def findGap (m : Mem) (bs : ℕ) : ℕ → ℕ → Except Fault (Option ℕ)
  | 0, _ => .error .diverge
  | fuel + 1, t =>
    if m.nodeNext t = L.sentinel then
      .ok none
    else if m.nodeSize t < bs ∧ m.nodeSize (m.nodeNext t) > bs then
      .ok (some t)
    else
      findGap m bs fuel (m.nodeNext t)

/-- The second loop after growing: such a node, or else the last one. -/
def findGapOrLast (m : Mem) (bs : ℕ) : ℕ → ℕ → Except Fault (Option ℕ)
  | 0, _ => .error .diverge
  | fuel + 1, t =>
    if t = L.sentinel then
      .ok none
    else if (m.nodeSize t < bs ∧ m.nodeSize (m.nodeNext t) > bs) ∨
        m.nodeNext t = L.sentinel then
      .ok (some t)
    else
      findGapOrLast m bs fuel (m.nodeNext t)

/-! ## Linking a block in -/

/-- What `sf_malloc` does with a block whose size already has a list: the
block's own links and the second block's `prev` are set. -/
def linkBehindFirst (m : Mem) (t h : ℕ) : Mem :=
  let first := m.linksNext (nodeHead t)
  let m := m.setLinksNext h (m.linksNext first)
  let m := m.setLinksPrev h first
  m.setLinksPrev (m.linksNext first) h

/-- Make `h` the only block of the list of the new node `t`. -/
def linkAlone (m : Mem) (t h : ℕ) : Mem :=
  let m := m.setLinksNext (nodeHead t) h
  let m := m.setLinksPrev (nodeHead t) h
  let m := m.setLinksPrev h (nodeHead t)
  m.setLinksNext h (nodeHead t)

/-- A new node of size `bs` after node `t`, with the one block `h`. -/
def addListAfter (bs t h : ℕ) (s : State) : Except Fault State := do
  let (new, s) ← sfAddFreeList L bs (s.mem.nodeNext t) s
  let m := s.mem.setNodeNext t new
  let m := m.setNodePrev new t
  return { s with mem := linkAlone m new h }

/-- List the remainder `h` of a split, of size `bs`. -/
def insertRemainder (bs h : ℕ) (s : State) : Except Fault State := do
  match ← findEqual L s.mem bs (s.nodes + 1) L.sentinel with
  | some t => return { s with mem := linkBehindFirst s.mem t h }
  | none =>
    match ← findGap L s.mem bs (s.nodes + 1) L.sentinel with
    | some t => addListAfter L bs t h s
    | none => return s

/-- List the block `h` of size `bs` that ends with the new page. -/
def insertGrown (bs h : ℕ) (s : State) : Except Fault State := do
  match ← findEqual L s.mem bs (s.nodes + 1) L.sentinel with
  | some t => return { s with mem := linkBehindFirst s.mem t h }
  | none =>
    match ← findGapOrLast L s.mem bs (s.nodes + 1) (s.mem.nodeNext L.sentinel) with
    | some t => addListAfter L bs t h s
    | none => return s

/-! ## Tags -/

/-- Write the header of a free block. -/
def freeHeader (m : Mem) (h bs : ℕ) : Mem :=
  m.modify h fun w =>
    { w with prevAllocated := true, allocated := false, blockSize := BitVec.ofNat 28 (bs / 16) }

/-- Write the header of an allocated block. -/
def allocHeader (m : Mem) (h bs size : ℕ) : Mem :=
  m.modify h fun w =>
    { w with
      blockSize := BitVec.ofNat 28 (bs / 16)
      requestedSize := BitVec.ofNat 32 size
      allocated := true }

/-- `bs`: the block size for a request. -/
def blockSizeFor (size : ℕ) : ℕ :=
  if add64 size 8 < 32 then
    32
  else if add64 size 8 % 16 ≠ 0 then
    add64 (add64 size 8) (16 - add64 size 8 % 16)
  else
    add64 size 8

/-! ## The branches of `sf_malloc` -/

/-- Format the first page. `sf_mem_grow`'s result is not looked at. -/
def firstPage (s : State) : Except Fault State := do
  let s := (sfMemGrow L s).2
  let m := s.mem.modify (L.start + 8) fun w => { w with allocated := true }
  let m := m.modify (L.start + 32) fun w => { w with allocated := true }
  let m := m.modify (s.heapEnd - 8) fun w => { w with allocated := true }
  let first := L.start + 40
  let m := freeHeader m first (pageSz - 48)
  let m := freeHeader m (s.heapEnd - 16) (pageSz - 48)
  let (new, s) ← sfAddFreeList L (pageSz - 48) (m.nodeNext L.sentinel) { s with mem := m }
  let m := s.mem.setNodeNext L.sentinel new
  let m := m.setNodePrev L.sentinel new
  let m := m.setNodeNext new L.sentinel
  let m := m.setNodePrev new L.sentinel
  return { s with mem := linkAlone m new first }

/-- Take the first block of list `t` and split off what is left over. -/
def takeSplit (size t : ℕ) (s : State) : Except Fault (ℕ × State) := do
  let bs := blockSizeFor size
  let m := s.mem
  let h := m.linksNext (nodeHead t)
  let m := allocHeader m h bs size
  let rest := add64 h (shl4 (m h).blockSize)
  let m := freeHeader m rest (sub64 (m.nodeSize t) bs)
  let footer := sub64 (sub64 (add64 rest (m.nodeSize t)) bs) 8
  let m := freeHeader m footer (sub64 (m.nodeSize t) bs)
  let bs := sub64 (m.nodeSize t) bs
  let m := m.setLinksNext (nodeHead t) (m.linksNext (m.linksNext (nodeHead t)))
  let s ← insertRemainder L bs rest { s with mem := m }
  return (h + 8, s)

/-- Take the first block of list `t` whole. -/
def takeWhole (size t : ℕ) (s : State) : ℕ × State :=
  let m := s.mem
  let bs := m.nodeSize t
  let h := m.linksNext (nodeHead t)
  let m := allocHeader m h bs size
  -- the next header and the epilogue take the same update
  let m := m.modify (add64 h (shl4 (m h).blockSize)) fun w => { w with prevAllocated := true }
  let m := m.setLinksNext (nodeHead t) (m.linksNext (m.linksNext (nodeHead t)))
  (h + 8, { s with mem := m })

/-- Make a block of the page that `sf_mem_grow` has just appended, merging it
with a free block before it. -/
def addPage (s : State) : Except Fault State := do
  let m := s.mem.modify (s.heapEnd - 8) fun w => { w with allocated := true }
  let p := s.heapEnd - pageSz - 8
  if (m p).prevAllocated then
    let m := freeHeader m p pageSz
    let m := freeHeader m (p + pageSz - 8) pageSz
    insertGrown L pageSz p { s with mem := m }
  else
    let h := sub64 p (shl4 (m (p - 8)).blockSize)
    let m := m.modify h fun w =>
      { w with blockSize := w.blockSize + BitVec.ofNat 28 (pageSz / 16) }
    let m := m.modify (s.heapEnd - 16) fun w =>
      { w with
        blockSize := (m h).blockSize
        prevAllocated := (m h).prevAllocated
        allocated := (m h).allocated }
    let m := m.unlink h
    insertGrown L (shl4 (m h).blockSize) h { s with mem := m }

/-- The body of `sf_malloc`; the counter bounds its calls to itself. -/
def mallocFuel (size : ℕ) : ℕ → State → Except Fault (Option ℕ × State)
  | 0, _ => .error .diverge
  | fuel + 1, s =>
    if size = 0 then
      .ok (none, s)
    else do
      let s ← if L.start = s.heapEnd then firstPage L s else .ok s
      match ← findFit L s.mem size (s.nodes + 1) L.sentinel with
      | some t =>
        if sub64 (s.mem.nodeSize t) (blockSizeFor size) ≥ 32 then
          let (p, s) ← takeSplit L size t s
          return (some p, s)
        else
          let (p, s) := takeWhole size t s
          return (some p, s)
      | none =>
        match sfMemGrow L s with
        | (true, s) => mallocFuel size fuel (← addPage L s)
        | (false, s) => return (none, s)

/-- `sf_malloc(size)`. Each call to itself follows a granted page. -/
def sfMalloc (size : ℕ) (s : State) : Except Fault (Option ℕ × State) :=
  mallocFuel L size (s.pagesLeft + 1) s

end CLanguage.Sfmm
