import CLanguage.Sfmm.Client
import CLanguage.Sfmm.Coalesce

/-!
# Steps that stay off the faulty branches

Two branches of `sf_malloc` break the free lists. Taking the first of several
blocks leaves the `prev` link of the second one pointing at the block taken.
And a remainder or a grown block whose size already has a list is linked behind
the first block without being reachable from the head. The size field overflows
when free memory is merged into a block of `2 ^ 31` bytes or more. `safe` holds of
a request that meets none of these, on a heap that has a page or gets its first one.

Three further branches put a list in the wrong place: a grown block smaller than
the first list, a grown block of the size of the last list, and a freed block
when the only list is larger. `safe` with `ordered` excludes these as well.
-/

namespace CLanguage.Sfmm

variable (L : Layout)

/-- The search ended at the sentinel or at a larger size. -/
def notFound : Except Fault (Option ℕ) → Bool
  | .ok none => true
  | _ => false

theorem notFound_ok_map {α : Type} (o : Option α) (f : α → ℕ) :
    notFound (.ok (o.map f)) = true ↔ o = none := by
  cases o <;> simp [notFound]

/-- The first block of list `t` is its only one, and no list is found for what is left. -/
def takeSafe (size t : ℕ) (s : State) : Bool :=
  s.mem.linksNext (s.mem.linksNext (nodeHead t)) = nodeHead t &&
    (sub64 (s.mem.nodeSize t) (blockSizeFor size) < 32 ||
      notFound (findEqual L s.mem (sub64 (s.mem.nodeSize t) (blockSizeFor size)) (s.nodes + 1)
        L.sentinel))

/-- The block that ends with the next page is not too large and no list is found
for it. With `ordered` its size is larger than the first list's and new. -/
def growSafe (ordered : Bool) (s : State) : Bool :=
  decide (grownSize s < 2 ^ 31) && notFound (findEqual L s.mem (grownSize s) (s.nodes + 1) L.sentinel) &&
    (!ordered ||
      (decide (s.mem.nodeSize (s.mem.nodeNext L.sentinel) < grownSize s) &&
        notFound (findNode L s.mem (grownSize s) (s.nodes + 1) (s.mem.nodeNext L.sentinel))))

/-- `p` holds of the state that a computation returns, if it returns one. -/
def holdsAfter (p : State → Bool) : Except Fault State → Bool
  | .ok s => p s
  | .error _ => true

/-- The branch that `sf_malloc` takes in a heap with a page is safe, and `again`
holds of the state in which it calls itself. -/
def branchSafe (ordered : Bool) (size : ℕ) (again : State → Bool) (s : State) : Bool :=
  match findFit L s.mem size (s.nodes + 1) L.sentinel with
  | .ok (some t) => takeSafe L size t s
  | .ok none =>
    decide (¬ CanGrow L s) || (growSafe L ordered s && holdsAfter again (addPage L (withPage s)))
  | .error _ => true

/-- The branches of one call of `sf_malloc` are safe, and `again` holds of the
state in which it calls itself. -/
def callSafe (ordered : Bool) (size : ℕ) (again : State → Bool) (s : State) : Bool :=
  decide (size = 0) ||
  if L.start = s.heapEnd then
    decide (CanGrow L s) && holdsAfter (branchSafe L ordered size again) (firstPage L s)
  else
    branchSafe L ordered size again s

/-- The branches that `sf_malloc` takes are safe. -/
def mallocSafe (ordered : Bool) (size : ℕ) : ℕ → State → Bool
  | 0 => fun _ => true
  | fuel + 1 => callSafe L ordered size (mallocSafe ordered size fuel)

/-- The list of free lists is not a single list of a size above `bs`. -/
def insertOrdered (m : Mem) (bs : ℕ) : Bool :=
  !(decide (m.nodeNext (m.nodeNext L.sentinel) = L.sentinel) &&
    decide (m.nodeSize (m.nodeNext L.sentinel) > bs))

/-- The block that `sf_free` lists finds its place. -/
def freeOrdered (p : ℕ) (s : State) : Bool :=
  let (final, m) := coalesce s.mem p
  insertOrdered L m (shl4 (m final).blockSize)

/-- The block that `sf_free` makes is not too large, and with `ordered` it finds its place. -/
def freeSafe (ordered : Bool) (p : ℕ) (s : State) : Bool :=
  decide (mergedSize s.mem (p - 8) < 2 ^ 31) && (!ordered || freeOrdered L p s)

/-- The tail that `sf_realloc` cuts off is not too large. -/
def shrinkFits (p size : ℕ) (s : State) : Bool :=
  let n := 16 * (s.mem (p - 8)).blockSize.toNat
  let next := s.mem (p - 8 + n)
  decide (n - blockSizeFor size < 32) || next.allocated ||
    decide (n - blockSizeFor size + 16 * next.blockSize.toNat < 2 ^ 31)

/-- The tail that `sf_realloc` cuts off finds its place. -/
def shrinkOrdered (p size : ℕ) (s : State) : Bool :=
  decide (intOf (intShl4 (s.mem (p - 8)).blockSize - splitFor size) < 32) ||
    let (final, m) := cutTail
      (s.mem.modify (p - 8) fun w => { w with requestedSize := BitVec.ofNat 32 size }) p
      (splitFor size)
    let m := m.modify (p - 8) fun w => { w with blockSize := BitVec.ofInt 28 (splitFor size / 16) }
    insertOrdered L m (shl4 (m final).blockSize)

/-- The branches that `sf_realloc` takes are safe. -/
def reallocSafe (ordered : Bool) (p size : ℕ) (s : State) : Bool :=
  if size = 0 then
    freeSafe L ordered p s
  else if (s.mem (p - 8)).requestedSize.toNat < size then
    mallocSafe L ordered size (s.pagesLeft + 1) s &&
      match sfMalloc L size s with
      | .ok (some q, s') =>
        freeSafe L ordered p
          { s' with mem := s'.mem.memcpy q p (s'.mem (p - 8)).requestedSize.toNat }
      | _ => true
  else if (s.mem (p - 8)).requestedSize.toNat > size then
    shrinkFits p size s && (!ordered || shrinkOrdered L p size s)
  else
    true

namespace Client

/-- The request stays off the faulty branches. -/
def safe (ordered : Bool) (c : Client) : Request → Bool
  | .malloc size grants => mallocSafe L ordered size (grants + 1) { c.heap with pagesLeft := grants }
  | .free p => freeSafe L ordered p c.heap
  | .realloc p size grants => reallocSafe L ordered p size { c.heap with pagesLeft := grants }
  | .write _ _ => true

/-- A step of a well-behaved client that stays off the faulty branches. -/
def SafeStep (ordered : Bool) (c : Client) (r : Request) (c' : Client) : Prop :=
  c.Step L r c' ∧ c.safe L ordered r = true

end Client

end CLanguage.Sfmm
