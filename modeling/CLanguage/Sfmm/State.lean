import CLanguage.Sfmm.Memory

/-!
# The heap, the list nodes and the library object

`sfutil.o` supplies the heap region and the nodes of the "list of free lists".
A `Layout` says where the operating system put them: the heap grows upward
from `start` inside `[start, top)`, node `0` is the static sentinel
`sf_free_list_head`, and the other nodes come from the C library.

`sfMemGrow` appends a zero-filled page or refuses. Refusing is the
environment's choice: `pagesLeft` counts the pages it grants before it returns
`NULL`, and a run sets it anew before each request. `growCalls` counts the
calls, granted or not.
-/

namespace CLanguage.Sfmm

/-- `PAGE_SZ`. -/
def pageSz : ℕ := 4096

theorem pageSz_eq : pageSz = 4096 := rfl

/-- How a call can fail to return. -/
inductive Fault where
  /-- The call ran `abort()`. -/
  | abort
  /-- The C library had no room for another list node. -/
  | noNode
  /-- A loop over the list of free lists never ends. -/
  | diverge
  deriving DecidableEq, Repr

/-- Where the heap and the list nodes lie in the address space. -/
structure Layout where
  start : ℕ
  top : ℕ
  node : ℕ → ℕ
  maxNodes : ℕ
  start_pos : 0 < start
  start_aligned : start % 16 = 0
  start_le_top : start ≤ top
  top_le : top ≤ 2 ^ 64
  node_pos : ∀ i < maxNodes, 0 < node i
  node_le : ∀ i < maxNodes, node i + 48 ≤ 2 ^ 64
  node_outside : ∀ i < maxNodes, node i + 48 ≤ start ∨ top ≤ node i
  node_apart : ∀ i < maxNodes, ∀ j < maxNodes, i ≠ j →
    node i + 48 ≤ node j ∨ node j + 48 ≤ node i
  sentinel_exists : 0 < maxNodes

/-- `&sf_free_list_head`. -/
abbrev Layout.sentinel (L : Layout) : ℕ := L.node 0

/-- The memory, `sf_mem_end()`, the list nodes in use (the sentinel included),
the pages that `sf_mem_grow` still grants and the calls made to it. -/
structure State where
  mem : Mem
  heapEnd : ℕ
  nodes : ℕ
  pagesLeft : ℕ
  growCalls : ℕ

namespace Mem

/-! ## Fields

An `sf_header` at `h` holds its `sf_block_info` at `h` and its links after it.
An `sf_free_list_node` at `t` holds `size`, the dummy header `head`, `next` and
`prev`. -/

variable (m : Mem)

/-- Change the `sf_block_info` at `a`. -/
def modify (a : ℕ) (f : Word → Word) : Mem := m.write a (f (m a))

@[simp] theorem modify_self (a : ℕ) (f : Word → Word) : m.modify a f a = f (m a) :=
  write_self m a _

theorem modify_of_ne (a b : ℕ) (f : Word → Word) (h : b ≠ a) : m.modify a f b = m b :=
  write_of_ne m a b _ h

theorem ptr_modify_of_ne (a b : ℕ) (f : Word → Word) (h : b ≠ a) :
    (m.modify a f).ptr b = m.ptr b := ptr_write_of_ne m a b _ h

/-- `h->links.next`. -/
abbrev linksNext (h : ℕ) : ℕ := m.ptr (h + 8)
/-- `h->links.prev`. -/
abbrev linksPrev (h : ℕ) : ℕ := m.ptr (h + 16)
/-- `t->size`. -/
abbrev nodeSize (t : ℕ) : ℕ := m.ptr t
/-- `t->next`. -/
abbrev nodeNext (t : ℕ) : ℕ := m.ptr (t + 32)
/-- `t->prev`. -/
abbrev nodePrev (t : ℕ) : ℕ := m.ptr (t + 40)

/-- `h->links.next = p`. -/
abbrev setLinksNext (h p : ℕ) : Mem := m.setPtr (h + 8) p
/-- `h->links.prev = p`. -/
abbrev setLinksPrev (h p : ℕ) : Mem := m.setPtr (h + 16) p
/-- `t->next = p`. -/
abbrev setNodeNext (t p : ℕ) : Mem := m.setPtr (t + 32) p
/-- `t->prev = p`. -/
abbrev setNodePrev (t p : ℕ) : Mem := m.setPtr (t + 40) p

/-- Unlink a block: its neighbours' links skip it. -/
def unlink (h : ℕ) : Mem :=
  let m := m.setLinksPrev (m.linksNext h) (m.linksPrev h)
  m.setLinksNext (m.linksPrev h) (m.linksNext h)

end Mem

/-- `&t->head`. -/
abbrev nodeHead (t : ℕ) : ℕ := t + 8

theorem nodeHead_eq (t : ℕ) : nodeHead t = t + 8 := rfl

variable (L : Layout)

/-- `sf_mem_grow`: a zero-filled page at the end of the heap, or `NULL`. -/
def sfMemGrow (s : State) : Bool × State :=
  if 0 < s.pagesLeft ∧ s.heapEnd + pageSz ≤ L.top then
    (true, { s with
      mem := ⟨fun a => if s.heapEnd ≤ a ∧ a < s.heapEnd + pageSz then Word.ofNat 0 else s.mem a⟩
      heapEnd := s.heapEnd + pageSz
      pagesLeft := s.pagesLeft - 1
      growCalls := s.growCalls + 1 })
  else
    (false, { s with growCalls := s.growCalls + 1 })

/-- `sf_add_free_list(size, next)`: a node with an empty list, placed before `next`. -/
def sfAddFreeList (size next : ℕ) (s : State) : Except Fault (ℕ × State) :=
  if s.nodes < L.maxNodes then
    let t := L.node s.nodes
    let m := s.mem.setPtr t size
    let m := m.setLinksPrev (nodeHead t) (nodeHead t)
    let m := m.setLinksNext (nodeHead t) (m.linksPrev (nodeHead t))
    let m := m.setNodeNext t next
    let m := m.setNodePrev t (m.nodePrev next)
    let m := m.setNodeNext (m.nodePrev t) t
    let m := m.setNodePrev next t
    .ok (t, { s with mem := m, nodes := s.nodes + 1 })
  else
    .error .noNode

/-- The heap that `sf_mem_init` leaves: no page, and an empty list of lists. -/
def sfMemInit (m : Mem) : State where
  mem := ((m.setPtr L.sentinel 0).setNodePrev L.sentinel L.sentinel).setNodeNext
    L.sentinel L.sentinel
  heapEnd := L.start
  nodes := 1
  pagesLeft := 0
  growCalls := 0

end CLanguage.Sfmm
