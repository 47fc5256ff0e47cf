import CLanguage.Sfmm.Free

/-!
# Runs of a well-behaved client

A client calls `sf_malloc`, `sf_free` and `sf_realloc` and writes into its
payloads. It passes only live pointers, asks for less than `2 ^ 31` bytes, and
writes only inside the requested bytes of a live payload. `live` records the
live pointers with their requested sizes.

A request to allocate comes with the number of pages that `sf_mem_grow` grants
during that call before it returns `NULL`.
-/

namespace CLanguage.Sfmm

/-- One request of the client, or one byte it writes. -/
inductive Request where
  | malloc (size grants : ℕ)
  | free (p : ℕ)
  | realloc (p size grants : ℕ)
  | write (a : ℕ) (v : Fin 256)
  deriving DecidableEq

/-- The heap and the live pointers with their requested sizes. -/
structure Client where
  heap : State
  live : List (ℕ × ℕ)

namespace Client

variable (L : Layout)

/-- The live pointers after `p` has been given back. -/
def drop (c : Client) (p : ℕ) : List (ℕ × ℕ) := c.live.eraseP fun e => e.1 == p

/-- Carry out a request. -/
def exec (c : Client) : Request → Except Fault Client
  | .malloc size grants => do
    let (p, s) ← sfMalloc L size { c.heap with pagesLeft := grants }
    return { heap := s, live := p.toList.map (·, size) ++ c.live }
  | .free p => do
    let s ← sfFree L p c.heap
    return { heap := s, live := c.drop p }
  | .realloc p size grants => do
    let (q, s) ← sfRealloc L p size { c.heap with pagesLeft := grants }
    match q with
    | some q => return { heap := s, live := (q, size) :: c.drop p }
    | none => return { heap := s, live := if size = 0 then c.drop p else c.live }
  | .write a v => .ok { c with heap := { c.heap with mem := c.heap.mem.setByte a v } }

/-- The requests of a well-behaved client. -/
def Allowed (c : Client) : Request → Prop
  | .malloc size _ => size < 2 ^ 31
  | .free p => ∃ e ∈ c.live, e.1 = p
  | .realloc p size _ => size < 2 ^ 31 ∧ ∃ e ∈ c.live, e.1 = p
  | .write a _ => ∃ e ∈ c.live, e.1 ≤ a ∧ a < e.1 + e.2

instance (c : Client) : DecidablePred c.Allowed := fun r => by
  cases r <;> unfold Allowed <;> infer_instance

/-- The client before its first request; the memory outside the heap is arbitrary. -/
def initial (m : Mem) : Client := ⟨sfMemInit L m, []⟩

/-- One step of a well-behaved client. -/
def Step (c : Client) (r : Request) (c' : Client) : Prop := c.Allowed r ∧ c.exec L r = .ok c'

/-- The successor of a well-behaved client, if the request is one of its own and returns. -/
def next (c : Client) (r : Request) : Option Client :=
  if c.Allowed r then (c.exec L r).toOption else none

theorem step_of_next {c : Client} {r : Request} {c' : Client} (h : c.next L r = some c') :
    c.Step L r c' := by
  unfold next at h
  split at h
  · next allowed =>
    refine ⟨allowed, ?_⟩
    cases hexec : c.exec L r with
    | error e => simp [hexec, Except.toOption] at h
    | ok c'' =>
      obtain rfl : c'' = c' := by simpa [hexec, Except.toOption] using h
      rfl
  · exact absurd h (by simp)

end Client

end CLanguage.Sfmm
