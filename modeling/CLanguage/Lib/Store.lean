import CLanguage.Lib.Run
import Mathlib.Data.List.Basic

/-!
# A store of buffers

What a program that hands out memory is for, without saying where the memory comes
from: a collection of buffers, each at an address, with cells that hold the value put
there last. A new buffer goes where the predicate `place` allows and no other buffer
lies, and its cells are unknown. Changing the size of a buffer may move it, and keeps
the cells that fit.
-/

namespace CLanguage.Lib

/-- A buffer: its address, and what is known of its cells. -/
structure Buffer (β : Type*) where
  addr : ℕ
  cells : List (Option β)

/-- The collection of the live buffers. -/
abbrev Store (β : Type*) := List (Buffer β)

/-- The operations of a store. -/
inductive Store.Op (β : Type*) where
  | alloc (n : ℕ)
  | free (p : ℕ)
  | resize (p n : ℕ)
  | put (a : ℕ) (v : β)

variable {β : Type*} {place : ℕ → ℕ → Prop} {σ σ' : Store β} {b b' : Buffer β}
  {op : Store.Op β} {ops : List (Store.Op β)} {p q n a i : ℕ} {v w : β}

/-! ## Buffers -/

namespace Buffer

/-- The address and the number of cells. -/
def extent (b : Buffer β) : ℕ × ℕ := (b.addr, b.cells.length)

/-- A buffer of unknown cells. -/
def new (p n : ℕ) : Buffer β := ⟨p, List.replicate n none⟩

/-- The buffer with `n` cells, moved to `q`. -/
def resized (b : Buffer β) (q n : ℕ) : Buffer β :=
  ⟨q, b.cells.take n ++ List.replicate (n - b.cells.length) none⟩

/-- Put `v` at address `a`, if that is a cell of the buffer. -/
def put (b : Buffer β) (a : ℕ) (v : β) : Buffer β :=
  ⟨b.addr, if b.addr ≤ a then b.cells.set (a - b.addr) (some v) else b.cells⟩

/-- Cell `i` is known to hold `v`. -/
def Holds (b : Buffer β) (i : ℕ) (v : β) : Prop := b.cells[i]? = some (some v)

theorem Holds.lt (h : b.Holds i v) : i < b.cells.length := (List.getElem?_eq_some_iff.mp h).1

@[simp] theorem extent_new : (new p n : Buffer β).extent = (p, n) := by simp [extent, new]

@[simp] theorem extent_resized : (b.resized q n).extent = (q, n) := by
  simp only [extent, resized, List.length_append, List.length_take, List.length_replicate,
    Prod.mk.injEq, true_and]
  omega

@[simp] theorem extent_put : (b.put a v).extent = b.extent := by
  rw [extent, extent, put]
  split_ifs <;> simp

theorem not_holds_new : ¬ (new p n : Buffer β).Holds i v := by
  rw [Holds, new, List.getElem?_replicate]
  split_ifs <;> simp

theorem holds_resized (h : (b.resized q n).Holds i v) : i < min b.cells.length n ∧ b.Holds i v := by
  rw [Holds, resized, List.getElem?_append] at h
  split_ifs at h with hi
  · rw [List.length_take, Nat.lt_min] at hi
    rw [List.getElem?_take_of_lt hi.1] at h
    exact ⟨Nat.lt_min.mpr hi.symm, h⟩
  · rw [List.getElem?_replicate] at h
    split_ifs at h
    simp at h

/-- What a buffer holds after `v` was put at `a`. -/
theorem holds_put (hw : (b.put a v).Holds i w) : b.addr + i = a ∧ w = v ∨
    b.addr + i ≠ a ∧ b.Holds i w := by
  have hi : i < b.cells.length := by
    have hlt := hw.lt
    rwa [show (b.put a v).cells.length = b.cells.length from congrArg Prod.snd extent_put] at hlt
  rw [Holds, put] at hw
  split_ifs at hw with hle
  · by_cases heq : a - b.addr = i
    · rw [heq, List.getElem?_set_self hi] at hw
      exact Or.inl ⟨by omega, (Option.some.inj (Option.some.inj hw)).symm⟩
    · rw [List.getElem?_set_ne heq] at hw
      exact Or.inr ⟨by omega, hw⟩
  · exact Or.inr ⟨by omega, hw⟩

/-- A cell at another address keeps its value. -/
theorem Holds.put (h : b.Holds i w) (other : b.addr + i ≠ a) : (b.put a v).Holds i w := by
  rw [Holds, Buffer.put]
  split_ifs
  · rw [List.getElem?_set_ne (by omega)]
    exact h
  · exact h

end Buffer

/-! ## Stores -/

namespace Store

/-- The store without the buffer at `p`. -/
def drop (σ : Store β) (p : ℕ) : Store β := σ.eraseP fun b => b.addr == p

/-- `σ.drop p` shortens `σ`. -/
theorem mem_of_mem_drop (hb : b ∈ σ.drop p) : b ∈ σ := List.mem_of_mem_eraseP hb

theorem mem_drop_of_ne (hb : b ∈ σ) (other : b.addr ≠ p) : b ∈ σ.drop p :=
  (List.mem_eraseP_of_neg (by simpa using other)).mpr hb

/-- There is room for `n` cells at `p`. -/
def Fresh (place : ℕ → ℕ → Prop) (σ : Store β) (p n : ℕ) : Prop :=
  place p n ∧ ∀ b ∈ σ, p + n ≤ b.addr ∨ b.addr + b.cells.length ≤ p

/-- One operation. An allocation can be refused, and so can a buffer be refused more cells. -/
inductive Step (place : ℕ → ℕ → Prop) : Store β → Op β → Store β → Prop
  | refuse {σ : Store β} {n : ℕ} : Step place σ (.alloc n) σ
  | alloc {σ : Store β} {p n : ℕ} (fresh : Fresh place σ p n) :
      Step place σ (.alloc n) (.new p n :: σ)
  | free {σ : Store β} {b : Buffer β} (hb : b ∈ σ) : Step place σ (.free b.addr) (σ.drop b.addr)
  | release {σ : Store β} {b : Buffer β} (hb : b ∈ σ) :
      Step place σ (.resize b.addr 0) (σ.drop b.addr)
  | keep {σ : Store β} {b : Buffer β} {n : ℕ} (hb : b ∈ σ) (more : b.cells.length < n) :
      Step place σ (.resize b.addr n) σ
  | resize {σ : Store β} {b : Buffer β} {q n : ℕ} (hb : b ∈ σ)
      (fresh : Fresh place (σ.drop b.addr) q n) (stay : n ≤ b.cells.length → q = b.addr) :
      Step place σ (.resize b.addr n) (b.resized q n :: σ.drop b.addr)
  | put {σ : Store β} {b : Buffer β} {a : ℕ} {v : β} (hb : b ∈ σ) (lo : b.addr ≤ a)
      (hi : a < b.addr + b.cells.length) : Step place σ (.put a v) (σ.map (·.put a v))

/-- The operation frees the buffer at `p` or changes its size. -/
def Op.Moves (p : ℕ) : Op β → Prop
  | .free q => q = p
  | .resize q _ => q = p
  | _ => False

/-- The operation puts a value at `a`. -/
def Op.Puts (a : ℕ) : Op β → Prop
  | .put a' _ => a' = a
  | _ => False

/-- A buffer that an operation does not name stays, with the cells that it does not put. -/
theorem Step.holds (step : Step place σ op σ') (hb : b ∈ σ) (held : b.Holds i v)
    (still : ¬ op.Moves b.addr) (kept : ¬ op.Puts (b.addr + i)) :
    ∃ b' ∈ σ', b'.extent = b.extent ∧ b'.Holds i v := by
  cases step with
  | refuse => exact ⟨b, hb, rfl, held⟩
  | alloc => exact ⟨b, List.mem_cons_of_mem _ hb, rfl, held⟩
  | free => exact ⟨b, mem_drop_of_ne hb fun h => still h.symm, rfl, held⟩
  | release => exact ⟨b, mem_drop_of_ne hb fun h => still h.symm, rfl, held⟩
  | keep => exact ⟨b, hb, rfl, held⟩
  | resize =>
    exact ⟨b, List.mem_cons_of_mem _ (mem_drop_of_ne hb fun h => still h.symm), rfl, held⟩
  | put =>
    exact ⟨_, List.mem_map_of_mem hb, Buffer.extent_put, held.put fun h => kept h.symm⟩

/-- Over a run, a cell that no operation touches keeps its value. -/
theorem holds_of_run (run : Run (Step place) σ ops σ') (hb : b ∈ σ) (held : b.Holds i v)
    (still : ∀ op ∈ ops, ¬ op.Moves b.addr) (kept : ∀ op ∈ ops, ¬ op.Puts (b.addr + i)) :
    ∃ b' ∈ σ', b'.extent = b.extent ∧ b'.Holds i v := by
  induction run generalizing b with
  | nil => exact ⟨b, hb, rfl, held⟩
  | cons first _ ih =>
    obtain ⟨hstill, hstills⟩ := List.forall_mem_cons.mp still
    obtain ⟨hkept, hkepts⟩ := List.forall_mem_cons.mp kept
    obtain ⟨b₁, hb₁, hextent, hheld⟩ := first.holds hb held hstill hkept
    have haddr : b₁.addr = b.addr := congrArg Prod.fst hextent
    obtain ⟨b', hb', hextent', hheld'⟩ := ih hb₁ hheld (haddr ▸ hstills) (haddr ▸ hkepts)
    exact ⟨b', hb', hextent'.trans hextent, hheld'⟩

end Store

end CLanguage.Lib
