import CLanguage.Xacto.Protocol
import Mathlib

/-!
# Robust input and output

`rio_readn` and `rio_writen` repeat a system call until all bytes are through. What the
kernel does at each call, it decides: a call may transfer only a part of the bytes, may be
interrupted by a signal, or may fail. The list of these decisions is a parameter of the two
functions; once it is used up, the next call still waits.

As long as no call fails, `rio_readn` delivers the bytes that are due however they are split
(`Reads.done_eq`); what `rio_writen` writes is a beginning of its data, and all of it if and
only if it does not return -1 (`Writing.spec`).
-/

namespace CLanguage.Xacto

/-- What a call of `read` or `write` does. -/
inductive Transfer
  /-- at most `n + 1` bytes are transferred -/
  | bytes (n : ℕ)
  /-- 0 is returned, though there are bytes to transfer -/
  | nothing
  /-- -1 is returned with `EINTR` -/
  | interrupted
  /-- -1 is returned with another error -/
  | failed
  deriving DecidableEq

/-- The call transfers bytes, or is made again. -/
def Transfer.Steady : Transfer → Prop
  | .bytes _ | .interrupted => True
  | .nothing | .failed => False

/-- No call fails. -/
def Steady (plan : List Transfer) : Prop := ∀ t ∈ plan, t.Steady

/-- The calls that transfer bytes. -/
def Transfer.isBytes : Transfer → Bool
  | .bytes _ => true
  | .nothing | .interrupted | .failed => false

/-- How a call of `rio_readn` or `rio_writen` returns: whether not with -1, the bytes that it has
transferred, and the calls that the kernel will answer next. -/
structure Transferred where
  ok : Bool
  done : List UInt8
  plan : List Transfer

/-- One more part in front. -/
def Transferred.after (r : Transferred) (part : List UInt8) : Transferred :=
  { r with done := part ++ r.done }

/-- `rio_readn` of `n` bytes, from a descriptor that delivers `input` and then its end. -/
def rioReadn : List Transfer → ℕ → List UInt8 → Option Transferred
  | plan, 0, _ => some ⟨true, [], plan⟩
  | [], _ + 1, _ => none
  | .failed :: plan, _ + 1, _ => some ⟨false, [], plan⟩
  | .nothing :: plan, _ + 1, _ => some ⟨false, [], plan⟩
  | .interrupted :: plan, n + 1, input => rioReadn plan (n + 1) input
  | .bytes k :: plan, n + 1, input =>
    let part := input.take (min k n + 1)
    -- at the end of the input `read` returns 0
    if part = [] then some ⟨false, [], plan⟩
    else (rioReadn plan (n + 1 - part.length) (input.drop part.length)).map (·.after part)

/-- `rio_writen`, where `eintr` says whether `errno` is `EINTR`. A call that returns 0 leaves `errno`
as it is, and `rio_writen` looks at it. -/
def rioWriten : List Transfer → Bool → List UInt8 → Option (Transferred × Bool)
  | plan, eintr, [] => some (⟨true, [], plan⟩, eintr)
  | [], _, _ :: _ => none
  | .failed :: plan, _, _ :: _ => some (⟨false, [], plan⟩, false)
  | .nothing :: plan, true, byte :: data => rioWriten plan true (byte :: data)
  | .nothing :: plan, false, _ :: _ => some (⟨false, [], plan⟩, false)
  | .interrupted :: plan, _, byte :: data => rioWriten plan true (byte :: data)
  | .bytes k :: plan, eintr, byte :: data =>
    (rioWriten plan eintr (data.drop k)).map fun r => (r.1.after (byte :: data.take k), r.2)

variable {plan : List Transfer} {t : Transfer} {n k : ℕ} {input data part : List UInt8}
  {r : Transferred} {eintr eintr' : Bool}

@[simp] theorem Transferred.after_ok (r : Transferred) : (r.after part).ok = r.ok := rfl

@[simp] theorem Transferred.after_done (r : Transferred) :
    (r.after part).done = part ++ r.done := rfl

@[simp] theorem Transferred.after_plan (r : Transferred) : (r.after part).plan = r.plan := rfl

theorem Steady.tail (h : Steady (t :: plan)) : Steady plan :=
  (List.forall_mem_cons.mp h).2

theorem Steady.suffix {plan' : List Transfer} (h : Steady plan) (hsuffix : plan' <:+ plan) :
    Steady plan' := fun t ht => h t (hsuffix.subset ht)

/-! ### Reading -/

/-- How `rio_readn` returns, call by call. -/
inductive Reads : List Transfer → ℕ → List UInt8 → Transferred → Prop
  | all (plan : List Transfer) (input : List UInt8) : Reads plan 0 input ⟨true, [], plan⟩
  | fails {t : Transfer} {plan : List Transfer} {n : ℕ} {input : List UInt8} (due : n ≠ 0)
      (call : ¬ t.Steady) : Reads (t :: plan) n input ⟨false, [], plan⟩
  | ends {k : ℕ} {plan : List Transfer} {n : ℕ} (due : n ≠ 0) :
      Reads (.bytes k :: plan) n [] ⟨false, [], plan⟩
  | again {plan : List Transfer} {n : ℕ} {input : List UInt8} {r : Transferred}
      (rest : Reads plan n input r) : Reads (.interrupted :: plan) n input r
  | part {k : ℕ} {plan : List Transfer} {n : ℕ} {part input : List UInt8} {r : Transferred}
      (nonempty : part ≠ []) (fits : part.length ≤ n)
      (rest : Reads plan (n - part.length) input r) :
      Reads (.bytes k :: plan) n (part ++ input) (r.after part)

theorem reads_of_rioReadn (h : rioReadn plan n input = some r) : Reads plan n input r := by
  induction plan generalizing n input r with
  | nil =>
    cases n with
    | zero =>
      obtain rfl := Option.some.inj h
      exact .all [] input
    | succ n => cases h
  | cons t plan ih =>
    cases n with
    | zero =>
      obtain rfl := Option.some.inj h
      exact .all (t :: plan) input
    | succ n =>
      cases t with
      | failed =>
        obtain rfl := Option.some.inj h
        exact .fails n.succ_ne_zero id
      | nothing =>
        obtain rfl := Option.some.inj h
        exact .fails n.succ_ne_zero id
      | interrupted => exact .again (ih h)
      | bytes k =>
        rw [rioReadn] at h
        generalize hpart : input.take (min k n + 1) = part at h
        by_cases hnil : part = []
        · rw [if_pos hnil] at h
          obtain rfl := Option.some.inj h
          -- the call asks for a byte at least, so there is none
          obtain rfl : input = [] := by
            rw [hnil, List.take_eq_nil_iff] at hpart
            exact hpart.resolve_left (Nat.succ_ne_zero _)
          exact .ends n.succ_ne_zero
        · rw [if_neg hnil] at h
          obtain ⟨r', hrest, rfl⟩ := Option.map_eq_some_iff.mp h
          have hlength : part.length ≤ n + 1 := by
            rw [← hpart, List.length_take]
            omega
          have hinput : part ++ input.drop part.length = input := by
            have hbegin : part <+: input := hpart ▸ List.take_prefix _ _
            exact (List.prefix_iff_eq_append.mp hbegin)
          have hstep := Reads.part (k := k) hnil hlength (ih hrest)
          rwa [hinput] at hstep

/-- What `rio_readn` stores is a beginning of the input. It does not return -1 if and only if this
is as long as asked for. -/
theorem Reads.spec (h : Reads plan n input r) :
    r.done <+: input ∧ r.done.length ≤ n ∧ (r.ok = true ↔ r.done.length = n) ∧
      r.plan <:+ plan := by
  induction h with
  | all plan input => simp
  | fails due call => simpa using due.symm
  | ends due => simpa using due.symm
  | again _ ih =>
    obtain ⟨hbegin, hle, hok, hsuffix⟩ := ih
    exact ⟨hbegin, hle, hok, hsuffix.trans (List.suffix_cons _ _)⟩
  | @part k plan n part input r _ fits _ ih =>
    obtain ⟨hbegin, hle, hok, hsuffix⟩ := ih
    rw [Transferred.after_done, List.length_append, Transferred.after_ok, hok]
    refine ⟨?_, by omega, by omega, hsuffix.trans (List.suffix_cons _ _)⟩
    exact (List.prefix_append_right_inj part).mpr hbegin

/-- If no call fails, `rio_readn` returns -1 only where the input ends. -/
theorem Reads.steady (h : Reads plan n input r) (steady : Steady plan) :
    r.ok = true ∨ r.done = input ∧ input.length < n := by
  induction h with
  | all plan input => exact .inl rfl
  | fails due call => exact absurd (steady _ List.mem_cons_self) call
  | ends due => exact .inr ⟨rfl, Nat.pos_of_ne_zero due⟩
  | again _ ih => exact ih steady.tail
  | @part k plan n part input r _ fits _ ih =>
    refine (ih steady.tail).imp id fun ⟨hdone, hshort⟩ => ?_
    rw [Transferred.after_done, hdone, List.length_append]
    exact ⟨rfl, by omega⟩

/-- What is delivered if no call fails, or if `rio_readn` does not return -1: the bytes that are
due, and -1 if and only if there are less. -/
theorem Reads.done_eq (h : Reads plan n input r) (good : Steady plan ∨ r.ok = true) :
    r.done = input.take n ∧ (r.ok = true ↔ n ≤ input.length) := by
  obtain ⟨hbegin, -, hok, -⟩ := h.spec
  by_cases ok : r.ok = true
  · have hlength := hok.mp ok
    have hle := hbegin.length_le
    rw [hlength] at hle
    refine ⟨?_, iff_of_true ok hle⟩
    rw [List.prefix_iff_eq_take.mp hbegin, hlength]
  · obtain hok' | ⟨hdone, hshort⟩ := h.steady (good.resolve_right ok)
    · exact absurd hok' ok
    · rw [hdone, List.take_of_length_le hshort.le]
      exact ⟨rfl, iff_of_false ok (not_le.mpr hshort)⟩

/-- Every byte that is read takes one call at most. -/
theorem Reads.calls (h : Reads plan n input r) (ok : r.ok = true) :
    plan.countP Transfer.isBytes ≤ r.plan.countP Transfer.isBytes + n := by
  induction h with
  | all plan input => exact Nat.le_refl _
  | fails due call => cases ok
  | ends due => cases ok
  | again _ ih => exact ih ok
  | @part k plan n part input r nonempty fits _ ih =>
    have hpos := List.length_pos_iff.mpr nonempty
    have hcalls := ih ok
    rw [List.countP_cons_of_pos rfl, Transferred.after_plan]
    omega

/-- `rio_readn` returns if the kernel answers one call for each byte of the input and one more. -/
theorem exists_rioReadn (enough : input.length < plan.countP Transfer.isBytes) (n : ℕ) :
    ∃ r, rioReadn plan n input = some r := by
  induction plan generalizing n input with
  | nil => cases enough
  | cons t plan ih =>
    cases n with
    | zero => exact ⟨_, rfl⟩
    | succ n =>
      cases t with
      | failed => exact ⟨_, rfl⟩
      | nothing => exact ⟨_, rfl⟩
      | interrupted =>
        rw [List.countP_cons_of_neg (by decide)] at enough
        exact ih enough (n + 1)
      | bytes k =>
        rw [rioReadn]
        cases input with
        -- behind the input the call returns 0, which ends the loop
        | nil => exact ⟨_, rfl⟩
        | cons byte input =>
          rw [List.countP_cons_of_pos rfl, List.length_cons] at enough
          -- one byte at least is gone, and one of the calls that return bytes
          have hshorter : (input.drop (input.take (min k n)).length).length <
              plan.countP Transfer.isBytes := by
            rw [List.length_drop]
            omega
          obtain ⟨r, hrest⟩ := ih hshorter (n - (input.take (min k n)).length)
          refine ⟨r.after (byte :: input.take (min k n)), ?_⟩
          rw [List.take_succ_cons]
          rw [if_neg (List.cons_ne_nil _ _), List.length_cons, Nat.add_sub_add_right,
            List.drop_succ_cons, hrest]
          rfl

/-! ### Writing -/

/-- How `rio_writen` returns, call by call. -/
inductive Writing : List Transfer → List UInt8 → Transferred → Prop
  | all (plan : List Transfer) : Writing plan [] ⟨true, [], plan⟩
  | fails {t : Transfer} {plan : List Transfer} {data : List UInt8} (due : data ≠ [])
      (call : ¬ t.Steady) : Writing (t :: plan) data ⟨false, [], plan⟩
  | again {t : Transfer} {plan : List Transfer} {data : List UInt8} {r : Transferred}
      (call : t.isBytes = false) (rest : Writing plan data r) : Writing (t :: plan) data r
  | part {k : ℕ} {plan : List Transfer} {part data : List UInt8} {r : Transferred}
      (nonempty : part ≠ []) (rest : Writing plan data r) :
      Writing (.bytes k :: plan) (part ++ data) (r.after part)

theorem writing_of_rioWriten (h : rioWriten plan eintr data = some (r, eintr')) :
    Writing plan data r := by
  induction plan generalizing eintr data r with
  | nil =>
    cases data with
    | nil =>
      obtain ⟨rfl, -⟩ := Prod.mk.inj (Option.some.inj h)
      exact .all []
    | cons byte data => cases h
  | cons t plan ih =>
    cases data with
    | nil =>
      obtain ⟨rfl, -⟩ := Prod.mk.inj (Option.some.inj h)
      exact .all (t :: plan)
    | cons byte data =>
      cases t with
      | failed =>
        obtain ⟨rfl, -⟩ := Prod.mk.inj (Option.some.inj h)
        exact .fails (List.cons_ne_nil byte data) id
      | nothing =>
        -- `errno` may still be that of an earlier call
        cases eintr with
        | true => exact .again rfl (ih h)
        | false =>
          obtain ⟨rfl, -⟩ := Prod.mk.inj (Option.some.inj h)
          exact .fails (List.cons_ne_nil byte data) id
      | interrupted => exact .again rfl (ih h)
      | bytes k =>
        obtain ⟨⟨r', e⟩, hrest, h⟩ := Option.map_eq_some_iff.mp h
        obtain ⟨rfl, rfl⟩ := Prod.mk.inj h
        have hstep : Writing (.bytes k :: plan) (byte :: data.take k ++ data.drop k)
            (r'.after (byte :: data.take k)) := .part (List.cons_ne_nil _ _) (ih hrest)
        rwa [List.cons_append, List.take_append_drop] at hstep

/-- What `rio_writen` writes is a beginning of the data, and all of it if and only if it does not
return -1. -/
theorem Writing.spec (h : Writing plan data r) :
    r.done <+: data ∧ (r.ok = true ↔ r.done = data) ∧ r.plan <:+ plan := by
  induction h with
  | all plan => simp
  | fails due call => simpa using due.symm
  | again _ _ ih =>
    obtain ⟨hbegin, hok, hsuffix⟩ := ih
    exact ⟨hbegin, hok, hsuffix.trans (List.suffix_cons _ _)⟩
  | part _ _ ih =>
    obtain ⟨hbegin, hok, hsuffix⟩ := ih
    rw [Transferred.after_done, Transferred.after_ok, hok, List.append_cancel_left_eq]
    exact ⟨(List.prefix_append_right_inj _).mpr hbegin, Iff.rfl,
      hsuffix.trans (List.suffix_cons _ _)⟩

/-- Every byte that is written takes one call at most. -/
theorem Writing.calls (h : Writing plan data r) (ok : r.ok = true) :
    plan.countP Transfer.isBytes ≤ r.plan.countP Transfer.isBytes + data.length := by
  induction h with
  | all plan => exact Nat.le_refl _
  | fails due call => cases ok
  | again call _ ih =>
    rw [List.countP_cons_of_neg (by rw [call]; decide)]
    exact ih ok
  | @part k plan part data r nonempty _ ih =>
    have hpos := List.length_pos_iff.mpr nonempty
    have hcalls := ih ok
    rw [List.countP_cons_of_pos rfl, Transferred.after_plan, List.length_append]
    omega

/-- `rio_writen` returns if the kernel answers one call for each byte. -/
theorem exists_rioWriten (enough : data.length ≤ plan.countP Transfer.isBytes) (eintr : Bool) :
    ∃ r eintr', rioWriten plan eintr data = some (r, eintr') := by
  induction plan generalizing data eintr with
  | nil =>
    obtain rfl := List.length_eq_zero_iff.mp (Nat.le_zero.mp enough)
    exact ⟨_, _, rfl⟩
  | cons t plan ih =>
    cases data with
    | nil => exact ⟨_, _, rfl⟩
    | cons byte data =>
      cases t with
      | failed => exact ⟨_, _, rfl⟩
      | nothing =>
        rw [List.countP_cons_of_neg (by decide)] at enough
        -- after an interruption `errno` still says so, and the loop goes on
        cases eintr with
        | true => exact ih enough true
        | false => exact ⟨_, _, rfl⟩
      | interrupted =>
        rw [List.countP_cons_of_neg (by decide)] at enough
        exact ih enough true
      | bytes k =>
        rw [List.countP_cons_of_pos rfl, List.length_cons] at enough
        have hshorter : (data.drop k).length ≤ plan.countP Transfer.isBytes := by
          rw [List.length_drop]
          omega
        obtain ⟨r, eintr', hrest⟩ := ih hshorter eintr
        rw [rioWriten, hrest]
        exact ⟨_, _, rfl⟩

theorem Writing.steady (h : Writing plan data r) (steady : Steady plan) : r.ok = true := by
  induction h with
  | all plan => rfl
  | fails due call => exact absurd (steady _ List.mem_cons_self) call
  | again _ _ ih => exact ih steady.tail
  | part _ _ ih => exact ih steady.tail

end CLanguage.Xacto
