import CLanguage.Xacto.Session

/-!
# What reaches the store

The requests of a client against the calls of the store, for a byte stream that may
be cut anywhere (`delivered_iff`). A call is made as soon as the first packet of a
`GET` or `PUT` is there; its key and value are strings, while the buffers they are
received into hold no null byte of their own; and the value of a `PUT` without
payload is read from the buffer of its key.
-/

namespace CLanguage.Xacto

variable {env : Environment}

/-- A call of the store with the contents of the blobs it is given; the value is empty for the null
value. -/
inductive StoreCall
  | get (key : List UInt8)
  | put (key value : List UInt8)
  deriving DecidableEq

def Event.storeCall? : Event → Option StoreCall
  | .storeGet key _ => some (.get key)
  | .storePut key value _ => some (.put key value)
  | .transCommit _ => none
  | .transAbort => none
  | .send _ _ => none
  | .crash => none

/-- The call that a request asks for. -/
def Request.storeCall? : Request → Option StoreCall
  | .get _ _ key => some (.get key.bytes)
  | .put _ _ _ key value => some (.put key.bytes (value.elim [] Payload.bytes))
  | .commit _ => none

/-- The requests that are complete in the first `n` bytes of the stream. -/
def received : ℕ → List Request → List Request
  | _, [] => []
  | n, r :: rs => if r.bytes.length ≤ n then r :: received (n - r.bytes.length) rs else []

/-- The service calls the store for exactly the requests received, and does not crash. -/
def Delivered (env : Environment) (rs : List Request) (n : ℕ) : Prop :=
  (xactoClientService env ((encode rs).take n)).filterMap Event.storeCall? =
      (received n rs).filterMap Request.storeCall? ∧
    Event.crash ∉ xactoClientService env ((encode rs).take n)

instance (env : Environment) (rs : List Request) (n : ℕ) : Decidable (Delivered env rs n) :=
  instDecidableAnd

/-- A `PUT` has a value that is not empty. -/
def Request.HasValue : Request → Prop
  | .get _ _ _ => True
  | .put _ _ _ _ value => valuePayloads value ≠ []
  | .commit _ => True

/-- Each payload, received into the buffers from number `k` on, is followed by a null byte. -/
def Terminated (garbage : Garbage) : ℕ → List (List UInt8) → Prop
  | _, [] => True
  | k, p :: ps => cString (garbage k p.length) = [] ∧ Terminated garbage (k + 1) ps

/-! ## Strings -/

/-- A string goes on behind a payload without null bytes. -/
theorem cString_append {p : List UInt8} (h : 0 ∉ p) (garbage : List UInt8) :
    cString (p ++ garbage) = p ++ cString garbage := by
  apply List.takeWhile_append_of_pos
  intro b hb
  rw [decide_eq_true_iff]
  rintro rfl
  exact h hb

theorem cString_append_eq {p : List UInt8} (h : 0 ∉ p) (garbage : List UInt8) :
    cString (p ++ garbage) = p ↔ cString garbage = [] := by
  rw [cString_append h, List.append_right_eq_self]

theorem terminated_append (garbage : Garbage) (k : ℕ) (ps qs : List (List UInt8)) :
    Terminated garbage k (ps ++ qs) ↔
      Terminated garbage k ps ∧ Terminated garbage (k + ps.length) qs := by
  induction ps generalizing k with
  | nil => simp [Terminated]
  | cons p ps ih =>
    have hposition : k + 1 + ps.length = k + (ps.length + 1) := by omega
    rw [List.cons_append, Terminated, Terminated, ih, hposition, List.length_cons, and_assoc]

/-! ## Complete requests -/

/-- A complete request reaches the store as it was sent if its payloads are terminated and its value
is not empty. -/
theorem storeCall_events (r : Request) (buffers calls : ℕ) :
    (r.events env buffers calls).filterMap Event.storeCall? = r.storeCall?.toList ↔
      r.HasValue ∧ Terminated env.garbage buffers r.payloads := by
  cases r with
  | get header keyStamp key =>
    have hvalue : (valueEvent (env.status calls) (env.clock calls 1)
        (env.value calls)).storeCall? = none := by
      cases env.value calls <;> rfl
    have hcalls : ((Request.get header keyStamp key).events env buffers calls).filterMap
        Event.storeCall? = [.get (cString (keyMemory env buffers key))] := by
      show StoreCall.get _ :: List.filterMap Event.storeCall? [_] = _
      rw [List.filterMap_cons_none hvalue, List.filterMap_nil]
    rw [hcalls, Request.storeCall?, Request.HasValue, Request.payloads, Terminated, Terminated,
      and_true, true_and, Option.toList_some, List.singleton_inj, StoreCall.get.injEq, keyMemory,
      cString_append_eq key.nul_notMem]
  | put header keyStamp valueStamp key value =>
    have hcalls : ((Request.put header keyStamp valueStamp key value).events env buffers
        calls).filterMap Event.storeCall? = [.put (cString (keyMemory env buffers key))
          (cString (valueMemory env buffers key value))] := rfl
    rw [hcalls, Request.storeCall?, Request.HasValue, Request.payloads, Terminated,
      Option.toList_some, List.singleton_inj, StoreCall.put.injEq]
    -- without a payload of its own the value is the key, which is not empty
    have hstale : cString (keyMemory env buffers key) ≠ [] := by
      rw [keyMemory, cString_append key.nul_notMem]
      exact fun h => key.ne_nil (List.append_eq_nil_iff.mp h).1
    have hkey : cString (keyMemory env buffers key) = key.bytes ↔
        cString (env.garbage buffers key.bytes.length) = [] :=
      cString_append_eq key.nul_notMem _
    cases value with
    | none =>
      simp only [valueMemory, valuePayloads, Option.elim_none]
      exact ⟨fun h => absurd h.2 hstale, fun h => absurd rfl h.1⟩
    | some value =>
      by_cases hempty : value.bytes = []
      · simp only [valueMemory, valuePayloads, hempty, if_true, Option.elim_some]
        exact ⟨fun h => absurd h.2 hstale, fun h => absurd rfl h.1⟩
      · simp only [valueMemory, valuePayloads, hempty, if_false, Option.elim_some, hkey,
          cString_append_eq value.nul_notMem, Terminated, and_true, ne_eq, reduceCtorEq,
          not_false_eq_true, true_and]
  | commit header => simp [Request.events, Request.storeCall?, Request.HasValue, Request.payloads,
      Terminated, Event.storeCall?]

/-- The number of calls is always right. -/
theorem length_storeCall_events (r : Request) (buffers calls : ℕ) :
    ((r.events env buffers calls).filterMap Event.storeCall?).length =
      r.storeCall?.toList.length := by
  cases r with
  | get header keyStamp key =>
    rw [Request.events]
    cases env.value calls <;> rfl
  | put header keyStamp valueStamp key value => rfl
  | commit header => rfl

theorem length_storeCall_eventsOf (buffers calls : ℕ) (rs : List Request) :
    ((eventsOf env buffers calls rs).filterMap Event.storeCall?).length =
      (rs.filterMap Request.storeCall?).length := by
  induction rs generalizing buffers calls with
  | nil => rfl
  | cons r rs ih =>
    rw [eventsOf, List.filterMap_append, List.length_append, length_storeCall_events, ih]
    cases hcall : r.storeCall? <;> simp [hcall, Nat.add_comm]

theorem append_eq_append_iff_of_length {α : Type*} {l l' : List α} (h : l.length = l'.length)
    (m m' : List α) : l ++ m = l' ++ m' ↔ l = l' ∧ m = m' := by
  constructor
  · exact fun heq => List.append_inj heq h
  · rintro ⟨rfl, rfl⟩
    rfl

theorem storeCall_eventsOf (buffers calls : ℕ) (rs : List Request) :
    (eventsOf env buffers calls rs).filterMap Event.storeCall? =
        rs.filterMap Request.storeCall? ↔
      (∀ r ∈ rs, r.HasValue) ∧ Terminated env.garbage buffers (rs.flatMap Request.payloads) := by
  induction rs generalizing buffers calls with
  | nil => simp [eventsOf, Terminated]
  | cons r rs ih =>
    have hsplit : (r :: rs).filterMap Request.storeCall? =
        r.storeCall?.toList ++ rs.filterMap Request.storeCall? := by
      cases hcall : r.storeCall? <;> simp [hcall]
    rw [eventsOf, List.filterMap_append, hsplit, List.flatMap_cons, terminated_append,
      List.forall_mem_cons,
      append_eq_append_iff_of_length (length_storeCall_events r buffers calls),
      storeCall_events, ih, and_and_and_comm]

theorem crash_notMem_eventsOf (buffers calls : ℕ) (rs : List Request) :
    Event.crash ∉ eventsOf env buffers calls rs := by
  induction rs generalizing buffers calls with
  | nil => exact List.not_mem_nil
  | cons r rs ih =>
    rw [eventsOf, List.mem_append]
    rintro (h | h)
    · cases r with
      | get header keyStamp key =>
        rw [Request.events] at h
        cases hvalue : env.value calls <;> simp [hvalue, valueEvent] at h
      | put header keyStamp valueStamp key value => simp [Request.events] at h
      | commit header => simp [Request.events] at h
    · exact ih _ _ h

/-! ## The cut -/

/-- A `GET` calls the store or crashes, whatever is behind its first packet. -/
theorem handleGet_acts (s : Session) : Event.crash ∈ (handleGet env s).1 ∨
    (handleGet env s).1.filterMap Event.storeCall? ≠ [] := by
  rw [handleGet]
  cases (protoRecvPacket env.garbage s.conn).2.datap with
  | none => exact .inl List.mem_cons_self
  | some key => exact .inr (List.cons_ne_nil _ _)

/-- A `PUT` calls the store or crashes, whatever is behind its first packet. -/
theorem handlePut_acts (s : Session) : Event.crash ∈ (handlePut env s).1 ∨
    (handlePut env s).1.filterMap Event.storeCall? ≠ [] := by
  rw [handlePut]
  cases (protoRecvPacket env.garbage s.conn).2.datap with
  | none => exact .inl List.mem_cons_self
  | some key =>
    simp only
    cases (protoRecvPacket env.garbage (protoRecvPacket env.garbage s.conn).2).2.datap with
    | none => exact .inl List.mem_cons_self
    | some value => exact .inr (List.cons_ne_nil _ _)

/-- What a round does, the loop does. -/
theorem serve_acts {pkt : XactoPacket} {s : Session} {conn : Conn} (fuel : ℕ)
    (hrecv : protoRecvPacket env.garbage s.conn = (some pkt, conn))
    (hacts : Event.crash ∈ (handle env pkt { s with conn := conn }).1 ∨
      (handle env pkt { s with conn := conn }).1.filterMap Event.storeCall? ≠ []) :
    Event.crash ∈ serve env (fuel + 1) s ∨
      (serve env (fuel + 1) s).filterMap Event.storeCall? ≠ [] := by
  obtain ⟨tail, htail⟩ : ∃ tail, serve env (fuel + 1) s =
      (handle env pkt { s with conn := conn }).1 ++ tail := by
    rw [serve, hrecv]
    simp only
    rcases handle env pkt { s with conn := conn } with ⟨events, _ | s'⟩
    · exact ⟨[], (List.append_nil _).symm⟩
    · exact ⟨_, rfl⟩
  rw [htail, List.mem_append, List.filterMap_append]
  rcases hacts with h | h
  · exact .inl (.inl h)
  · exact .inr fun hnil => h (List.append_eq_nil_iff.mp hnil).1

/-- The first packet of a request survives a cut behind it. -/
theorem take_bare (header : Stamp) (type : UInt8) (more : List UInt8) {n : ℕ} (hn : 16 ≤ n) :
    ((header.bare type).bytes ++ more).take n =
      (header.bare type).bytes ++ more.take (n - 16) := by
  have hlength : (header.bare type).bytes.length = 16 := Sent.length_bytes _
  rw [List.take_append, hlength, List.take_of_length_le]
  rw [hlength]
  exact hn

/-- A request that is cut behind its first packet calls the store or crashes. -/
theorem serve_cut (env : Environment) (r : Request) {n : ℕ} (hn : 16 ≤ n) (hcut : n < r.bytes.length) (s : Session)
    (hinput : s.conn.input = r.bytes.take n) (fuel : ℕ) :
    Event.crash ∈ serve env (fuel + 1) s ∨
      (serve env (fuel + 1) s).filterMap Event.storeCall? ≠ [] := by
  cases r with
  | get header keyStamp key =>
    have hsplit : (Request.get header keyStamp key).bytes =
        (header.bare xactoGetPkt).bytes ++ sendAll [keyStamp.data key.toPayload] := List.flatMap_cons
    rw [hsplit, take_bare header _ _ hn] at hinput
    apply serve_acts fuel (recv_bare header xactoGetPkt s.conn hinput)
    rw [handle, if_pos rfl]
    exact handleGet_acts _
  | put header keyStamp valueStamp key value =>
    have hsplit : (Request.put header keyStamp valueStamp key value).bytes =
        (header.bare xactoPutPkt).bytes ++
          sendAll [keyStamp.data key.toPayload, valueStamp.value value] := List.flatMap_cons
    have hget : ¬ xactoPutPkt = xactoGetPkt := by decide
    rw [hsplit, take_bare header _ _ hn] at hinput
    apply serve_acts fuel (recv_bare header xactoPutPkt s.conn hinput)
    rw [handle, if_neg hget, if_pos rfl]
    exact handlePut_acts _
  | commit header =>
    -- a `COMMIT` has no second packet
    have hlength : (Request.commit header).bytes.length = 16 := by
      simp [Request.bytes, Request.packets, sendAll, Sent.length_bytes, Stamp.bare]
    omega

theorem encode_cons (r : Request) (rs : List Request) : encode (r :: rs) = r.bytes ++ encode rs :=
  List.flatMap_cons

/-- The bytes received are the complete requests and what there is of the next one. -/
theorem take_encode (rs : List Request) (n : ℕ) :
    (received n rs = rs ∧ (encode rs).take n = encode rs) ∨
      ∃ r rs', rs = received n rs ++ r :: rs' ∧
        n - (encode (received n rs)).length < r.bytes.length ∧
        (encode rs).take n =
          encode (received n rs) ++ r.bytes.take (n - (encode (received n rs)).length) := by
  induction rs generalizing n with
  | nil => exact .inl ⟨rfl, List.take_nil⟩
  | cons r rs ih =>
    rw [received]
    split
    -- the first request is there whole
    case isTrue hle =>
      have htake : (encode (r :: rs)).take n = r.bytes ++ (encode rs).take (n - r.bytes.length) := by
        rw [encode_cons, List.take_append, List.take_of_length_le hle]
      rcases ih (n - r.bytes.length) with ⟨hall, hrest⟩ | ⟨r', rs', hsplit, hcut, hrest⟩
      · left
        rw [hall, htake, hrest, encode_cons]
        exact ⟨rfl, rfl⟩
      · right
        have hlength : n - (encode (r :: received (n - r.bytes.length) rs)).length =
            n - r.bytes.length - (encode (received (n - r.bytes.length) rs)).length := by
          rw [encode_cons, List.length_append]
          omega
        refine ⟨r', rs', ?_, ?_, ?_⟩
        · rw [List.cons_append, ← hsplit]
        · rw [hlength]
          exact hcut
        · rw [hlength, htake, hrest, encode_cons, List.append_assoc]
    -- the cut is inside the first request, so nothing after it is received
    case isFalse hlt =>
      right
      have hnil : (encode []).length = 0 := rfl
      rw [hnil, Nat.sub_zero]
      refine ⟨r, rs, rfl, Nat.lt_of_not_le hlt, ?_⟩
      rw [encode_cons, List.take_append_of_le_length (Nat.le_of_not_le hlt)]
      rfl

/-- What the service does with the bytes received. -/
theorem service_take (rs : List Request) (n : ℕ) (tail : List UInt8)
    (htake : (encode rs).take n = encode (received n rs) ++ tail) :
    ∃ fuel datap buffers calls isCommit, xactoClientService env ((encode rs).take n) =
      eventsOf env 0 0 (received n rs) ++
        serve env (fuel + 1) ⟨⟨tail, buffers, datap⟩, calls, isCommit⟩ := by
  have hlength := length_le_encode (received n rs)
  obtain ⟨fuel, hfuel⟩ : ∃ fuel, ((encode rs).take n).length + 1 =
      (received n rs).length + (fuel + 1) := by
    refine ⟨((encode rs).take n).length - (received n rs).length, ?_⟩
    rw [htake, List.length_append]
    omega
  obtain ⟨datap, hserve⟩ := serve_requests (received n rs)
    ⟨.start ((encode rs).take n), 0, false⟩ htake (fuel + 1)
  rw [xactoClientService, hfuel, hserve]
  exact ⟨fuel, datap, _, _, _, rfl⟩

/-- The condition under which the store is called as the client asked: the bytes received end with a
request or inside the first packet of one, every `PUT` received has a value that is not empty, and
every payload received is followed by a null byte. -/
def Clean (garbage : Garbage) (rs : List Request) (n : ℕ) : Prop :=
  (received n rs = rs ∨ n - (encode (received n rs)).length < 16) ∧
    (∀ r ∈ received n rs, r.HasValue) ∧
    Terminated garbage 0 ((received n rs).flatMap Request.payloads)

/-- The events of the complete requests can be told from those that follow. -/
theorem delivered_split {rs : List Request} {n : ℕ} {tail : List Event}
    (hevents : xactoClientService env ((encode rs).take n) =
      eventsOf env 0 0 (received n rs) ++ tail) :
    Delivered env rs n ↔
      ((eventsOf env 0 0 (received n rs)).filterMap Event.storeCall? =
          (received n rs).filterMap Request.storeCall?) ∧
        (tail.filterMap Event.storeCall? = [] ∧ Event.crash ∉ tail) := by
  have hlength : ((eventsOf env 0 0 (received n rs)).filterMap Event.storeCall?).length =
      ((received n rs).filterMap Request.storeCall?).length := length_storeCall_eventsOf _ _ _
  have hsplit := append_eq_append_iff_of_length hlength (tail.filterMap Event.storeCall?) []
  have hcrash : Event.crash ∉ eventsOf env 0 0 (received n rs) := crash_notMem_eventsOf _ _ _
  rw [Delivered, hevents, List.mem_append, not_or,
    ← List.append_nil ((received n rs).filterMap Request.storeCall?), List.filterMap_append, hsplit,
    List.append_nil, and_assoc]
  simp only [hcrash, not_false_eq_true, true_and]

/-- The end of the input adds neither a call of the store nor a crash. -/
theorem serve_short_silent (env : Environment) (s : Session) (fuel : ℕ) (h : s.conn.input.length < 16) :
    (serve env (fuel + 1) s).filterMap Event.storeCall? = [] ∧
      Event.crash ∉ serve env (fuel + 1) s := by
  rw [serve_short s fuel h]
  split <;> simp [Event.storeCall?]

/-- The store is called for exactly the requests received, with their own keys and values, exactly
under `Clean`. -/
theorem delivered_iff (env : Environment) (rs : List Request) (n : ℕ) :
    Delivered env rs n ↔ Clean env.garbage rs n := by
  rw [Clean, ← storeCall_eventsOf 0 0]
  rcases take_encode rs n with ⟨hall, htake⟩ | ⟨r, rs', hsplit, hcut, htake⟩
  · have hbytes : (encode rs).take n = encode (received n rs) ++ [] := by
      rw [htake, hall, List.append_nil]
    obtain ⟨fuel, datap, buffers, calls, isCommit, hevents⟩ := service_take rs n _ hbytes
    have hsilent := serve_short_silent env ⟨⟨[], buffers, datap⟩, calls, isCommit⟩ fuel
      (Nat.succ_pos 15)
    rw [delivered_split hevents]
    exact ⟨fun h => ⟨.inl hall, h.1⟩, fun h => ⟨h.2, hsilent⟩⟩
  · obtain ⟨fuel, datap, buffers, calls, isCommit, hevents⟩ := service_take rs n _ htake
    rw [delivered_split hevents]
    have hmore : ¬ received n rs = rs := by
      intro hall
      have hlength := congrArg List.length hsplit
      rw [hall, List.length_append, List.length_cons] at hlength
      omega
    by_cases hshort : n - (encode (received n rs)).length < 16
    · -- the cut is inside the first packet
      have hinput : (r.bytes.take (n - (encode (received n rs)).length)).length < 16 := by
        rw [List.length_take]
        omega
      have hsilent := serve_short_silent env
        ⟨⟨r.bytes.take (n - (encode (received n rs)).length), buffers, datap⟩, calls, isCommit⟩
        fuel hinput
      exact ⟨fun h => ⟨.inr hshort, h.1⟩, fun h => ⟨h.2, hsilent⟩⟩
    · have hacts := serve_cut env r (Nat.le_of_not_lt hshort) hcut
        ⟨⟨r.bytes.take (n - (encode (received n rs)).length), buffers, datap⟩, calls, isCommit⟩ rfl
        fuel
      constructor
      · intro h
        rcases hacts with hcrash | hcall
        · exact absurd hcrash h.2.2
        · exact absurd h.2.1 hcall
      · rintro ⟨hall | hlt, -⟩
        · exact absurd hall hmore
        · exact absurd hlt hshort

/-- A `PUT` of the null value: the store is given the key as the value. -/
theorem key_as_value : ¬ Delivered (answering .pending)
    [.put blankStamp blankStamp blankStamp shortKey none] 49 := by
  decide +kernel

/-- A `GET` that is cut behind its first packet crashes the service. -/
example : Event.crash ∈ xactoClientService (answering .pending)
    ((encode [.get blankStamp blankStamp shortKey]).take 16) := by
  decide +kernel

end CLanguage.Xacto
