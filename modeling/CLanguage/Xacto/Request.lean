import CLanguage.Xacto.Server

/-!
# Requests

What the service does with requests that arrive complete (`serve_requests`). Each
request makes one call; its key is what `strlen` sees of the payload buffer, and
the value of a `PUT` without payload is whatever `datap[0]` points to.
-/

namespace CLanguage.Xacto

open Lib

/-- A byte string without null bytes that fits into a packet. -/
structure Payload where
  bytes : List UInt8
  nul_notMem : 0 ∉ bytes
  length_lt : bytes.length < 2 ^ 32

/-- A key is not empty. -/
structure KeyPayload extends Payload where
  ne_nil : bytes ≠ []

/-- The fields of a packet that the sender may fill as it likes. -/
structure Stamp where
  padding : UInt8
  status : UInt8
  null : UInt8
  sec : UInt32
  nsec : UInt32

/-- A packet without payload. -/
def Stamp.bare (s : Stamp) (type : UInt8) : Sent :=
  ⟨s.padding, ⟨type, s.status, s.null, 0, s.sec, s.nsec⟩, [], rfl⟩

/-- A data packet. -/
def Stamp.data (s : Stamp) (p : Payload) : Sent :=
  ⟨s.padding, ⟨xactoDataPkt, s.status, s.null, UInt32.ofNat p.bytes.length, s.sec, s.nsec⟩, p.bytes,
    (UInt32.toNat_ofNat_of_lt' p.length_lt).symm⟩

/-- The packet of a value; the null value has no payload. -/
def Stamp.value (s : Stamp) : Option Payload → Sent
  | none => s.bare xactoDataPkt
  | some value => s.data value

/-- A request of a client, with the stamps of its packets; the value `none` is the null value. -/
inductive Request
  | get (header keyStamp : Stamp) (key : KeyPayload)
  | put (header keyStamp valueStamp : Stamp) (key : KeyPayload) (value : Option Payload)
  | commit (header : Stamp)

/-- The packets of a request. -/
def Request.packets : Request → List Sent
  | .get header keyStamp key => [header.bare xactoGetPkt, keyStamp.data key.toPayload]
  | .put header keyStamp valueStamp key value =>
    [header.bare xactoPutPkt, keyStamp.data key.toPayload, valueStamp.value value]
  | .commit header => [header.bare xactoCommitPkt]

def Request.bytes (r : Request) : List UInt8 := sendAll r.packets

/-- The byte stream of a list of requests. -/
def encode (rs : List Request) : List UInt8 := rs.flatMap Request.bytes

/-- The payload of a value, unless it is empty. -/
def valuePayloads : Option Payload → List (List UInt8)
  | none => []
  | some value => if value.bytes = [] then [] else [value.bytes]

/-- The payloads of a request, each of which is received into a buffer of its own. -/
def Request.payloads : Request → List (List UInt8)
  | .get _ _ key => [key.bytes]
  | .put _ _ _ key value => key.bytes :: valuePayloads value
  | .commit _ => []

variable (env : Environment)

/-- What `datap[0]` points to when the key is there in the buffer with the given number. -/
def keyMemory (buffers : ℕ) (key : KeyPayload) : List UInt8 :=
  key.bytes ++ env.garbage buffers key.bytes.length

/-- What `datap[0]` points to when the value was received behind it: still the key where the value
has no payload. -/
def valueMemory (buffers : ℕ) (key : KeyPayload) : Option Payload → List UInt8
  | none => keyMemory env buffers key
  | some value =>
    if value.bytes = [] then keyMemory env buffers key
    else value.bytes ++ env.garbage (buffers + 1) value.bytes.length

/-- What the service does for a complete request that arrives after `buffers` payloads and `calls`
calls. -/
def Request.events (buffers calls : ℕ) : Request → List Event
  | .get _ _ key =>
    [.storeGet (cString (keyMemory env buffers key)) (env.status calls),
      .send (replyPacket (env.status calls) (env.clock calls 0)) [],
      valueEvent (env.status calls) (env.clock calls 1) (env.value calls)]
  | .put _ _ _ key value =>
    [.storePut (cString (keyMemory env buffers key)) (cString (valueMemory env buffers key value))
        (env.status calls),
      .send (replyPacket (env.status calls) (env.clock calls 0)) []]
  | .commit _ =>
    [.transCommit (env.status calls), .send (replyPacket (env.status calls) (env.clock calls 0)) []]

def Request.isCommit : Request → Bool
  | .get _ _ _ => false
  | .put _ _ _ _ _ => false
  | .commit _ => true

/-- What the service does for complete requests. -/
def eventsOf : ℕ → ℕ → List Request → List Event
  | _, _, [] => []
  | buffers, calls, r :: rs =>
    r.events env buffers calls ++ eventsOf (buffers + r.payloads.length) (calls + 1) rs

/-! ## Single packets -/

variable {env}

theorem data_size_ne_zero (s : Stamp) {p : Payload} (h : p.bytes ≠ []) : (s.data p).pkt.size ≠ 0 := by
  intro hzero
  have hlength := (s.data p).length_payload
  rw [hzero] at hlength
  exact h (List.length_eq_zero_iff.mp hlength)

/-- A packet without payload leaves `datap[0]` as it was. -/
theorem recv_bare (s : Stamp) (type : UInt8) (conn : Conn) {rest : List UInt8}
    (hinput : conn.input = (s.bare type).bytes ++ rest) :
    protoRecvPacket env.garbage conn =
      (some ⟨type, s.status, 0, 0, s.sec, s.nsec⟩, { conn with input := rest }) := by
  rw [recv_send (s.bare type) conn hinput, Conn.after, if_pos]
  · rfl
  · rfl

/-- A data packet that is not empty puts its payload behind `datap[0]`. -/
theorem recv_data (s : Stamp) {p : Payload} (hne : p.bytes ≠ []) (conn : Conn) {rest : List UInt8}
    (hinput : conn.input = (s.data p).bytes ++ rest) :
    (protoRecvPacket env.garbage conn).2 =
      ⟨rest, conn.buffers + 1, some (p.bytes ++ env.garbage conn.buffers p.bytes.length)⟩ := by
  rw [recv_send (s.data p) conn hinput, Conn.after, if_neg (data_size_ne_zero s hne)]
  rfl

theorem recv_empty (s : Stamp) {p : Payload} (hempty : p.bytes = []) (conn : Conn)
    {rest : List UInt8} (hinput : conn.input = (s.data p).bytes ++ rest) :
    (protoRecvPacket env.garbage conn).2 = { conn with input := rest } := by
  have hsize : (s.data p).pkt.size = 0 := by
    rw [Stamp.data]
    simp [hempty]
  rw [recv_send (s.data p) conn hinput, Conn.after, if_pos hsize]

theorem recv_key (s : Stamp) (buffers : ℕ) (key : KeyPayload) (datap : Option (List UInt8))
    {rest : List UInt8} :
    (protoRecvPacket env.garbage ⟨(s.data key.toPayload).bytes ++ rest, buffers, datap⟩).2 =
      ⟨rest, buffers + 1, some (keyMemory env buffers key)⟩ :=
  recv_data s key.ne_nil _ rfl

/-- The value behind a key. -/
theorem recv_value (s : Stamp) (buffers : ℕ) (key : KeyPayload) (value : Option Payload)
    {rest : List UInt8} :
    (protoRecvPacket env.garbage
      ⟨(s.value value).bytes ++ rest, buffers + 1, some (keyMemory env buffers key)⟩).2 =
      ⟨rest, buffers + 1 + (valuePayloads value).length,
        some (valueMemory env buffers key value)⟩ := by
  cases value with
  | none => rw [Stamp.value, recv_bare s xactoDataPkt _ rfl]; rfl
  | some value =>
    rw [Stamp.value, valuePayloads, valueMemory]
    by_cases hempty : value.bytes = []
    · rw [recv_empty s hempty _ rfl, if_pos hempty, if_pos hempty]
      rfl
    · rw [recv_data s hempty _ rfl, if_neg hempty, if_neg hempty]
      rfl

/-- Behind the last complete packet the loop ends. -/
theorem serve_short (s : Session) (fuel : ℕ) (h : s.conn.input.length < 16) :
    serve env (fuel + 1) s = if s.isCommit then [] else [.transAbort] := by
  have hshort : (s.conn.input.take 16).length < 16 := by
    rw [List.length_take]
    omega
  rw [serve, protoRecvPacket]
  simp only [hshort, if_true]

/-! ## Whole requests -/

/-- The loop on a complete `GET`. -/
theorem serve_get (header keyStamp : Stamp) (key : KeyPayload) (s : Session) {rest : List UInt8}
    (hinput : s.conn.input = (Request.get header keyStamp key).bytes ++ rest) (fuel : ℕ) :
    serve env (fuel + 1) s =
      (Request.get header keyStamp key).events env s.conn.buffers s.calls ++
        serve env fuel ⟨⟨rest, s.conn.buffers + 1, some (keyMemory env s.conn.buffers key)⟩,
          s.calls + 1, s.isCommit⟩ := by
  have hfirst : s.conn.input = (header.bare xactoGetPkt).bytes ++
      ((keyStamp.data key.toPayload).bytes ++ rest) := by
    rw [hinput, Request.bytes, Request.packets]
    simp [sendAll]
  rw [serve, recv_bare header xactoGetPkt s.conn hfirst]
  simp only [handle, if_true, handleGet, recv_key]
  rfl

/-- The loop on a complete `PUT`. -/
theorem serve_put (header keyStamp valueStamp : Stamp) (key : KeyPayload) (value : Option Payload)
    (s : Session) {rest : List UInt8}
    (hinput : s.conn.input = (Request.put header keyStamp valueStamp key value).bytes ++ rest)
    (fuel : ℕ) :
    serve env (fuel + 1) s =
      (Request.put header keyStamp valueStamp key value).events env s.conn.buffers s.calls ++
        serve env fuel ⟨⟨rest, s.conn.buffers + 1 + (valuePayloads value).length,
          some (valueMemory env s.conn.buffers key value)⟩, s.calls + 1, s.isCommit⟩ := by
  have hfirst : s.conn.input = (header.bare xactoPutPkt).bytes ++
      ((keyStamp.data key.toPayload).bytes ++ ((valueStamp.value value).bytes ++ rest)) := by
    rw [hinput, Request.bytes, Request.packets]
    simp [sendAll]
  have htype : ¬ xactoPutPkt = xactoGetPkt := by decide
  rw [serve, recv_bare header xactoPutPkt s.conn hfirst]
  simp only [handle, if_true, htype, if_false, handlePut, recv_key, recv_value]
  rfl

/-- The loop on a `COMMIT`. -/
theorem serve_commit (header : Stamp) (s : Session) {rest : List UInt8}
    (hinput : s.conn.input = (Request.commit header).bytes ++ rest) (fuel : ℕ) :
    serve env (fuel + 1) s =
      (Request.commit header).events env s.conn.buffers s.calls ++
        serve env fuel ⟨{ s.conn with input := rest }, s.calls + 1, true⟩ := by
  have hfirst : s.conn.input = (header.bare xactoCommitPkt).bytes ++ rest := by
    rw [hinput, Request.bytes, Request.packets]
    simp [sendAll]
  have hget : ¬ xactoCommitPkt = xactoGetPkt := by decide
  have hput : ¬ xactoCommitPkt = xactoPutPkt := by decide
  rw [serve, recv_bare header xactoCommitPkt s.conn hfirst]
  simp only [handle, if_true, hget, hput, if_false, handleCommit]
  rfl

/-- The loop on a complete request of any kind. -/
theorem serve_request (r : Request) (s : Session) {rest : List UInt8}
    (hinput : s.conn.input = r.bytes ++ rest) (fuel : ℕ) :
    ∃ datap, serve env (fuel + 1) s = r.events env s.conn.buffers s.calls ++
      serve env fuel ⟨⟨rest, s.conn.buffers + r.payloads.length, datap⟩, s.calls + 1,
        s.isCommit || r.isCommit⟩ := by
  cases r with
  | get header keyStamp key =>
    refine ⟨some (keyMemory env s.conn.buffers key), ?_⟩
    rw [serve_get header keyStamp key s hinput fuel, Request.isCommit, Bool.or_false]
    rfl
  | put header keyStamp valueStamp key value =>
    refine ⟨some (valueMemory env s.conn.buffers key value), ?_⟩
    rw [serve_put header keyStamp valueStamp key value s hinput fuel, Request.isCommit,
      Bool.or_false, Request.payloads, List.length_cons, Nat.add_assoc, Nat.add_comm 1]
  | commit header =>
    refine ⟨s.conn.datap, ?_⟩
    rw [serve_commit header s hinput fuel, Request.isCommit, Bool.or_true]
    rfl

/-- The loop on complete requests, one round for each. -/
theorem serve_requests (rs : List Request) (s : Session) {rest : List UInt8}
    (hinput : s.conn.input = encode rs ++ rest) (fuel : ℕ) :
    ∃ datap, serve env (rs.length + fuel) s = eventsOf env s.conn.buffers s.calls rs ++
      serve env fuel ⟨⟨rest, s.conn.buffers + (rs.flatMap Request.payloads).length, datap⟩,
        s.calls + rs.length, s.isCommit || rs.any Request.isCommit⟩ := by
  induction rs generalizing s with
  | nil =>
    obtain ⟨⟨input, buffers, datap⟩, calls, isCommit⟩ := s
    refine ⟨datap, ?_⟩
    rw [show input = rest from hinput]
    simp [eventsOf]
  | cons r rs ih =>
    have hhead : s.conn.input = r.bytes ++ (encode rs ++ rest) := by
      rw [hinput, encode, List.flatMap_cons, List.append_assoc]
      rfl
    have hfuel : (r :: rs).length + fuel = rs.length + fuel + 1 := by
      rw [List.length_cons]
      omega
    -- one round for the first request, the rest from the state after it
    obtain ⟨datap, hstep⟩ := serve_request r s hhead (rs.length + fuel)
    obtain ⟨datap', hrest⟩ := ih ⟨⟨encode rs ++ rest, s.conn.buffers + r.payloads.length, datap⟩,
      s.calls + 1, s.isCommit || r.isCommit⟩ rfl
    refine ⟨datap', ?_⟩
    rw [hfuel, hstep, hrest, eventsOf, List.append_assoc]
    simp only [List.flatMap_cons, List.length_append, List.length_cons, List.any_cons,
      Bool.or_assoc, Nat.add_assoc, Nat.add_comm 1]

end CLanguage.Xacto
