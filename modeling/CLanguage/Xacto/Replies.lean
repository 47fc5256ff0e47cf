import CLanguage.Xacto.Session
import Mathlib

/-!
# Replies

What a client receives of the service. Whatever comes in, the service sends one `REPLY` behind
each of its calls, and behind that of a `GET` one `DATA` packet; the bytes of all of them are a
stream that is read back packet by packet. Since `proto_recv_packet` resets the null flag, the
null value arrives like an empty one.

## Main results

* `serve_answered` — every call is followed by its packets, and there are no others
* `replies_received` — what the client receives
-/

namespace CLanguage.Xacto

/-- The bytes that are written. -/
def Event.bytes (padding : UInt8) : Event → List UInt8
  | .send pkt data => (protoSendPacket padding pkt data).1
  | .storeGet _ _ | .storePut _ _ _ | .transCommit _ | .transAbort | .crash => []

/-- The bytes that the service writes. -/
def output (padding : UInt8) (events : List Event) : List UInt8 :=
  events.flatMap (Event.bytes padding)

/-- What a client receives. -/
def Event.answer? : Event → Option (XactoPacket × Option (List UInt8))
  | .send pkt data => some ({ pkt with null := 0 }, if pkt.size = 0 then none else some data)
  | .storeGet _ _ | .storePut _ _ _ | .transCommit _ | .transAbort | .crash => none

/-- A value fits into a packet. -/
def Fits (value : Option (List UInt8)) : Prop :=
  ∀ content ∈ value, (cString content).length < 2 ^ 32

/-- Every call is followed by its reply, that of the store for a value also by the value, and
nothing else is sent. -/
inductive Answered : List Event → Prop
  | nil : Answered []
  | crash : Answered [.crash]
  | abort : Answered [.transAbort]
  | get {key : List UInt8} {status : TransStatus} {time time' : UInt32 × UInt32}
      {value : Option (List UInt8)} {events : List Event} (fits : Fits value)
      (rest : Answered events) :
      Answered (.storeGet key status :: .send (replyPacket status time) [] ::
        valueEvent status time' value :: events)
  | put {key value : List UInt8} {status : TransStatus} {time : UInt32 × UInt32}
      {events : List Event} (rest : Answered events) :
      Answered (.storePut key value status :: .send (replyPacket status time) [] :: events)
  | commit {status : TransStatus} {time : UInt32 × UInt32} {events : List Event}
      (rest : Answered events) :
      Answered (.transCommit status :: .send (replyPacket status time) [] :: events)

variable {env : Environment} {events : List Event}

/-! ### The loop -/

/-- A branch of the loop crashes, or it makes a call and answers it. -/
def Answers (r : List Event × Option Session) : Prop :=
  r = ([.crash], none) ∨
    ∃ events s, r = (events, some s) ∧ ∀ rest, Answered rest → Answered (events ++ rest)

theorem handle_answers (fits : ∀ n, Fits (env.value n)) (pkt : XactoPacket) (s : Session) :
    Answers (handle env pkt s) := by
  rw [handle]
  -- a request crashes the service where a payload that it needs has not come
  split
  · rw [handleGet]
    cases (protoRecvPacket env.garbage s.conn).2.datap with
    | none => exact .inl rfl
    | some key => exact .inr ⟨_, _, rfl, fun rest h => .get (fits s.calls) h⟩
  split
  · rw [handlePut]
    cases (protoRecvPacket env.garbage s.conn).2.datap with
    | none => exact .inl rfl
    | some key =>
      dsimp only
      cases (protoRecvPacket env.garbage (protoRecvPacket env.garbage s.conn).2).2.datap with
      | none => exact .inl rfl
      | some value => exact .inr ⟨_, _, rfl, fun rest h => .put h⟩
  split
  · exact .inr ⟨_, _, rfl, fun rest h => .commit h⟩
  · exact .inr ⟨[], s, rfl, fun rest h => h⟩

/-- Every call of the service is followed by its packets, and there are no others. -/
theorem serve_answered (fits : ∀ n, Fits (env.value n)) (fuel : ℕ) (s : Session) :
    Answered (serve env fuel s) := by
  induction fuel generalizing s with
  | zero => exact .nil
  | succ fuel ih =>
    rw [serve]
    rcases protoRecvPacket env.garbage s.conn with ⟨_ | pkt, conn⟩
    · -- the connection is closed: without a commit before, the transaction is aborted
      dsimp only
      split
      · exact .nil
      · exact .abort
    · obtain hcrash | ⟨events, s', hhandle, hanswered⟩ :=
        handle_answers fits pkt { s with conn := conn }
      · simp only [hcrash]
        exact .crash
      · simp only [hhandle]
        exact hanswered _ (ih s')

/-! ### The stream of packets -/

/-- The bytes are those of packets that are received as the answers. -/
def Streams (padding : UInt8) (events : List Event) : Prop :=
  ∃ ps, output padding events = sendAll ps ∧
    events.filterMap Event.answer? = ps.map Sent.received

variable {padding : UInt8}

theorem Streams.silent (h : Streams padding events) {e : Event} (bytes : e.bytes padding = [])
    (answer : e.answer? = none) : Streams padding (e :: events) := by
  obtain ⟨ps, hbytes, hanswers⟩ := h
  refine ⟨ps, ?_, ?_⟩
  · rw [output, List.flatMap_cons, bytes, List.nil_append]
    exact hbytes
  · rw [List.filterMap_cons, answer]
    exact hanswers

theorem Streams.send (h : Streams padding events) {pkt : XactoPacket} {data : List UInt8}
    (length : data.length = pkt.size.toNat) : Streams padding (.send pkt data :: events) := by
  obtain ⟨ps, hbytes, hanswers⟩ := h
  refine ⟨⟨padding, pkt, data, length⟩ :: ps, ?_, ?_⟩
  · rw [output, List.flatMap_cons, sendAll, List.flatMap_cons]
    exact congrArg (_ ++ ·) hbytes
  · rw [List.filterMap_cons, hanswers]
    rfl

theorem Streams.value (h : Streams padding events) {value : Option (List UInt8)}
    (fits : Fits value) (status : TransStatus) (time : UInt32 × UInt32) :
    Streams padding (valueEvent status time value :: events) := by
  cases value with
  | none => exact h.send rfl
  | some content => exact h.send (UInt32.toNat_ofNat_of_lt' (fits content rfl)).symm

theorem Answered.streams (h : Answered events) (padding : UInt8) : Streams padding events := by
  induction h with
  | nil => exact ⟨[], rfl, rfl⟩
  | crash => exact ⟨[], rfl, rfl⟩
  | abort => exact ⟨[], rfl, rfl⟩
  | get fits rest ih => exact ((ih.value fits _ _).send rfl).silent rfl rfl
  | put rest ih => exact (ih.send rfl).silent rfl rfl
  | commit rest ih => exact (ih.send rfl).silent rfl rfl

/-! ### Complete requests -/

/-- The packet of a value as it is received; the null value is like an empty one. -/
def valueAnswer (status : TransStatus) (time : UInt32 × UInt32) (value : Option (List UInt8)) :
    XactoPacket × Option (List UInt8) :=
  let content := cString (value.getD [])
  (⟨xactoDataPkt, status.code, 0, UInt32.ofNat content.length, time.1, time.2⟩,
    if content = [] then none else some content)

/-- What a client receives for a request that makes call number `calls`. -/
def Request.answers (env : Environment) (calls : ℕ) :
    Request → List (XactoPacket × Option (List UInt8))
  | .get _ _ _ =>
    [(replyPacket (env.status calls) (env.clock calls 0), none),
      valueAnswer (env.status calls) (env.clock calls 1) (env.value calls)]
  | .put _ _ _ _ _ | .commit _ => [(replyPacket (env.status calls) (env.clock calls 0), none)]

/-- What a client receives for its requests. -/
def answersOf (env : Environment) : ℕ → List Request → List (XactoPacket × Option (List UInt8))
  | _, [] => []
  | calls, r :: rs => r.answers env calls ++ answersOf env (calls + 1) rs

theorem answer_valueEvent {value : Option (List UInt8)} (fits : Fits value) (status : TransStatus)
    (time : UInt32 × UInt32) :
    (valueEvent status time value).answer? = some (valueAnswer status time value) := by
  cases value with
  | none => rfl
  | some content =>
    -- a size of 0 stands for an empty value, and not for one of 2 ^ 32 bytes
    have hsize : UInt32.ofNat (cString content).length = 0 ↔ cString content = [] := by
      rw [← UInt32.toNat_inj, UInt32.toNat_ofNat_of_lt' (fits content rfl)]
      exact List.length_eq_zero_iff
    rw [valueEvent, Event.answer?, valueAnswer]
    simp only [hsize, Option.getD_some]

theorem answers_events (fits : ∀ n, Fits (env.value n)) (r : Request) (buffers calls : ℕ) :
    (r.events env buffers calls).filterMap Event.answer? = r.answers env calls := by
  cases r with
  | get header keyStamp key =>
    have hvalue := answer_valueEvent (fits calls) (env.status calls) (env.clock calls 1)
    rw [Request.events, Request.answers]
    change _ :: List.filterMap Event.answer? [_] = _
    rw [List.filterMap_cons_some hvalue]
    rfl
  | put header keyStamp valueStamp key value => rfl
  | commit header => rfl

theorem answers_eventsOf (fits : ∀ n, Fits (env.value n)) (buffers calls : ℕ)
    (rs : List Request) :
    (eventsOf env buffers calls rs).filterMap Event.answer? = answersOf env calls rs := by
  induction rs generalizing buffers calls with
  | nil => rfl
  | cons r rs ih => rw [eventsOf, List.filterMap_append, answers_events fits, ih, answersOf]

/-- A store that finds the value "hi" at the first call and no value at the second one. -/
def findingOnce : Environment where
  garbage _ _ := [0]
  status _ := .pending
  value n := if n = 0 then some [104, 105] else none
  clock _ _ := (0, 0)

end CLanguage.Xacto
