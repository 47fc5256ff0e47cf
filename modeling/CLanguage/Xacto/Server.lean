import CLanguage.Xacto.Data
import CLanguage.Xacto.Protocol

/-!
# The client service

One run of `xacto_client_service`, as the list of what it does: the calls of the
store and of the transaction manager, and the packets it sends. The store is a
library, so what it returns is part of the environment, and so are the clock and
the memory behind the payload buffers. The results of the receives inside a request
are not looked at, and `datap[0]` keeps its value where a packet has no payload.
-/

namespace CLanguage.Xacto

open Lib

/-- The status in a reply packet. -/
def TransStatus.code : TransStatus → UInt8
  | .pending => 0
  | .committed => 1
  | .aborted => 2

/-- What the service does. A null pointer passed to `strlen` ends it with a crash. -/
inductive Event
  | storeGet (key : List UInt8) (status : TransStatus)
  | storePut (key value : List UInt8) (status : TransStatus)
  | transCommit (status : TransStatus)
  | transAbort
  | send (pkt : XactoPacket) (data : List UInt8)
  | crash
  deriving DecidableEq

/-- What a run depends on besides its input: the memory behind the payload buffers, and for the
`n`-th call of the store or of `trans_commit` the status it returns, the content of the value that
`store_get` finds (`none` for a null pointer) and the clock readings after it. -/
structure Environment where
  garbage : Garbage
  status : ℕ → TransStatus
  value : ℕ → Option (List UInt8)
  clock : ℕ → ℕ → UInt32 × UInt32

/-- The state of the service between two packets. -/
structure Session where
  conn : Conn
  calls : ℕ
  isCommit : Bool

/-- A reply packet; every field of it is set. -/
def replyPacket (status : TransStatus) (time : UInt32 × UInt32) : XactoPacket :=
  ⟨xactoReplyPkt, status.code, 0, 0, time.1, time.2⟩

/-- The data packet with the value that was found. -/
def valueEvent (status : TransStatus) (time : UInt32 × UInt32) : Option (List UInt8) → Event
  | none => .send ⟨xactoDataPkt, status.code, 1, 0, time.1, time.2⟩ []
  | some content =>
    .send ⟨xactoDataPkt, status.code, 0, UInt32.ofNat (cString content).length, time.1, time.2⟩
      (cString content)

variable (env : Environment)

/-- The branch of `XACTO_GET_PKT`; `none` for a crash. -/
def handleGet (s : Session) : List Event × Option Session :=
  let conn := (protoRecvPacket env.garbage s.conn).2
  match conn.datap with
  | none => ([.crash], none)
  | some key =>
    let status := env.status s.calls
    ([.storeGet (cString key) status, .send (replyPacket status (env.clock s.calls 0)) [],
      valueEvent status (env.clock s.calls 1) (env.value s.calls)],
      some { s with conn := conn, calls := s.calls + 1 })

/-- The branch of `XACTO_PUT_PKT`; `none` for a crash. -/
def handlePut (s : Session) : List Event × Option Session :=
  let conn := (protoRecvPacket env.garbage s.conn).2
  match conn.datap with
  | none => ([.crash], none)
  | some key =>
    let conn := (protoRecvPacket env.garbage conn).2
    match conn.datap with
    | none => ([.crash], none)
    | some value =>
      let status := env.status s.calls
      ([.storePut (cString key) (cString value) status,
        .send (replyPacket status (env.clock s.calls 0)) []],
        some { s with conn := conn, calls := s.calls + 1 })

/-- The branch of `XACTO_COMMIT_PKT`. -/
def handleCommit (s : Session) : List Event × Option Session :=
  let status := env.status s.calls
  ([.transCommit status, .send (replyPacket status (env.clock s.calls 0)) []],
    some { s with calls := s.calls + 1, isCommit := true })

/-- The body of the loop; packets of other types are dropped. -/
def handle (pkt : XactoPacket) (s : Session) : List Event × Option Session :=
  if pkt.type = xactoGetPkt then handleGet env s
  else if pkt.type = xactoPutPkt then handlePut env s
  else if pkt.type = xactoCommitPkt then handleCommit env s
  else ([], some s)

/-- The loop and what follows it, at most `fuel` rounds. -/
def serve : ℕ → Session → List Event
  | 0, _ => []
  | fuel + 1, s =>
    match protoRecvPacket env.garbage s.conn with
    | (none, _) => if s.isCommit then [] else [.transAbort]
    | (some pkt, conn) =>
      match handle env pkt { s with conn := conn } with
      | (events, none) => events
      | (events, some s) => events ++ serve fuel s

/-- `xacto_client_service` on a connection that delivers the given bytes. Each round takes a packet
off them, so there are no more rounds than bytes. -/
def xactoClientService (input : List UInt8) : List Event :=
  serve env (input.length + 1) ⟨.start input, 0, false⟩

/-! ## The number of rounds -/

theorem recv_length (garbage : Garbage) (conn : Conn) :
    (protoRecvPacket garbage conn).2.input.length ≤ conn.input.length := by
  rw [protoRecvPacket]
  simp only
  split_ifs <;> simp only [List.length_drop] <;> omega

/-- A packet that is received takes bytes off the input. -/
theorem recv_length_lt {garbage : Garbage} {conn conn' : Conn} {pkt : XactoPacket}
    (h : protoRecvPacket garbage conn = (some pkt, conn')) :
    conn'.input.length < conn.input.length := by
  by_cases hshort : (conn.input.take 16).length < 16
  · rw [protoRecvPacket] at h
    simp only [hshort, if_true] at h
    exact absurd h (by simp)
  · have hrest : conn'.input.length ≤ (conn.input.drop 16).length := by
      have hconn' : conn' = (protoRecvPacket garbage conn).2 := by rw [h]
      rw [hconn', protoRecvPacket]
      simp only [hshort, if_false]
      split_ifs <;> simp only [List.length_drop] <;> omega
    rw [List.length_take] at hshort
    rw [List.length_drop] at hrest
    omega

theorem handleGet_length {s s' : Session} (h : (handleGet env s).2 = some s') :
    s'.conn.input.length ≤ s.conn.input.length := by
  rw [handleGet] at h
  simp only at h
  split at h
  · exact absurd h nofun
  · obtain rfl := Option.some.inj h
    exact recv_length env.garbage s.conn

theorem handlePut_length {s s' : Session} (h : (handlePut env s).2 = some s') :
    s'.conn.input.length ≤ s.conn.input.length := by
  have hkey := recv_length env.garbage s.conn
  have hvalue := recv_length env.garbage (protoRecvPacket env.garbage s.conn).2
  rw [handlePut] at h
  simp only at h
  split at h
  · exact absurd h nofun
  · split at h
    · exact absurd h nofun
    · obtain rfl := Option.some.inj h
      exact hvalue.trans hkey

theorem handle_length {pkt : XactoPacket} {s s' : Session}
    (h : (handle env pkt s).2 = some s') : s'.conn.input.length ≤ s.conn.input.length := by
  rw [handle] at h
  split at h
  · exact handleGet_length env h
  split at h
  · exact handlePut_length env h
  split at h
  · obtain rfl := Option.some.inj h
    exact Nat.le_refl _
  · obtain rfl := Option.some.inj h
    exact Nat.le_refl _

/-- More rounds than bytes change nothing. -/
theorem serve_fuel {fuel fuel' : ℕ} {s : Session} (h : s.conn.input.length < fuel)
    (h' : s.conn.input.length < fuel') : serve env fuel s = serve env fuel' s := by
  induction fuel generalizing fuel' s with
  | zero => exact absurd h (Nat.not_lt_zero _)
  | succ fuel ih =>
    obtain ⟨fuel', rfl⟩ : ∃ n, fuel' = n + 1 := ⟨fuel' - 1, by omega⟩
    rw [serve, serve]
    rcases hrecv : protoRecvPacket env.garbage s.conn with ⟨_ | pkt, conn⟩
    · rfl
    · have hshorter := recv_length_lt hrecv
      rcases hhandle : handle env pkt { s with conn := conn } with ⟨events, _ | s'⟩
      · simp only [hhandle]
      · have hlength : s'.conn.input.length ≤ conn.input.length :=
          handle_length env (congrArg Prod.snd hhandle)
        have hrest : serve env fuel s' = serve env fuel' s' := ih (by omega) (by omega)
        simp only [hhandle, hrest]

end CLanguage.Xacto
