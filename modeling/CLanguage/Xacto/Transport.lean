import CLanguage.Xacto.Rio
import CLanguage.Xacto.Server
import Mathlib

/-!
# Packets over system calls

`proto_send_packet` and `proto_recv_packet` as they are written, with `rio_writen` and
`rio_readn` for each part of a packet. A receive that succeeds has the effect of the one that
takes a packet off its input at once (`recvOver_eq`), however the kernel splits the bytes; so
what one side has sent, up to the call that failed, is what the other side receives, packet by
packet and nothing else.

## Main results

* `recvOver_eq` — splitting and interrupting reads makes no difference
* `received_over` — what arrives of packets sent one after another
-/

namespace CLanguage.Xacto

/-- `proto_send_packet`: how it returns, and whether `errno` is `EINTR`. -/
def sendOver (plan : List Transfer) (eintr : Bool) (padding : UInt8) (pkt : XactoPacket)
    (data : List UInt8) : Option (Transferred × Bool) := do
  let payloadLength := pkt.size
  let pkt := pkt.network
  let (header, eintr) ← rioWriten plan eintr (storePacket padding pkt)
  if header.ok then
    let (payload, eintr) ← rioWriten header.plan eintr (data.take payloadLength.toNat)
    return (payload.after header.done, eintr)
  else return (header, eintr)

/-- What `proto_recv_packet` makes of the bytes of a packet. -/
def XactoPacket.host (pkt : XactoPacket) : XactoPacket :=
  { pkt with
    size := ntohl pkt.size
    timestampSec := ntohl pkt.timestampSec
    timestampNsec := ntohl pkt.timestampNsec
    null := 0 }

/-- The second part of `proto_recv_packet`, behind the packet `pkt`. -/
def recvPayloadOver (garbage : Garbage) (plan : List Transfer) (pkt : XactoPacket) (conn : Conn) :
    Option ((Option XactoPacket × Conn) × List Transfer) := do
  if pkt.size = 0 then return ((some pkt, conn), plan)
  else
    let payload ← rioReadn plan pkt.size.toNat conn.input
    let conn := {
      input := conn.input.drop payload.done.length
      buffers := conn.buffers + 1
      datap := some (payload.done ++ garbage conn.buffers payload.done.length) }
    return ((if payload.ok then some pkt else none, conn), payload.plan)

/-- `proto_recv_packet`: the packet, `none` for the return value -1, and the calls that the kernel
will answer next. -/
def recvOver (garbage : Garbage) (plan : List Transfer) (conn : Conn) :
    Option ((Option XactoPacket × Conn) × List Transfer) := do
  let header ← rioReadn plan 16 conn.input
  let conn := { conn with input := conn.input.drop header.done.length }
  if header.ok then recvPayloadOver garbage header.plan (loadPacket header.done).host conn
  else return ((none, conn), header.plan)

variable {plan plan' : List Transfer} {garbage : Garbage} {conn conn' : Conn} {p : Sent}
  {ps : List Sent} {r : Transferred} {eintr eintr' : Bool} {pkt : XactoPacket}
  {result : Option XactoPacket}

/-! ### One packet -/

/-- A beginning that reaches over the end ends there. -/
theorem eq_of_eq_append {l l₁ l₂ : List UInt8} (h : l <+: l₁) (heq : l = l₁ ++ l₂) : l = l₁ := by
  apply h.eq_of_length_le
  rw [heq, List.length_append]
  exact Nat.le_add_right _ _

/-- What a send writes is a beginning of the packet, and all of it if and only if the send does not
return -1. -/
theorem sendOver_spec (h : sendOver plan eintr p.padding p.pkt p.payload = some (r, eintr')) :
    r.done <+: p.bytes ∧ (r.ok = true ↔ r.done = p.bytes) := by
  obtain ⟨⟨header, e⟩, hheader, h⟩ := Option.bind_eq_some_iff.mp h
  obtain ⟨hbegin, hok, -⟩ := (writing_of_rioWriten hheader).spec
  rw [p.bytes_eq]
  dsimp only at h
  split at h
  · next ok =>
    -- the first write is complete
    obtain ⟨⟨payload, e'⟩, hpayload, h⟩ := Option.bind_eq_some_iff.mp h
    obtain ⟨rfl, -⟩ := Prod.mk.inj (Option.some.inj h)
    obtain ⟨hbegin', hok', -⟩ := (writing_of_rioWriten hpayload).spec
    rw [← p.length_payload, List.take_length] at hbegin' hok'
    rw [Transferred.after_done, Transferred.after_ok, hok', hok.mp ok, List.append_cancel_left_eq]
    exact ⟨(List.prefix_append_right_inj _).mpr hbegin', Iff.rfl⟩
  · next hfailed =>
    obtain ⟨rfl, -⟩ := Prod.mk.inj (Option.some.inj h)
    exact ⟨hbegin.trans (List.prefix_append _ _),
      iff_of_false hfailed fun hall => hfailed (hok.mpr (eq_of_eq_append hbegin hall))⟩

/-- The second write of a packet, with the calls that are left. -/
theorem exists_rioWriten_left {n : ℕ} {data : List UInt8}
    (enough : data.length + n ≤ plan.countP Transfer.isBytes) (eintr : Bool) :
    ∃ r eintr', rioWriten plan eintr data = some (r, eintr') ∧
      (r.ok = true → n ≤ r.plan.countP Transfer.isBytes) ∧
      (Steady plan → r.ok = true ∧ Steady r.plan) := by
  obtain ⟨r, eintr', hr⟩ := exists_rioWriten (le_of_add_le_left enough) eintr
  have hwrites := writing_of_rioWriten hr
  refine ⟨r, eintr', hr, fun ok => ?_, fun steady =>
    ⟨hwrites.steady steady, steady.suffix hwrites.spec.2.2⟩⟩
  have hcalls := hwrites.calls ok
  omega

/-- A send returns if the kernel answers one call for each byte, and not with -1 if none fails. -/
theorem exists_sendOver {n : ℕ} (p : Sent)
    (enough : p.bytes.length + n ≤ plan.countP Transfer.isBytes) (eintr : Bool) :
    ∃ r eintr', sendOver plan eintr p.padding p.pkt p.payload = some (r, eintr') ∧
      (r.ok = true → n ≤ r.plan.countP Transfer.isBytes) ∧
      (Steady plan → r.ok = true ∧ Steady r.plan) := by
  have hlength : (p.payload.take p.pkt.size.toNat).length = p.payload.length := by
    rw [← p.length_payload, List.take_length]
  rw [p.length_bytes, Nat.add_assoc] at enough
  obtain ⟨header, e, hheader, hleft, hsteady⟩ := exists_rioWriten_left (n := p.payload.length + n)
    (length_storePacket p.padding p.pkt.network ▸ enough) eintr
  rw [sendOver, hheader]
  simp only [Option.bind_eq_bind, Option.bind_some]
  by_cases ok : header.ok = true
  · obtain ⟨payload, e', hpayload, hleft', hsteady'⟩ := exists_rioWriten_left (n := n)
      (hlength.symm ▸ hleft ok) e
    rw [if_pos ok, hpayload]
    exact ⟨_, _, rfl, hleft', fun steady => hsteady' (hsteady steady).2⟩
  · rw [if_neg ok]
    exact ⟨_, _, rfl, fun hok => absurd hok ok, fun steady => absurd (hsteady steady).1 ok⟩

theorem drop_length_take (n : ℕ) (l : List UInt8) : l.drop (l.take n).length = l.drop n := by
  rw [List.length_take]
  obtain h | h := le_total n l.length
  · rw [min_eq_left h]
  · rw [min_eq_right h, List.drop_length, List.drop_of_length_le h]

/-- The second part of a receive that takes a packet off its input at once. -/
def recvPayload (garbage : Garbage) (pkt : XactoPacket) (conn : Conn) : Option XactoPacket × Conn :=
  if pkt.size = 0 then (some pkt, conn)
  else
    let payload := conn.input.take pkt.size.toNat
    let conn := {
      input := conn.input.drop pkt.size.toNat
      buffers := conn.buffers + 1
      datap := some (payload ++ garbage conn.buffers payload.length) }
    if payload.length < pkt.size.toNat then (none, conn) else (some pkt, conn)

theorem protoRecvPacket_eq (garbage : Garbage) (conn : Conn) :
    protoRecvPacket garbage conn =
      if 16 ≤ conn.input.length then
        recvPayload garbage (loadPacket (conn.input.take 16)).host
          { conn with input := conn.input.drop 16 }
      else (none, { conn with input := conn.input.drop 16 }) := by
  rw [protoRecvPacket]
  have hlength : (conn.input.take 16).length < 16 ↔ ¬ 16 ≤ conn.input.length := by
    rw [List.length_take]
    omega
  simp only [hlength, ite_not]
  rfl

theorem recvPayloadOver_eq
    (h : recvPayloadOver garbage plan pkt conn = some ((result, conn'), plan'))
    (good : Steady plan ∨ result ≠ none) :
    recvPayload garbage pkt conn = (result, conn') := by
  rw [recvPayloadOver] at h
  rw [recvPayload]
  split at h
  · next hsize =>
    obtain ⟨h, -⟩ := Prod.mk.inj (Option.some.inj h)
    rw [if_pos hsize, h]
  · next hsize =>
    obtain ⟨payload, hpayload, h⟩ := Option.bind_eq_some_iff.mp h
    obtain ⟨h, -⟩ := Prod.mk.inj (Option.some.inj h)
    obtain ⟨hresult, hconn⟩ := Prod.mk.inj h
    -- a call that fails returns -1 whatever it has read before
    have hgood : Steady plan ∨ payload.ok = true := by
      refine good.imp_right fun hne => ?_
      by_contra hfailed
      exact hne (hresult ▸ if_neg hfailed)
    obtain ⟨hdone, hok⟩ := (reads_of_rioReadn hpayload).done_eq hgood
    rw [hdone, drop_length_take] at hconn
    -- otherwise it returns -1 if and only if the input is too short
    have hshort : (conn.input.take pkt.size.toNat).length < pkt.size.toNat ↔
        ¬ payload.ok = true := by
      rw [hok, List.length_take]
      omega
    rw [if_neg hsize, ← hresult, ← hconn]
    simp only [hshort, ite_not]
    split
    · rfl
    · rfl

/-- Over a plan without failures a receive has the effect of the one that takes a packet off the
input at once. So has every receive that does not return -1. -/
theorem recvOver_eq (h : recvOver garbage plan conn = some ((result, conn'), plan'))
    (good : Steady plan ∨ result ≠ none) :
    protoRecvPacket garbage conn = (result, conn') := by
  obtain ⟨header, hheader, h⟩ := Option.bind_eq_some_iff.mp h
  have hreads := reads_of_rioReadn hheader
  obtain ⟨-, -, -, hsuffix⟩ := hreads.spec
  rw [protoRecvPacket_eq]
  dsimp only at h
  split at h
  · next ok =>
    obtain ⟨hdone, hok⟩ := hreads.done_eq (.inr ok)
    rw [hdone, drop_length_take] at h
    rw [if_pos (hok.mp ok)]
    exact recvPayloadOver_eq h (good.imp_left fun steady => steady.suffix hsuffix)
  · next hfailed =>
    obtain ⟨h, -⟩ := Prod.mk.inj (Option.some.inj h)
    obtain ⟨rfl, hconn⟩ := Prod.mk.inj h
    obtain ⟨hdone, hok⟩ := hreads.done_eq (good.imp_right fun hne => absurd rfl hne)
    rw [hdone, drop_length_take] at hconn
    rw [if_neg (fun hle => hfailed (hok.mpr hle)), hconn]

/-- A receive uses up calls that the kernel answers. -/
theorem recvOver_suffix (h : recvOver garbage plan conn = some ((result, conn'), plan')) :
    plan' <:+ plan := by
  obtain ⟨header, hheader, h⟩ := Option.bind_eq_some_iff.mp h
  have hsuffix := (reads_of_rioReadn hheader).spec.2.2.2
  dsimp only at h
  split at h
  · rw [recvPayloadOver] at h
    split at h
    · obtain ⟨-, rfl⟩ := Prod.mk.inj (Option.some.inj h)
      exact hsuffix
    · obtain ⟨payload, hpayload, h⟩ := Option.bind_eq_some_iff.mp h
      obtain ⟨-, rfl⟩ := Prod.mk.inj (Option.some.inj h)
      exact (reads_of_rioReadn hpayload).spec.2.2.2.trans hsuffix
  · obtain ⟨-, rfl⟩ := Prod.mk.inj (Option.some.inj h)
    exact hsuffix

/-- The kernel answers one call for each byte that is still to come, and one more. -/
def Enough (plan : List Transfer) (input : List UInt8) : Prop :=
  input.length < plan.countP Transfer.isBytes

theorem exists_rioReadn_enough {input : List UInt8} (enough : Enough plan input) (n : ℕ) :
    ∃ r, rioReadn plan n input = some r ∧
      (r.ok = true → Enough r.plan (input.drop r.done.length)) := by
  obtain ⟨r, hr⟩ := exists_rioReadn enough n
  have hreads := reads_of_rioReadn hr
  obtain ⟨hbegin, -, hok, -⟩ := hreads.spec
  refine ⟨r, hr, fun ok => ?_⟩
  have hcalls := hreads.calls ok
  have hle := hbegin.length_le
  have hlength := hok.mp ok
  rw [Enough] at enough ⊢
  rw [List.length_drop]
  omega

theorem exists_recvOver (garbage : Garbage) (enough : Enough plan conn.input) :
    ∃ result conn' plan', recvOver garbage plan conn = some ((result, conn'), plan') ∧
      (result ≠ none → Enough plan' conn'.input) := by
  obtain ⟨header, hheader, hrest⟩ := exists_rioReadn_enough enough 16
  rw [recvOver, hheader]
  by_cases ok : header.ok = true
  · simp only [Option.bind_eq_bind, Option.bind_some, if_pos ok, recvPayloadOver]
    split
    · exact ⟨_, _, _, rfl, fun _ => hrest ok⟩
    · obtain ⟨payload, hpayload, hrest'⟩ := exists_rioReadn_enough (hrest ok)
        (loadPacket header.done).host.size.toNat
      rw [hpayload]
      refine ⟨_, _, _, rfl, fun hne => hrest' ?_⟩
      by_contra hfailed
      exact hne (if_neg hfailed)
  · simp only [Option.bind_eq_bind, Option.bind_some, if_neg ok]
    exact ⟨_, _, _, rfl, fun hne => absurd rfl hne⟩

/-! ### Packets one after another -/

/-- Packets sent one after another, up to the first one that is not. -/
def sendPackets : List Transfer → Bool → List Sent → Option (Transferred × Bool)
  | plan, eintr, [] => some (⟨true, [], plan⟩, eintr)
  | plan, eintr, p :: ps => do
    let (first, eintr) ← sendOver plan eintr p.padding p.pkt p.payload
    if first.ok then
      let (rest, eintr) ← sendPackets first.plan eintr ps
      return (rest.after first.done, eintr)
    else return (first, eintr)

theorem sendAll_cons (p : Sent) (ps : List Sent) : sendAll (p :: ps) = p.bytes ++ sendAll ps :=
  List.flatMap_cons

theorem exists_sendPackets (ps : List Sent)
    (enough : (sendAll ps).length ≤ plan.countP Transfer.isBytes) (eintr : Bool) :
    ∃ r eintr', sendPackets plan eintr ps = some (r, eintr') ∧ (Steady plan → r.ok = true) := by
  induction ps generalizing plan eintr with
  | nil => exact ⟨_, _, rfl, fun _ => rfl⟩
  | cons p ps ih =>
    rw [sendAll_cons, List.length_append] at enough
    obtain ⟨first, e, hfirst, hleft, hsteady⟩ := exists_sendOver p enough eintr
    rw [sendPackets, hfirst]
    simp only [Option.bind_eq_bind, Option.bind_some]
    by_cases ok : first.ok = true
    · obtain ⟨rest, e', hrest, hok⟩ := ih (hleft ok) e
      rw [if_pos ok, hrest]
      exact ⟨_, _, rfl, fun steady => hok (hsteady steady).2⟩
    · rw [if_neg ok]
      exact ⟨_, _, rfl, fun steady => absurd (hsteady steady).1 ok⟩

/-- The payload of a packet just received. -/
def XactoPacket.payload (pkt : XactoPacket) (conn : Conn) : Option (List UInt8) :=
  if pkt.size = 0 then none else conn.datap.map (·.take pkt.size.toNat)

/-- The packets that are received one after another before a call returns -1, with their payloads,
in at most `fuel` calls. -/
def receiveOver (garbage : Garbage) :
    ℕ → List Transfer → Conn → Option (List (XactoPacket × Option (List UInt8)))
  | 0, _, _ => none
  | fuel + 1, plan, conn =>
    match recvOver garbage plan conn with
    | none => none
    | some ((none, _), _) => some []
    | some ((some pkt, conn), plan) =>
      (receiveOver garbage fuel plan conn).map ((pkt, pkt.payload conn) :: ·)

/-- What the sender has written is a beginning of its packets, and all of them if and only if no
send returned -1. -/
theorem sendPackets_spec (h : sendPackets plan eintr ps = some (r, eintr')) :
    r.done <+: sendAll ps ∧ (r.ok = true ↔ r.done = sendAll ps) := by
  induction ps generalizing plan eintr r with
  | nil =>
    obtain ⟨rfl, -⟩ := Prod.mk.inj (Option.some.inj h)
    exact ⟨List.prefix_rfl, iff_of_true rfl rfl⟩
  | cons p ps ih =>
    obtain ⟨⟨first, e⟩, hfirst, h⟩ := Option.bind_eq_some_iff.mp h
    obtain ⟨hbegin, hok⟩ := sendOver_spec hfirst
    rw [sendAll_cons]
    dsimp only at h
    split at h
    · next ok =>
      obtain ⟨⟨rest, e'⟩, hrest, h⟩ := Option.bind_eq_some_iff.mp h
      obtain ⟨rfl, rfl⟩ := Prod.mk.inj (Option.some.inj h)
      obtain ⟨hbegin', hok'⟩ := ih hrest
      rw [Transferred.after_done, Transferred.after_ok, hok', hok.mp ok,
        List.append_cancel_left_eq]
      exact ⟨(List.prefix_append_right_inj _).mpr hbegin', Iff.rfl⟩
    · next hfailed =>
      obtain ⟨rfl, -⟩ := Prod.mk.inj (Option.some.inj h)
      exact ⟨hbegin.trans (List.prefix_append _ _),
        iff_of_false hfailed fun hall => hfailed (hok.mpr (eq_of_eq_append hbegin hall))⟩

theorem payload_after (garbage : Garbage) (conn : Conn) (p : Sent) (rest : List UInt8) :
    p.received.1.payload (conn.after garbage p rest) = p.received.2 := by
  rw [XactoPacket.payload, Sent.received, Conn.after]
  by_cases hsize : p.pkt.size = 0
  · simp only [hsize, if_true]
  · simp only [hsize, if_false, Option.map_some, List.take_left' p.length_payload]

/-- The packets received, call by call. -/
inductive Receives (garbage : Garbage) :
    List Transfer → Conn → List (XactoPacket × Option (List UInt8)) → Prop
  | stop {plan plan' : List Transfer} {conn conn' : Conn}
      (recv : recvOver garbage plan conn = some ((none, conn'), plan')) :
      Receives garbage plan conn []
  | next {plan plan' : List Transfer} {conn conn' : Conn} {pkt : XactoPacket}
      {pkts : List (XactoPacket × Option (List UInt8))}
      (recv : recvOver garbage plan conn = some ((some pkt, conn'), plan'))
      (rest : Receives garbage plan' conn' pkts) :
      Receives garbage plan conn ((pkt, pkt.payload conn') :: pkts)

theorem receives_of_receiveOver {fuel : ℕ} {pkts : List (XactoPacket × Option (List UInt8))}
    (h : receiveOver garbage fuel plan conn = some pkts) : Receives garbage plan conn pkts := by
  induction fuel generalizing plan conn pkts with
  | zero => cases h
  | succ fuel ih =>
    rw [receiveOver] at h
    cases hrecv : recvOver garbage plan conn with
    | none =>
      rw [hrecv] at h
      cases h
    | some returned =>
      obtain ⟨⟨result, conn'⟩, plan'⟩ := returned
      rw [hrecv] at h
      cases result with
      | none =>
        obtain rfl := Option.some.inj h
        exact .stop hrecv
      | some pkt =>
        obtain ⟨rest, hrest, rfl⟩ := Option.map_eq_some_iff.mp h
        exact .next hrecv (ih hrest)

theorem exists_receiveOver (garbage : Garbage) {fuel : ℕ} (enough : Enough plan conn.input)
    (rounds : conn.input.length < fuel) :
    ∃ pkts, receiveOver garbage fuel plan conn = some pkts := by
  induction fuel generalizing plan conn with
  | zero => cases rounds
  | succ fuel ih =>
    obtain ⟨result, conn', plan', hrecv, hrest⟩ := exists_recvOver garbage enough
    rw [receiveOver, hrecv]
    cases result with
    | none => exact ⟨_, rfl⟩
    | some pkt =>
      have hshorter := recv_length_lt (recvOver_eq hrecv (.inr (Option.some_ne_none pkt)))
      obtain ⟨pkts, hpkts⟩ := ih (hrest (Option.some_ne_none pkt)) (by omega)
      exact ⟨_, congrArg (Option.map _) hpkts⟩

/-- Where a stream of packets is cut, its first packet is received unless the cut is before its
end. -/
theorem recv_first (garbage : Garbage) {n : ℕ} (hinput : conn.input = (sendAll ps).take n) :
    (protoRecvPacket garbage conn).1 = none ∧ (ps = [] ∨ n < (sendAll (ps.take 1)).length) ∨
      ∃ p ps', ps = p :: ps' ∧ p.bytes.length ≤ n ∧ protoRecvPacket garbage conn =
        (some p.received.1, conn.after garbage p ((sendAll ps').take (n - p.bytes.length))) := by
  cases ps with
  | nil =>
    refine .inl ⟨?_, .inl rfl⟩
    rw [protoRecvPacket_eq, if_neg]
    rw [hinput, sendAll, List.flatMap_nil, List.take_nil]
    decide
  | cons p ps =>
    rw [sendAll_cons] at hinput
    obtain hcut | hall := lt_or_ge n p.bytes.length
    · left
      have hrest : p.bytes.drop n ≠ [] := by
        rw [ne_eq, List.drop_eq_nil_iff]
        omega
      rw [List.take_append_of_le_length hcut.le] at hinput
      refine ⟨recv_cut p conn hrest ?_, .inr ?_⟩
      · rw [hinput, List.take_append_drop]
      · rwa [List.take_succ_cons, sendAll_cons, List.take_zero, sendAll, List.flatMap_nil,
          List.append_nil]
    · right
      rw [List.take_append, List.take_of_length_le hall] at hinput
      exact ⟨p, ps, rfl, hall, recv_send p conn hinput⟩

/-- Before a call returns -1, the packets of a beginning of the stream are received; over a plan
without failures, all that are there completely. -/
theorem Receives.spec {n : ℕ} {pkts : List (XactoPacket × Option (List UInt8))}
    (h : Receives garbage plan conn pkts) (hinput : conn.input = (sendAll ps).take n) :
    ∃ i ≤ ps.length, pkts = (ps.take i).map Sent.received ∧ (sendAll (ps.take i)).length ≤ n ∧
      (Steady plan → i = ps.length ∨ n < (sendAll (ps.take (i + 1))).length) := by
  induction h generalizing ps n with
  | @stop plan plan' conn conn' recv =>
    -- without failures the call returns -1 only where no complete packet is left
    refine ⟨0, Nat.zero_le _, rfl, Nat.zero_le _, fun steady => ?_⟩
    have hatomic := recvOver_eq recv (.inl steady)
    obtain ⟨-, hnil | hcut⟩ | ⟨p, ps', -, -, hrecv⟩ := recv_first garbage hinput
    · exact .inl (hnil ▸ rfl)
    · exact .inr hcut
    · rw [hatomic] at hrecv
      cases hrecv
  | @next plan plan' conn conn' pkt pkts recv rest ih =>
    -- what a call returns is the first packet, and the input goes on behind it
    have hatomic := recvOver_eq recv (.inr (Option.some_ne_none pkt))
    obtain ⟨hnone, -⟩ | ⟨p, ps', rfl, hle, hrecv⟩ := recv_first garbage hinput
    · rw [hatomic] at hnone
      cases hnone
    · obtain ⟨hpkt, rfl⟩ := Prod.mk.inj (hatomic.symm.trans hrecv)
      obtain rfl := Option.some.inj hpkt
      obtain ⟨i, hi, hpkts, hlength, hall⟩ := ih (Conn.after_input conn p _)
      refine ⟨i + 1, Nat.succ_le_succ hi, ?_, ?_, fun steady => ?_⟩
      · rw [List.take_succ_cons, List.map_cons, payload_after, hpkts]
      · rw [List.take_succ_cons, sendAll_cons, List.length_append]
        omega
      · rw [List.length_cons, List.take_succ_cons, sendAll_cons, List.length_append]
        exact (hall (steady.suffix (recvOver_suffix recv))).imp (by omega) (by omega)

theorem length_sendAll_take (ps : List Sent) (i : ℕ) :
    (sendAll (ps.take i)).length ≤ (sendAll ps).length := by
  have hsplit : sendAll ps = sendAll (ps.take i) ++ sendAll (ps.drop i) := by
    rw [sendAll, sendAll, sendAll, ← List.flatMap_append, List.take_append_drop]
  rw [hsplit, List.length_append]
  exact Nat.le_add_right _ _

/-- **Packets arrive as they were sent**: whatever the kernel does with the writes of the sender and
the reads of the receiver, as long as it goes on answering them, both come to an end, and what is
received is a beginning of the packets that were sent, each once and in order. If no read fails
these are all that were written completely, and all of them if no write fails either. -/
theorem received_over (ps : List Sent) (wplan rplan : List Transfer) (fuel : ℕ)
    (writes : (sendAll ps).length ≤ wplan.countP Transfer.isBytes)
    (reads : (sendAll ps).length < rplan.countP Transfer.isBytes)
    (rounds : (sendAll ps).length < fuel) (eintr : Bool) (garbage : Garbage) :
    ∃ r eintr', sendPackets wplan eintr ps = some (r, eintr') ∧ ∃ i ≤ ps.length,
      receiveOver garbage fuel rplan (.start r.done) = some ((ps.take i).map Sent.received) ∧
      (sendAll (ps.take i)).length ≤ r.done.length ∧
      (Steady rplan → (i = ps.length ∨ r.done.length < (sendAll (ps.take (i + 1))).length) ∧
        (r.ok = true → i = ps.length) ∧ (Steady wplan → i = ps.length)) := by
  obtain ⟨r, eintr', sent, hsteady⟩ := exists_sendPackets ps writes eintr
  obtain ⟨hbegin, hok⟩ := sendPackets_spec sent
  have hle := hbegin.length_le
  have henough : Enough rplan (Conn.start r.done).input := hle.trans_lt reads
  obtain ⟨pkts, hpkts⟩ := exists_receiveOver garbage henough (hle.trans_lt rounds)
  obtain ⟨i, hi, rfl, hlength, hall⟩ :=
    (receives_of_receiveOver hpkts).spec (List.prefix_iff_eq_take.mp hbegin)
  refine ⟨r, eintr', sent, i, hi, hpkts, hlength, fun steady => ?_⟩
  have hcomplete : r.ok = true → i = ps.length := by
    intro ok
    refine (hall steady).resolve_right fun hlt => ?_
    rw [hok.mp ok] at hlt
    exact absurd hlt (not_lt.mpr (length_sendAll_take ps (i + 1)))
  exact ⟨hall steady, hcomplete, fun hwrites => hcomplete (hsteady hwrites)⟩

/-- Two packets with payloads of two bytes and of one. -/
def greeting : List Sent :=
  [⟨0, ⟨xactoDataPkt, 0, 0, 2, 0, 0⟩, [104, 105], rfl⟩, ⟨0, ⟨xactoDataPkt, 0, 0, 1, 0, 0⟩, [33], rfl⟩]

/-- The kernel interrupts the first call and transfers at most `k + 1` bytes with each later one. -/
def slowly (k n : ℕ) : List Transfer := .interrupted :: List.replicate n (.bytes k)

theorem steady_slowly (k n : ℕ) : Steady (slowly k n) := by
  intro t ht
  obtain rfl | ht := List.mem_cons.mp ht
  · trivial
  · obtain rfl := List.eq_of_mem_replicate ht
    trivial

theorem countP_slowly (k n : ℕ) : (slowly k n).countP Transfer.isBytes = n := by
  rw [slowly, List.countP_cons_of_neg (by decide), List.countP_replicate]
  exact if_pos rfl

/-- These packets, written byte by byte and read seven bytes at a time. -/
theorem received_over_example : ∃ r eintr',
    sendPackets (slowly 0 35) false greeting = some (r, eintr') ∧
      receiveOver (fun _ _ => []) 36 (slowly 6 36) (.start r.done) =
        some (greeting.map Sent.received) := by
  have hlength : (sendAll greeting).length = 35 := by decide +kernel
  obtain ⟨r, eintr', hsend, i, -, hreceive, -, hall⟩ := received_over greeting (slowly 0 35)
    (slowly 6 36) 36 (by rw [hlength, countP_slowly]) (by rw [hlength, countP_slowly]; decide)
    (hlength.trans_lt (by decide)) false fun _ _ => []
  obtain ⟨-, -, hi⟩ := hall (steady_slowly 6 36)
  rw [hi (steady_slowly 0 35), List.take_length] at hreceive
  exact ⟨r, eintr', hsend, hreceive⟩

end CLanguage.Xacto
