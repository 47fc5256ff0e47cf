import CLanguage.Lib.Bytes

/-!
# Packets

A packet is sent as the sixteen bytes of its structure, words in network order and
one byte of padding, with its payload behind it. `proto_recv_packet` takes exactly
the bytes of one packet off its input (`recv_send`), and returns -1 where the input
is cut inside a packet (`recv_cut`), so a stream of packets is read back packet by
packet, up to the one that was cut (`recv_stream`).
-/

namespace CLanguage.Xacto

open Lib

/-- `XACTO_PACKET` -/
structure XactoPacket where
  type : UInt8
  status : UInt8
  null : UInt8
  size : UInt32
  timestampSec : UInt32
  timestampNsec : UInt32
  deriving DecidableEq, Repr

/-- `XACTO_PACKET_TYPE` -/
def xactoPutPkt : UInt8 := 1
def xactoGetPkt : UInt8 := 2
def xactoDataPkt : UInt8 := 3
def xactoCommitPkt : UInt8 := 4
def xactoReplyPkt : UInt8 := 5

/-! ## Words in memory -/

/-- The bytes of a word in the memory of a little-endian host. -/
def storeWord (w : UInt32) : List UInt8 := (toBytes 4 w.toNat).reverse

/-- The word that a little-endian host finds in memory. -/
def loadWord (l : List UInt8) : UInt32 := UInt32.ofNat (ofBytes l.reverse)

/-- `htonl` and `ntohl` exchange the order of the bytes. -/
def htonl (w : UInt32) : UInt32 := loadWord (toBytes 4 w.toNat)

def ntohl (w : UInt32) : UInt32 := htonl w

/-- The sixteen bytes of the structure; the fourth one is padding. -/
def storePacket (padding : UInt8) (pkt : XactoPacket) : List UInt8 :=
  [pkt.type, pkt.status, pkt.null, padding] ++ storeWord pkt.size ++ storeWord pkt.timestampSec ++
    storeWord pkt.timestampNsec

def loadPacket (l : List UInt8) : XactoPacket where
  type := l.getD 0 0
  status := l.getD 1 0
  null := l.getD 2 0
  size := loadWord ((l.drop 4).take 4)
  timestampSec := loadWord ((l.drop 8).take 4)
  timestampNsec := loadWord ((l.drop 12).take 4)

/-! ## Sending and receiving -/

/-- The packet with its words in network order. -/
def XactoPacket.network (pkt : XactoPacket) : XactoPacket :=
  { pkt with
    size := htonl pkt.size
    timestampSec := htonl pkt.timestampSec
    timestampNsec := htonl pkt.timestampNsec }

@[simp] theorem network_size (pkt : XactoPacket) : pkt.network.size = htonl pkt.size := rfl

@[simp] theorem network_timestampSec (pkt : XactoPacket) :
    pkt.network.timestampSec = htonl pkt.timestampSec := rfl

@[simp] theorem network_timestampNsec (pkt : XactoPacket) :
    pkt.network.timestampNsec = htonl pkt.timestampNsec := rfl

/-- `proto_send_packet`: the bytes that are written, and what becomes of the packet. -/
def protoSendPacket (padding : UInt8) (pkt : XactoPacket) (data : List UInt8) :
    List UInt8 × XactoPacket :=
  let payloadLength := pkt.size
  let pkt := pkt.network
  (storePacket padding pkt ++ data.take payloadLength.toNat, pkt)

/-- The receiving side of a connection: the input to come, the number of payload buffers that were
allocated, and what is in memory from the address `datap[0]` on, `none` for a null pointer. -/
structure Conn where
  input : List UInt8
  buffers : ℕ
  datap : Option (List UInt8)

/-- What is in memory from offset `n` of the `k`-th payload buffer on, up to the next null byte. -/
abbrev Garbage := ℕ → ℕ → List UInt8

/-- `proto_recv_packet`: the packet, `none` for the return value -1. `rio_readn` stores what there
is of the bytes it is to read. -/
def protoRecvPacket (garbage : Garbage) (conn : Conn) : Option XactoPacket × Conn :=
  let header := conn.input.take 16
  let conn := { conn with input := conn.input.drop 16 }
  if header.length < 16 then (none, conn)
  else
    let pkt := loadPacket header
    let pkt := { pkt with
      size := ntohl pkt.size
      timestampSec := ntohl pkt.timestampSec
      timestampNsec := ntohl pkt.timestampNsec
      null := 0 }
    if pkt.size = 0 then (some pkt, conn)
    else
      let payload := conn.input.take pkt.size.toNat
      let conn := {
        input := conn.input.drop pkt.size.toNat
        buffers := conn.buffers + 1
        datap := some (payload ++ garbage conn.buffers payload.length) }
      if payload.length < pkt.size.toNat then (none, conn) else (some pkt, conn)

theorem storeWord_htonl (w : UInt32) : storeWord (htonl w) = toBytes 4 w.toNat := by
  have hlength : (toBytes 4 w.toNat).reverse.length = 4 := by
    rw [List.length_reverse, length_toBytes]
  have hlt : ofBytes (toBytes 4 w.toNat).reverse < 2 ^ 32 := by
    have h := ofBytes_lt (toBytes 4 w.toNat).reverse
    rw [hlength] at h
    calc ofBytes (toBytes 4 w.toNat).reverse < 256 ^ 4 := h
      _ = 2 ^ 32 := by norm_num
  have hbytes := toBytes_ofBytes (toBytes 4 w.toNat).reverse
  rw [hlength] at hbytes
  rw [storeWord, htonl, loadWord, UInt32.toNat_ofNat_of_lt' hlt, hbytes, List.reverse_reverse]

theorem loadWord_storeWord (w : UInt32) : loadWord (storeWord w) = w := by
  have hword : w.toNat % 256 ^ 4 = w.toNat := by
    apply Nat.mod_eq_of_lt
    calc w.toNat < 2 ^ 32 := w.toNat_lt
      _ = 256 ^ 4 := by norm_num
  rw [loadWord, storeWord, List.reverse_reverse, ofBytes_toBytes, hword, UInt32.ofNat_toNat]

@[simp] theorem ntohl_htonl (w : UInt32) : ntohl (htonl w) = w := by
  have h := loadWord_storeWord w
  rw [storeWord] at h
  have hreverse : toBytes 4 (htonl w).toNat = (toBytes 4 w.toNat).reverse :=
    List.reverse_eq_iff.mp (storeWord_htonl w)
  rw [ntohl, htonl, hreverse, h]

@[simp] theorem length_storeWord (w : UInt32) : (storeWord w).length = 4 := by
  rw [storeWord, List.length_reverse, length_toBytes]

@[simp] theorem length_storePacket (padding : UInt8) (pkt : XactoPacket) :
    (storePacket padding pkt).length = 16 := by
  simp [storePacket]

/-- A field that lies between others. -/
theorem take_drop_middle {l m r : List UInt8} {n k : ℕ} (hl : l.length = n) (hm : m.length = k) :
    ((l ++ (m ++ r)).drop n).take k = m := by
  rw [List.drop_left' hl, List.take_left' hm]

/-- The structure is loaded as it was stored. -/
theorem loadPacket_storePacket (padding : UInt8) (pkt : XactoPacket) :
    loadPacket (storePacket padding pkt) = pkt := by
  have hsize : ((storePacket padding pkt).drop 4).take 4 = storeWord pkt.size := by
    rw [storePacket, List.append_assoc, List.append_assoc]
    exact take_drop_middle rfl (length_storeWord _)
  have hsec : ((storePacket padding pkt).drop 8).take 4 = storeWord pkt.timestampSec := by
    rw [storePacket, List.append_assoc]
    apply take_drop_middle
    · simp
    · exact length_storeWord _
  have hnsec : ((storePacket padding pkt).drop 12).take 4 = storeWord pkt.timestampNsec := by
    rw [storePacket, ← List.append_nil (storeWord pkt.timestampNsec)]
    apply take_drop_middle
    · simp
    · exact length_storeWord _
  rw [loadPacket, hsize, hsec, hnsec, loadWord_storeWord, loadWord_storeWord, loadWord_storeWord]
  rfl

/-! ## Streams of packets -/

/-- A packet with its payload and the byte of padding it happens to be sent with. -/
structure Sent where
  padding : UInt8
  pkt : XactoPacket
  payload : List UInt8
  length_payload : payload.length = pkt.size.toNat

def Sent.bytes (p : Sent) : List UInt8 := (protoSendPacket p.padding p.pkt p.payload).1

/-- The bytes of packets that are sent one after another. -/
def sendAll (ps : List Sent) : List UInt8 := ps.flatMap Sent.bytes

/-- What the receiver sees of a packet; there is no payload of size 0, and the null flag is reset. -/
def Sent.received (p : Sent) : XactoPacket × Option (List UInt8) :=
  ({ p.pkt with null := 0 }, if p.pkt.size = 0 then none else some p.payload)

/-- The connection before the first packet. -/
def Conn.start (input : List UInt8) : Conn := ⟨input, 0, none⟩

/-- `n` packets received one after another, with their payloads, unless a call returns -1. -/
def receive (garbage : Garbage) : ℕ → Conn → Option (List (XactoPacket × Option (List UInt8)) × Conn)
  | 0, conn => some ([], conn)
  | n + 1, conn =>
    match protoRecvPacket garbage conn with
    | (none, _) => none
    | (some pkt, conn) =>
      let payload := if pkt.size = 0 then none else conn.datap.map (·.take pkt.size.toNat)
      match receive garbage n conn with
      | none => none
      | some (pkts, conn) => some ((pkt, payload) :: pkts, conn)

variable {garbage : Garbage}

theorem Sent.bytes_eq (p : Sent) :
    p.bytes = storePacket p.padding p.pkt.network ++ p.payload := by
  rw [Sent.bytes, protoSendPacket]
  simp only [← p.length_payload, List.take_length]

theorem Sent.length_bytes (p : Sent) : p.bytes.length = 16 + p.payload.length := by
  rw [p.bytes_eq, List.length_append, length_storePacket]

/-- The connection behind a packet. -/
def Conn.after (garbage : Garbage) (conn : Conn) (p : Sent) (rest : List UInt8) : Conn :=
  if p.pkt.size = 0 then { conn with input := rest }
  else ⟨rest, conn.buffers + 1, some (p.payload ++ garbage conn.buffers p.payload.length)⟩

/-- A receive takes exactly the bytes of one send. -/
theorem recv_send (p : Sent) (conn : Conn) {rest : List UInt8}
    (hinput : conn.input = p.bytes ++ rest) :
    protoRecvPacket garbage conn = (some p.received.1, conn.after garbage p rest) := by
  have hlength := length_storePacket p.padding p.pkt.network
  have hheader : conn.input.take 16 = storePacket p.padding p.pkt.network := by
    rw [hinput, p.bytes_eq, List.append_assoc, List.take_left' hlength]
  have hdrop : conn.input.drop 16 = p.payload ++ rest := by
    rw [hinput, p.bytes_eq, List.append_assoc, List.drop_left' hlength]
  rw [protoRecvPacket]
  simp only [hheader, hdrop, hlength, lt_irrefl, if_false, loadPacket_storePacket, network_size,
    network_timestampSec, network_timestampNsec, ntohl_htonl]
  -- without a payload there is no second read
  by_cases hsize : p.pkt.size = 0
  · have hnil : p.payload = [] := by
      apply List.length_eq_zero_iff.mp
      rw [p.length_payload, hsize]
      rfl
    rw [if_pos hsize, Conn.after, if_pos hsize, hnil, List.nil_append]
    rfl
  · have hpayload : (p.payload ++ rest).take p.pkt.size.toNat = p.payload :=
      List.take_left' p.length_payload
    have htail : (p.payload ++ rest).drop p.pkt.size.toNat = rest :=
      List.drop_left' p.length_payload
    rw [if_neg hsize, Conn.after, if_neg hsize, hpayload, htail, p.length_payload]
    simp only [lt_irrefl, if_false]
    rfl

/-- A packet that is cut is not received. -/
theorem recv_cut (p : Sent) (conn : Conn) {rest : List UInt8} (hrest : rest ≠ [])
    (hinput : conn.input ++ rest = p.bytes) : (protoRecvPacket garbage conn).1 = none := by
  have hlength := length_storePacket p.padding p.pkt.network
  have hpositive := List.length_pos_iff.mpr hrest
  have htotal : conn.input.length + rest.length = 16 + p.payload.length := by
    rw [← p.length_bytes, ← hinput, List.length_append]
  rw [protoRecvPacket]
  by_cases hshort : (conn.input.take 16).length < 16
  · simp only [hshort, if_true]
  · -- the header is there, so the payload is cut
    have hle : 16 ≤ conn.input.length := by
      rw [List.length_take] at hshort
      omega
    have hheader : conn.input.take 16 = storePacket p.padding p.pkt.network := by
      have htake : (conn.input ++ rest).take 16 = conn.input.take 16 :=
        List.take_append_of_le_length hle
      rw [← htake, hinput, p.bytes_eq, List.take_left' hlength]
    have hpayload : p.payload.length = p.pkt.size.toNat := p.length_payload
    have hsize : p.pkt.size ≠ 0 := by
      intro hzero
      rw [hzero] at hpayload
      have hnil : p.payload.length = 0 := hpayload
      omega
    simp only [hheader, hlength, lt_irrefl, if_false, loadPacket_storePacket, network_size,
      ntohl_htonl, hsize, List.length_take, List.length_drop]
    rw [if_pos]
    omega

@[simp] theorem Conn.after_input (conn : Conn) (p : Sent) (rest : List UInt8) :
    (conn.after garbage p rest).input = rest := by
  rw [Conn.after]
  split <;> rfl

/-- Receiving one more packet in front. -/
theorem receive_succ {p : Sent} {conn conn' : Conn} {rest : List UInt8} {n : ℕ}
    {pkts : List (XactoPacket × Option (List UInt8))} (hinput : conn.input = p.bytes ++ rest)
    (hreceive : receive garbage n (conn.after garbage p rest) = some (pkts, conn')) :
    receive garbage (n + 1) conn = some (p.received :: pkts, conn') := by
  have hpayload : (if p.received.1.size = 0 then none
      else (conn.after garbage p rest).datap.map (·.take p.received.1.size.toNat)) =
      p.received.2 := by
    rw [Sent.received, Conn.after]
    by_cases hsize : p.pkt.size = 0
    · simp only [hsize, if_true]
    · simp only [hsize, if_false, Option.map_some, List.take_left' p.length_payload]
  rw [receive, recv_send p conn hinput]
  simp only [hreceive, hpayload, Prod.mk.eta]

/-- Packets that were sent are received one after another. -/
theorem receive_sendAll (ps : List Sent) (conn : Conn) {rest : List UInt8}
    (hinput : conn.input = sendAll ps ++ rest) :
    ∃ conn', receive garbage ps.length conn = some (ps.map Sent.received, conn') ∧
      conn'.input = rest := by
  induction ps generalizing conn with
  | nil => exact ⟨conn, rfl, hinput⟩
  | cons p ps ih =>
    have hhead : conn.input = p.bytes ++ (sendAll ps ++ rest) := by
      rw [hinput, sendAll, List.flatMap_cons, List.append_assoc]
      rfl
    obtain ⟨conn', hreceive, hconn'⟩ := ih _ (Conn.after_input conn p _)
    exact ⟨conn', receive_succ hhead hreceive, hconn'⟩

/-- Where a stream of packets is cut, the packets before the cut are received and the one that was
cut is not. -/
theorem receive_cut (ps : List Sent) (conn : Conn) {n : ℕ} (hn : n < (sendAll ps).length)
    (hinput : conn.input = (sendAll ps).take n) :
    ∃ i < ps.length, ∃ conn', (sendAll (ps.take i)).length ≤ n ∧
      n < (sendAll (ps.take (i + 1))).length ∧
      receive garbage i conn = some ((ps.take i).map Sent.received, conn') ∧
      (protoRecvPacket garbage conn').1 = none := by
  induction ps generalizing conn n with
  | nil => exact absurd hn (Nat.not_lt_zero n)
  | cons p ps ih =>
    have hcons (qs : List Sent) : sendAll (p :: qs) = p.bytes ++ sendAll qs := List.flatMap_cons
    rw [hcons] at hinput hn
    -- the input ends in the first packet or in one behind it
    by_cases hcut : n < p.bytes.length
    · refine ⟨0, Nat.succ_pos _, conn, Nat.zero_le n, ?_, rfl, ?_⟩
      · rw [List.take_succ_cons, hcons, List.length_append]
        omega
      · rw [List.take_append_of_le_length hcut.le] at hinput
        have hrest : p.bytes.drop n ≠ [] := by
          intro hnil
          have hzero := congrArg List.length hnil
          rw [List.length_drop, List.length_nil] at hzero
          omega
        apply recv_cut p conn hrest
        rw [hinput, List.take_append_drop]
    · obtain ⟨m, rfl⟩ : ∃ m, n = p.bytes.length + m := ⟨n - p.bytes.length, by omega⟩
      rw [List.take_length_add_append] at hinput
      rw [List.length_append] at hn
      obtain ⟨i, hi, conn', hlow, hhigh, hreceive, hnone⟩ :=
        ih _ (show m < (sendAll ps).length by omega) (Conn.after_input conn p _)
      refine ⟨i + 1, Nat.succ_lt_succ hi, conn', ?_, ?_, receive_succ hinput hreceive, hnone⟩
      · rw [List.take_succ_cons, hcons, List.length_append]
        omega
      · rw [List.take_succ_cons, hcons, List.length_append]
        omega

/-- A stream of packets is received packet by packet, each receive taking the bytes of one send. A
stream that is cut at any byte is received up to the packet that was cut, for which the receive
returns -1. -/
theorem recv_stream (garbage : Garbage) (ps : List Sent) :
    (∀ i ≤ ps.length, ∃ conn,
      receive garbage i (.start (sendAll ps)) = some ((ps.take i).map Sent.received, conn) ∧
        conn.input = sendAll (ps.drop i)) ∧
    ∀ n < (sendAll ps).length, ∃ i < ps.length, ∃ conn,
      (sendAll (ps.take i)).length ≤ n ∧ n < (sendAll (ps.take (i + 1))).length ∧
      receive garbage i (.start ((sendAll ps).take n)) =
        some ((ps.take i).map Sent.received, conn) ∧
      (protoRecvPacket garbage conn).1 = none := by
  constructor
  · intro i hi
    have hsplit : sendAll ps = sendAll (ps.take i) ++ sendAll (ps.drop i) := by
      rw [sendAll, sendAll, sendAll, ← List.flatMap_append, List.take_append_drop]
    have hreceive : ∃ conn, receive garbage (ps.take i).length (.start (sendAll ps)) =
        some ((ps.take i).map Sent.received, conn) ∧ conn.input = sendAll (ps.drop i) :=
      receive_sendAll (ps.take i) (.start (sendAll ps)) hsplit
    rwa [List.length_take_of_le hi] at hreceive
  · intro n hn
    exact receive_cut ps (.start ((sendAll ps).take n)) hn rfl

/-- A packet of three bytes of payload. -/
def threeBytes : Sent := ⟨0, ⟨xactoDataPkt, 0, 0, 3, 1, 2⟩, [97, 98, 99], rfl⟩

/-- Two packets, the second one cut in its payload. -/
theorem recv_stream_example : ∃ i < 2, ∃ conn,
    (sendAll ([threeBytes, threeBytes].take i)).length ≤ 36 ∧
    36 < (sendAll ([threeBytes, threeBytes].take (i + 1))).length ∧
    receive (fun _ _ => []) i (.start ((sendAll [threeBytes, threeBytes]).take 36)) =
      some (([threeBytes, threeBytes].take i).map Sent.received, conn) ∧
    (protoRecvPacket (fun _ _ => []) conn).1 = none :=
  (recv_stream (fun _ _ => []) [threeBytes, threeBytes]).2 36 (by decide +kernel)

end CLanguage.Xacto
