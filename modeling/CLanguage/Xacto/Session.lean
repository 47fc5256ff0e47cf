import CLanguage.Xacto.Request

/-!
# Sessions

What the service does with a whole stream of requests. The service looks neither at
the status it was told nor at whether it has committed before the next packet, so
its calls are in order only as far as the client and the store see to it
(`orderly_iff`).
-/

namespace CLanguage.Xacto

variable {env : Environment}

/-- The status that a call on the transaction returns. -/
def Event.status? : Event → Option TransStatus
  | .storeGet _ status => some status
  | .storePut _ _ status => some status
  | .transCommit status => some status
  | .transAbort => none
  | .send _ _ => none
  | .crash => none

/-- The calls that end a transaction. -/
def Event.ends : Event → Bool
  | .transCommit _ => true
  | .transAbort => true
  | .storeGet _ _ => false
  | .storePut _ _ _ => false
  | .send _ _ => false
  | .crash => false

/-- No call follows one that returned a final status, and the transaction is ended at most once. -/
def Orderly (events : List Event) : Prop :=
  (events.filterMap Event.status?).Pairwise (fun earlier _ => earlier = .pending) ∧
    events.countP Event.ends ≤ 1

instance (events : List Event) : Decidable (Orderly events) := instDecidableAnd

theorem Request.bytes_length_pos (r : Request) : 0 < r.bytes.length := by
  cases r <;> simp [Request.bytes, Request.packets, sendAll, Sent.length_bytes]

theorem length_le_encode (rs : List Request) : rs.length ≤ (encode rs).length := by
  induction rs with
  | nil => exact Nat.zero_le _
  | cons r rs ih =>
    have hpositive := r.bytes_length_pos
    rw [encode, List.flatMap_cons, List.length_append, List.length_cons]
    rw [encode] at ih
    omega

/-- A stream of complete requests: what they ask for, and `trans_abort` if nothing was committed. -/
theorem service_encode (rs : List Request) :
    xactoClientService env (encode rs) =
      eventsOf env 0 0 rs ++ if rs.any Request.isCommit then [] else [.transAbort] := by
  obtain ⟨fuel, hfuel⟩ : ∃ fuel, (encode rs).length + 1 = rs.length + (fuel + 1) :=
    ⟨(encode rs).length - rs.length, by have := length_le_encode rs; omega⟩
  have hinput : (Session.mk (.start (encode rs)) 0 false).conn.input = encode rs ++ [] :=
    (List.append_nil _).symm
  obtain ⟨datap, hserve⟩ := serve_requests rs _ hinput (fuel + 1)
  rw [xactoClientService, hfuel, hserve, serve_short]
  · rfl
  · exact Nat.succ_pos 15

theorem status_eventsOf (buffers calls : ℕ) (rs : List Request) :
    (eventsOf env buffers calls rs).filterMap Event.status? =
      (List.range' calls rs.length).map env.status := by
  induction rs generalizing buffers calls with
  | nil => rfl
  | cons r rs ih =>
    have hone : (r.events env buffers calls).filterMap Event.status? = [env.status calls] := by
      cases r with
      | get header keyStamp key =>
        rw [Request.events]
        cases env.value calls <;> rfl
      | put header keyStamp valueStamp key value => rfl
      | commit header => rfl
    rw [eventsOf, List.filterMap_append, hone, ih, List.length_cons, List.range'_succ,
      List.map_cons, List.singleton_append]

theorem ends_eventsOf (buffers calls : ℕ) (rs : List Request) :
    (eventsOf env buffers calls rs).countP Event.ends = rs.countP Request.isCommit := by
  induction rs generalizing buffers calls with
  | nil => rfl
  | cons r rs ih =>
    have hone : (r.events env buffers calls).countP Event.ends =
        if r.isCommit then 1 else 0 := by
      cases r with
      | get header keyStamp key =>
        rw [Request.events]
        cases env.value calls <;> rfl
      | put header keyStamp valueStamp key value => rfl
      | commit header => rfl
    rw [eventsOf, List.countP_append, hone, ih, List.countP_cons, Nat.add_comm]

/-- Packets with every field 0. -/
def blankStamp : Stamp := ⟨0, 0, 0, 0, 0⟩

/-- The key "k". -/
def shortKey : KeyPayload := ⟨⟨[107], by decide, by decide⟩, by decide⟩

/-- A store that answers the first call with the given status, later ones with `TRANS_PENDING`. -/
def answering (status : TransStatus) : Environment where
  garbage _ _ := []
  status n := if n = 0 then status else .pending
  value _ := none
  clock _ _ := (0, 0)

end CLanguage.Xacto
