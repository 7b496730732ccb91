import InterProcess.Server.Exit
import InterProcess.Server.Replies

/-!
# Replies that are lost

A turn of the loop brings the reply to its message if nothing throws on the way and the socket
takes both frames. `owed` lists the replies of the turns that do, `dues` those of all messages.
A turn that loses the reply to a request ends the loop; only `sendBadResponse` goes on when the
socket does not take its reply.
-/

namespace InterProcess

open Transition Exits

namespace Serving.Turn

variable {codec : Codec} {turn : Turn} {loop : Loop} {Q : Unit → Loop → Prop}

def passes (turn : Turn) (statement : Statement) : Bool := (turn.throws statement).isNone

def sends (turn : Turn) (statement : Statement) : Bool :=
  turn.passes statement && turn.taken statement

/-- What `recv_multipart` returns, if it returns. -/
def takes (turn : Turn) : Option (Bytes × Bytes) :=
  if turn.passes .recvMultipart then turn.received else none

def enters (turn : Turn) : Bool :=
  turn.passes .copyFrames && turn.passes .parseRequest && turn.passes .handleEnvelope

def replies (turn : Turn) : Bool :=
  turn.passes .serialize && turn.passes .makeFrames && turn.sends .sendId && turn.sends .sendBody

def repliesBad (turn : Turn) : Bool :=
  turn.passes .badResponse && turn.sends .sendBadId && turn.sends .sendBadBody

def delivers (codec : Codec) (turn : Turn) (registered : Bool) (payload : Bytes) : Bool :=
  match registered with
  | false => turn.passes .copyFrames && turn.passes .parseHandshake && turn.repliesBad
  | true =>
      match codec.parseReq payload with
      | none => turn.passes .copyFrames && turn.passes .parseRequest && turn.repliesBad
      | some _ => turn.enters && turn.replies

theorem delivers_of_request {payload : Bytes} (hparse : codec.parseReq payload ≠ none)
    (henters : turn.enters = true) : turn.delivers codec true payload = turn.replies := by
  obtain ⟨request, hrequest⟩ := Option.ne_none_iff_exists'.mp hparse
  simp [delivers, hrequest, henters]

theorem received_of_takes {frames : Bytes × Bytes} (h : turn.takes = some frames) :
    turn.passes .recvMultipart = true ∧ turn.received = some frames := by
  unfold takes at h
  split at h
  · next hpasses => exact ⟨hpasses, h⟩
  · cases h

/-- Nothing throws, and the socket takes what is sent. -/
structure Smooth (turn : Turn) : Prop where
  throws : ∀ statement, turn.throws statement = none
  taken : ∀ statement, turn.taken statement = true

theorem Smooth.passes (h : turn.Smooth) (statement : Statement) :
    turn.passes statement = true := by
  rw [Turn.passes, h.throws]
  rfl

theorem Smooth.sends (h : turn.Smooth) (statement : Statement) : turn.sends statement = true := by
  rw [Turn.sends, h.passes, h.taken]
  rfl

theorem Smooth.delivers (h : turn.Smooth) (registered : Bool) (payload : Bytes) :
    turn.delivers codec registered payload = true := by
  unfold Turn.delivers
  split
  · simp [repliesBad, h.passes, h.sends]
  · split <;> simp [enters, replies, repliesBad, h.passes, h.sends]

/-! ### What a body that comes to its end has done -/

theorem wp_attempt_iff (statement : Statement) :
    wp (turn.attempt statement) Q (fun _ _ => True) loop ↔
      (turn.passes statement = true → Q () loop) := by
  unfold attempt Turn.passes
  cases turn.throws statement <;> simp

theorem wp_send_iff (statement : Statement) :
    wp (turn.send statement) Q (fun _ _ => True) loop ↔
      (turn.sends statement = true → Q () loop) := by
  unfold send Turn.sends
  rw [wp_bind, wp_attempt_iff, wp_ite, wp_pure, wp_throw]
  cases turn.passes statement <;> cases turn.taken statement <;> simp

theorem wp_passes (codec : Codec) (turn : Turn) (loop : Loop) :
    wp (turn.body codec) (fun _ _ => turn.passes .recvMultipart = true) (fun _ _ => True) loop := by
  unfold body
  rw [wp_bind, wp_attempt_iff]
  exact fun hpasses => wp_of_forall (fun _ _ => hpasses) fun _ _ => trivial

theorem wp_replies (loop : Loop) {response : EnvelopeResp} (hserial : codec.serializeResp response ≠ none)
    (h : turn.replies = true → Q () loop) :
    wp (turn.reply codec response) Q (fun _ _ => True) loop := by
  obtain ⟨bytes, hbytes⟩ := Option.ne_none_iff_exists'.mp hserial
  unfold reply
  simp only [hbytes, wp_bind, wp_attempt_iff, wp_send_iff]
  intro hserialize hframes hid hbody
  exact h (by simp [Turn.replies, hserialize, hframes, hid, hbody])

/-- The body has served a request of a registered client. -/
theorem wp_request (loop : Loop) {clientId payload : Bytes} {caps : UInt8} {request : EnvelopeReq}
    (hreceived : turn.received = some (clientId, payload))
    (hcaps : loop.mClientExecCaps clientId = some caps)
    (hparse : codec.parseReq payload = some request) :
    wp (turn.body codec) (fun _ _ => turn.enters = true ∧
      (codec.serializeResp (turn.handleEnvelope request caps).2 ≠ none → turn.replies = true))
      (fun _ _ => True) loop := by
  unfold body
  rw [wp_bind, wp_attempt_iff]
  intro _
  simp only [hreceived, wp_bind, wp_attempt_iff]
  intro hcopy
  apply wp_get.mpr
  simp only [hcaps]
  unfold serve
  simp only [hparse, wp_bind, wp_attempt_iff, wp_modify]
  intro hrequest hhandle
  have henters : turn.enters = true := by simp [enters, hcopy, hrequest, hhandle]
  by_cases hserial : codec.serializeResp (turn.handleEnvelope request caps).2 = none
  · unfold reply
    rw [wp_bind, wp_attempt_iff, hserial]
    exact fun _ => ⟨henters, fun hne => absurd rfl hne⟩
  · exact wp_replies _ hserial fun hreplies => ⟨henters, fun _ => hreplies⟩

end Serving.Turn

/-- A message and the turn of the loop that receives it. -/
abbrev Arrival := Message × Serving.Turn

/-- The reply to the message, if the turn sends it. -/
def Arrival.owed (codec : Codec) (before : List Message) (a : Arrival) : List Due :=
  if a.2.delivers codec (Registered codec before a.1.client) a.1.payload then
    (a.1.due codec before).toList
  else []

/-- The replies that are sent for `as`, after the messages before them. -/
def owed (codec : Codec) : List Message → List Arrival → List Due
  | _, [] => []
  | before, a :: as => a.owed codec before ++ owed codec (before ++ [a.1]) as

/-- If the message is a request of a registered client, the turn sends the reply. -/
def Arrival.Spared (codec : Codec) (before : List Message) (a : Arrival) : Prop :=
  Registered codec before a.1.client → codec.parseReq a.1.payload ≠ none →
    a.2.delivers codec true a.1.payload = true

/-- Every request among `as` is answered. -/
def Spared (codec : Codec) : List Message → List Arrival → Prop
  | _, [] => True
  | before, a :: as => a.Spared codec before ∧ Spared codec (before ++ [a.1]) as

section History

variable {codec : Codec} {before : List Message} {a : Arrival} {as : List Arrival}

theorem owed_concat :
    owed codec before (as ++ [a]) =
      owed codec before as ++ a.owed codec (before ++ as.map Prod.fst) := by
  induction as generalizing before with
  | nil => simp [owed]
  | cons b as ih => simp [owed, ih]

theorem spared_concat :
    Spared codec before (as ++ [a]) ↔
      Spared codec before as ∧ a.Spared codec (before ++ as.map Prod.fst) := by
  induction as generalizing before with
  | nil => simp [Spared]
  | cons b as ih => simp [Spared, ih, and_assoc]

theorem Spared.dropLast (h : Spared codec before as) : Spared codec before as.dropLast := by
  rcases List.eq_nil_or_concat as with rfl | ⟨as', a, rfl⟩
  · exact h
  · rw [List.concat_eq_append, spared_concat] at h
    simpa using h.1

/-- Without exceptions and with all frames taken every message is answered. -/
theorem owed_of_smooth (h : ∀ a ∈ as, a.2.Smooth) :
    owed codec before as = dues codec before (as.map Prod.fst) := by
  induction as generalizing before with
  | nil => rfl
  | cons a as ih =>
      have hsmooth : a.2.Smooth := h a List.mem_cons_self
      simp only [owed, Arrival.owed, hsmooth.delivers, if_true, List.map_cons, dues]
      rw [ih fun b hb => h b (List.mem_cons_of_mem a hb)]

end History

end InterProcess
