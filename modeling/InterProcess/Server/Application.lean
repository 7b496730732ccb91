import InterProcess.Message.Codec
import InterProcess.Runner.Store
import InterProcess.Server.Capability

/-!
# The server

`Application::run` of the server receives one message at a time, looks its
sender up, and answers before it receives the next one. A message is handled in
one step up to the point where it calls the runner; the call goes on in steps of
the runner's only calling thread, interleaved with the workers. The sends of the
router socket are taken to succeed.

A received message has a tag that the code does not see. The reply to it is
recorded with the same tag, for statements about which message was answered.
-/

namespace InterProcess

open Transition

/-- A message that was sent to a client, in reply to the message with this tag. -/
structure Sent where
  client : Bytes
  tag : ℕ
  payload : Bytes
  deriving DecidableEq, Repr

/-- Where the server's thread is. -/
inductive ServerPc where
  /-- at `zmq::recv_multipart` -/
  | receive
  /-- in the runner, for the message with this tag -/
  | handle (client : Bytes) (tag : ℕ)
  deriving DecidableEq, Repr

/-- The server application and its runner. -/
structure Server where
  mClientExecCaps : Table Bytes UInt8 := Table.empty
  mAlgoRunner : Pool := {}
  thread : ServerPc := .receive
  sent : List Sent := []

namespace Server

inductive Label where
  /-- a message arrives -/
  | recv (client : Bytes) (payload : Bytes) (tag : ℕ)
  /-- the server's thread moves on in the runner -/
  | thread (choice : Choice)
  | worker (i : ℕ)
  deriving DecidableEq, Repr

/-- The server after `init` started `n` workers. -/
def start (n : ℕ) : Server := { mAlgoRunner := Pool.start n }

/-- The two sends of a reply. A reply that cannot be serialised is dropped. -/
def reply (s : Server) (codec : Codec) (client : Bytes) (tag : ℕ) (response : EnvelopeResp) :
    Server :=
  match codec.serializeResp response with
  | none => s
  | some payload => { s with sent := s.sent ++ [{ client, tag, payload }] }

/-- `sendBadResponse` in `Application::run`, which does not look at the result of
the serialisation. -/
@[simps] def sendBadResponse (s : Server) (codec : Codec) (client : Bytes) (tag : ℕ) : Server :=
  { s with sent := s.sent ++
    [{ client, tag, payload := (codec.serializeResp badResponse).getD [] }] }

@[simps] def register (s : Server) (client : Bytes) (funcFlags : UInt8) : Server :=
  { s with mClientExecCaps := s.mClientExecCaps.insert client funcFlags }

@[simps] def withRunner (s : Server) (pool : Pool) (thread : ServerPc) : Server :=
  { s with mAlgoRunner := pool, thread := thread }

/-- The body of the loop in `Application::run`, up to a call of the runner. -/
def recv (s : Server) (codec : Codec) (client payload : Bytes) (tag : ℕ) : Option Server :=
  match s.mClientExecCaps client with
  | none =>
      match codec.parseHandshake payload with
      | none => some (s.sendBadResponse codec client tag)
      | some handshake =>
          let funcFlags := handshake.execFunctions.toUInt8
          -- a mask that is not valid is answered with an error and stored all the same
          let s := if verifyExecCaps funcFlags then s else s.sendBadResponse codec client tag
          some (s.register client funcFlags)
  | some clientExecCaps =>
      match codec.parseReq payload with
      | none => some (s.sendBadResponse codec client tag)
      | some request =>
          match handleEnvelope request clientExecCaps with
          | .reply response => some (s.reply codec client tag response)
          | .run sreq =>
              (s.mAlgoRunner.step (.run 0 sreq)).map fun pool =>
                s.withRunner pool (.handle client tag)
          | .get greq =>
              (s.mAlgoRunner.step (.get 0 greq)).map fun pool =>
                s.withRunner pool (.handle client tag)

/-- A step of the server's thread in the runner. When the call returns, its
response goes back to the client. -/
def advance (s : Server) (codec : Codec) (choice : Choice) : Option Server :=
  match s.thread with
  | .receive => none
  | .handle client tag =>
      (s.mAlgoRunner.step (.caller 0 choice)).map fun pool =>
        match s.mAlgoRunner.callers 0 with
        | .ran _ response =>
            (s.withRunner pool .receive).reply codec client tag { resp := some (.submit response) }
        | .got _ response =>
            (s.withRunner pool .receive).reply codec client tag { resp := some (.get response) }
        | _ => s.withRunner pool (.handle client tag)

/-- One step of the server process. -/
def step (codec : Codec) (s : Server) (l : Label) : Option Server :=
  if s.mAlgoRunner.trapped then none
  else
    match l with
    | .recv client payload tag =>
        if s.thread = .receive then s.recv codec client payload tag else none
    | .thread choice => s.advance codec choice
    | .worker i =>
        (s.mAlgoRunner.step (.worker i)).map fun pool => s.withRunner pool s.thread

@[simp] theorem reply_mAlgoRunner (s : Server) (codec : Codec) (client : Bytes) (tag : ℕ)
    (response : EnvelopeResp) :
    (s.reply codec client tag response).mAlgoRunner = s.mAlgoRunner := by
  unfold reply
  split <;> rfl

@[simp] theorem reply_mClientExecCaps (s : Server) (codec : Codec) (client : Bytes) (tag : ℕ)
    (response : EnvelopeResp) :
    (s.reply codec client tag response).mClientExecCaps = s.mClientExecCaps := by
  unfold reply
  split <;> rfl

@[simp] theorem reply_thread (s : Server) (codec : Codec) (client : Bytes) (tag : ℕ)
    (response : EnvelopeResp) :
    (s.reply codec client tag response).thread = s.thread := by
  unfold reply
  split <;> rfl

def replied (codec : Codec) (client : Bytes) (tag : ℕ) (response : EnvelopeResp) : List Sent :=
  ((codec.serializeResp response).map fun payload => { client, tag, payload }).toList

@[simp] theorem reply_sent (s : Server) (codec : Codec) (client : Bytes) (tag : ℕ)
    (response : EnvelopeResp) :
    (s.reply codec client tag response).sent = s.sent ++ replied codec client tag response := by
  unfold reply replied
  cases codec.serializeResp response <;> simp

inductive Step (codec : Codec) (s : Server) : Label → Server → Prop
  | badHandshake (client payload : Bytes) (tag : ℕ) (hfree : s.thread = .receive)
      (hnew : s.mClientExecCaps client = none) (hparse : codec.parseHandshake payload = none) :
      Step codec s (.recv client payload tag) (s.sendBadResponse codec client tag)
  | accept (client payload : Bytes) (tag : ℕ) (hfree : s.thread = .receive)
      (hnew : s.mClientExecCaps client = none) (handshake : FirstHandshake)
      (hparse : codec.parseHandshake payload = some handshake)
      (hverify : verifyExecCaps handshake.execFunctions.toUInt8 = true) :
      Step codec s (.recv client payload tag)
        (s.register client handshake.execFunctions.toUInt8)
  | refuse (client payload : Bytes) (tag : ℕ) (hfree : s.thread = .receive)
      (hnew : s.mClientExecCaps client = none) (handshake : FirstHandshake)
      (hparse : codec.parseHandshake payload = some handshake)
      (hverify : verifyExecCaps handshake.execFunctions.toUInt8 = false) :
      Step codec s (.recv client payload tag)
        ((s.sendBadResponse codec client tag).register client
          handshake.execFunctions.toUInt8)
  | badRequest (client payload : Bytes) (tag : ℕ) (hfree : s.thread = .receive)
      (caps : UInt8) (hcaps : s.mClientExecCaps client = some caps)
      (hparse : codec.parseReq payload = none) :
      Step codec s (.recv client payload tag) (s.sendBadResponse codec client tag)
  | answer (client payload : Bytes) (tag : ℕ) (hfree : s.thread = .receive)
      (caps : UInt8) (hcaps : s.mClientExecCaps client = some caps) (request : EnvelopeReq)
      (hparse : codec.parseReq payload = some request) (response : EnvelopeResp)
      (hhandle : handleEnvelope request caps = .reply response) :
      Step codec s (.recv client payload tag) (s.reply codec client tag response)
  | run (client payload : Bytes) (tag : ℕ) (hfree : s.thread = .receive)
      (caps : UInt8) (hcaps : s.mClientExecCaps client = some caps) (request : EnvelopeReq)
      (hparse : codec.parseReq payload = some request) (sreq : SubmitRequest)
      (hhandle : handleEnvelope request caps = .run sreq) (pool : Pool)
      (hpool : s.mAlgoRunner.step (.run 0 sreq) = some pool) :
      Step codec s (.recv client payload tag) (s.withRunner pool (.handle client tag))
  | get (client payload : Bytes) (tag : ℕ) (hfree : s.thread = .receive)
      (caps : UInt8) (hcaps : s.mClientExecCaps client = some caps) (request : EnvelopeReq)
      (hparse : codec.parseReq payload = some request) (greq : GetRequest)
      (hhandle : handleEnvelope request caps = .get greq) (pool : Pool)
      (hpool : s.mAlgoRunner.step (.get 0 greq) = some pool) :
      Step codec s (.recv client payload tag) (s.withRunner pool (.handle client tag))
  | think (client : Bytes) (tag : ℕ) (choice : Choice) (hbusy : s.thread = .handle client tag)
      (pool : Pool) (hpool : s.mAlgoRunner.step (.caller 0 choice) = some pool)
      (hran : ∀ sreq response, s.mAlgoRunner.callers 0 ≠ .ran sreq response)
      (hgot : ∀ greq response, s.mAlgoRunner.callers 0 ≠ .got greq response) :
      Step codec s (.thread choice) (s.withRunner pool (.handle client tag))
  | ran (client : Bytes) (tag : ℕ) (choice : Choice) (hbusy : s.thread = .handle client tag)
      (pool : Pool) (hpool : s.mAlgoRunner.step (.caller 0 choice) = some pool)
      (sreq : SubmitRequest) (response : SubmitResponse)
      (hran : s.mAlgoRunner.callers 0 = .ran sreq response) :
      Step codec s (.thread choice) ((s.withRunner pool .receive).reply codec client tag
        { resp := some (.submit response) })
  | got (client : Bytes) (tag : ℕ) (choice : Choice) (hbusy : s.thread = .handle client tag)
      (pool : Pool) (hpool : s.mAlgoRunner.step (.caller 0 choice) = some pool)
      (greq : GetRequest) (response : GetResponse)
      (hgot : s.mAlgoRunner.callers 0 = .got greq response) :
      Step codec s (.thread choice) ((s.withRunner pool .receive).reply codec client tag
        { resp := some (.get response) })
  | worker (i : ℕ) (pool : Pool) (hpool : s.mAlgoRunner.step (.worker i) = some pool) :
      Step codec s (.worker i) (s.withRunner pool s.thread)

theorem recv_cases {codec : Codec} {s s' : Server} {client payload : Bytes} {tag : ℕ}
    (hfree : s.thread = .receive) (h : s.recv codec client payload tag = some s') :
    Step codec s (.recv client payload tag) s' := by
  unfold recv at h
  split at h
  · next hnew =>
      split at h
      · next hparse => cases h; exact .badHandshake client payload tag hfree hnew hparse
      · next handshake hparse =>
          cases hverify : verifyExecCaps handshake.execFunctions.toUInt8 with
          | true =>
              simp only [hverify, if_true, Option.some.injEq] at h
              exact h ▸ .accept client payload tag hfree hnew handshake hparse hverify
          | false =>
              simp only [hverify, Bool.false_eq_true, if_false, Option.some.injEq] at h
              exact h ▸ .refuse client payload tag hfree hnew handshake hparse hverify
  · next caps hcaps =>
      split at h
      · next hparse => cases h; exact .badRequest client payload tag hfree caps hcaps hparse
      · next request hparse =>
          split at h
          · next response hhandle =>
              cases h
              exact .answer client payload tag hfree caps hcaps request hparse response hhandle
          · next sreq hhandle =>
              obtain ⟨pool, hpool, rfl⟩ := Option.map_eq_some_iff.mp h
              exact .run client payload tag hfree caps hcaps request hparse sreq hhandle pool
                hpool
          · next greq hhandle =>
              obtain ⟨pool, hpool, rfl⟩ := Option.map_eq_some_iff.mp h
              exact .get client payload tag hfree caps hcaps request hparse greq hhandle pool
                hpool

theorem advance_cases {codec : Codec} {s s' : Server} {choice : Choice}
    (h : s.advance codec choice = some s') : Step codec s (.thread choice) s' := by
  unfold advance at h
  split at h
  · cases h
  · next client tag hbusy =>
      obtain ⟨pool, hpool, rfl⟩ := Option.map_eq_some_iff.mp h
      split
      · next sreq response hran =>
          exact .ran client tag choice hbusy pool hpool sreq response hran
      · next greq response hgot =>
          exact .got client tag choice hbusy pool hpool greq response hgot
      · next hran hgot => exact .think client tag choice hbusy pool hpool hran hgot

/-- The inversion of `Server.step`. -/
theorem step_cases {codec : Codec} {s s' : Server} {l : Label}
    (h : step codec s l = some s') : s.mAlgoRunner.trapped = false ∧ Step codec s l s' := by
  unfold step at h
  split at h
  · cases h
  · next htrap =>
      refine ⟨by simpa using htrap, ?_⟩
      cases l with
      | recv client payload tag =>
          dsimp only at h
          split at h
          · next hfree => exact recv_cases hfree h
          · cases h
      | thread choice => exact advance_cases h
      | worker i =>
          obtain ⟨pool, hpool, rfl⟩ := Option.map_eq_some_iff.mp h
          exact .worker i pool hpool

theorem recv_of_step {codec : Codec} {s s' : Server} {client payload : Bytes} {tag : ℕ}
    (h : step codec s (.recv client payload tag) = some s') :
    s.recv codec client payload tag = some s' := by
  unfold step at h
  split at h
  · cases h
  · dsimp only at h
    split at h
    · exact h
    · cases h

/-- What a step of the server is for its runner: a step of it, or nothing. -/
theorem runner_step {codec : Codec} {s s' : Server} {l : Label}
    (h : step codec s l = some s') :
    s'.mAlgoRunner = s.mAlgoRunner ∨
      ∃ m : InterProcess.Label, m.Single ∧ s.mAlgoRunner.step m = some s'.mAlgoRunner := by
  obtain ⟨-, hs⟩ := step_cases h
  cases hs with
  | badHandshake | accept | refuse | badRequest => exact Or.inl rfl
  | answer => exact Or.inl (by simp)
  | run client payload tag hfree caps hcaps request hparse sreq hhandle pool hpool =>
      exact Or.inr ⟨.run 0 sreq, rfl, hpool⟩
  | get client payload tag hfree caps hcaps request hparse greq hhandle pool hpool =>
      exact Or.inr ⟨.get 0 greq, rfl, hpool⟩
  | think client tag choice hbusy pool hpool => exact Or.inr ⟨.caller 0 choice, rfl, hpool⟩
  | ran client tag choice hbusy pool hpool => exact Or.inr ⟨.caller 0 choice, rfl, by simpa using hpool⟩
  | got client tag choice hbusy pool hpool => exact Or.inr ⟨.caller 0 choice, rfl, by simpa using hpool⟩
  | worker i pool hpool => exact Or.inr ⟨.worker i, trivial, hpool⟩

end Server

end InterProcess
