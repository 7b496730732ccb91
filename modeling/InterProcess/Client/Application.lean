import InterProcess.Message.Codec

/-!
# The requests of the client

`sendEnvelope`, `recvEnvelope` and the three calls that are built on them. A call
sends one message and then takes the next message that the socket gives it,
whatever that answers: `Call.envelope` is what it sends, and `Call.finish` what
it returns for what it received.
-/

namespace InterProcess

/-- A call of `client::Application` with its arguments. -/
inductive Call where
  | submitBlocking (req : SubmitRequest)
  | submitNonBlocking (req : SubmitRequest)
  | getResult (ticket : Ticket) (waitMode : GetWaitMode) (timeoutMs : UInt32)
  deriving DecidableEq, Repr

/-- What a call returns: whether it is `EC_SUCCESS`, and its `out`. -/
inductive Return where
  | submit (ok : Bool) (out : SubmitResponse)
  | get (ok : Bool) (out : GetResponse)
  deriving DecidableEq, Repr

def Return.ok : Return → Bool
  | .submit ok _ | .get ok _ => ok

/-- The characters of `random_identity`. -/
def identityChar (b : UInt8) : Bool :=
  (97 ≤ b && b ≤ 122) || (65 ≤ b && b ≤ 90) || (48 ≤ b && b ≤ 57)

/-- What `random_identity` can return. -/
def IsIdentity (identity : Bytes) : Prop := identity.length = 8 ∧ identity.all identityChar

instance (identity : Bytes) : Decidable (IsIdentity identity) :=
  inferInstanceAs (Decidable (_ ∧ _))

/-- What `sendFirstHandshake` of the client with this identity sends. -/
def firstHandshake (identity : Bytes) (execFunFlags : UInt8) : FirstHandshake :=
  { clientName := identity, execFunctions := execFunFlags.toUInt32 }

/-- `sendEnvelope`: the message that it puts on the wire, or `none` if it returns
`EC_FAILURE`. `taken` says whether the socket takes the message. -/
def sendEnvelope (codec : Codec) (env : EnvelopeReq) (taken : Bool) : Option Bytes :=
  if taken then codec.serializeReq env else none

/-- `recvEnvelope`: `none` for the timeout and for a message that is not
understood. -/
def recvEnvelope (codec : Codec) (frame : Option Bytes) : Option EnvelopeResp :=
  frame.bind codec.parseResp

namespace Call

def envelope : Call → EnvelopeReq
  | .submitBlocking req => { req := some (.submit { req with mode := .blocking }) }
  | .submitNonBlocking req => { req := some (.submit { req with mode := .nonblocking }) }
  | .getResult ticket waitMode timeoutMs =>
      { req := some (.get
        { ticket := some ticket, waitMode
          timeoutMs := if waitMode = .waitUpTo then timeoutMs else 0 }) }

/-- The call looks at what `sendEnvelope` returns. `submitNonBlocking` does not. -/
def checksSend : Call → Bool
  | .submitBlocking _ | .getResult _ _ _ => true
  | .submitNonBlocking _ => false

def failed : Call → Return
  | .submitBlocking _ | .submitNonBlocking _ => .submit false { status := .stErrorInternal }
  | .getResult _ _ _ => .get false {}

def finish (codec : Codec) (call : Call) (frame : Option Bytes) : Return :=
  match recvEnvelope codec frame with
  | none => call.failed
  | some response =>
      match call, response.resp with
      | .submitBlocking _, some (.submit out) => .submit true out
      | .submitNonBlocking _, some (.submit out) => .submit true out
      | .getResult _ _ _, some (.get out) => .get true out
      | _, _ => call.failed

@[simp] theorem ok_failed (call : Call) : call.failed.ok = false := by
  cases call <;> rfl

theorem finish_none (codec : Codec) (call : Call) : call.finish codec none = call.failed := rfl

end Call

end InterProcess
