import InterProcess.Message.Basic
import InterProcess.Runner.Operations

/-!
# Capabilities

The flags of `ExecFunFlags`, the check of a handshake mask and the check of a
request against the mask of its client. `handleEnvelope` of the server is the
dispatch on a parsed request; what it passes to the runner is a value here, and
the server carries it out step by step.
-/

namespace InterProcess

namespace ExecFunFlags

def add : UInt8 := (1 : UInt8) <<< 0
def sub : UInt8 := (1 : UInt8) <<< 1
def mult : UInt8 := (1 : UInt8) <<< 2
def div : UInt8 := (1 : UInt8) <<< 3
def concat : UInt8 := (1 : UInt8) <<< 4
def findStart : UInt8 := (1 : UInt8) <<< 5

/-- `allExecFunFlags` of `verifyExecCaps`. -/
def all : UInt8 := add ||| sub ||| mult ||| div ||| concat ||| findStart

end ExecFunFlags

def verifyExecCaps (execFunFlags : UInt8) : Bool :=
  execFunFlags &&& ~~~ExecFunFlags.all == 0 && 0 < execFunFlags

/-- The `switch` on the operation in `clientHasCapabilityFor`; `none` where it
returns `false` at once. -/
def requiredFlag (sreq : SubmitRequest) : Option UInt8 :=
  match sreq.payload with
  | some (.math args) =>
      match args.op with
      | .mathAdd => some ExecFunFlags.add
      | .mathSub => some ExecFunFlags.sub
      | .mathMul => some ExecFunFlags.mult
      | .mathDiv => some ExecFunFlags.div
      | .unrecognized _ _ => none
  | some (.str args) =>
      match args.op with
      | .strConcat => some ExecFunFlags.concat
      | .strFindStart => some ExecFunFlags.findStart
      | .unrecognized _ _ => none
  | none => none

def clientHasCapabilityFor (sreq : SubmitRequest) (clientCaps : UInt8) : Bool :=
  match requiredFlag sreq with
  | none => false
  | some required => clientCaps &&& required != 0

/-- What `handleEnvelope` does with a request: it answers it, or calls the runner
and answers what that returns. -/
inductive Handling where
  | reply (response : EnvelopeResp)
  | run (sreq : SubmitRequest)
  | get (greq : GetRequest)
  deriving DecidableEq, Repr

/-- `Application::handleEnvelope` of the server. -/
def handleEnvelope (request : EnvelopeReq) (clientExecCaps : UInt8) : Handling :=
  match request.req with
  | some (.submit sreq) =>
      if clientHasCapabilityFor sreq clientExecCaps then .run sreq
      else .reply { resp := some (.submit { status := .stErrorInvalidInput }) }
  | some (.get greq) => .get greq
  | none => .reply { resp := some (.get { status := .stErrorInvalidInput }) }

/-- The reply to a message that is not understood. -/
def badResponse : EnvelopeResp := { resp := some (.get { status := .stErrorInvalidInput }) }

theorem clientHasCapabilityFor_iff {sreq : SubmitRequest} {clientCaps : UInt8} :
    clientHasCapabilityFor sreq clientCaps = true ↔
      ∃ required, requiredFlag sreq = some required ∧ clientCaps &&& required ≠ 0 := by
  unfold clientHasCapabilityFor
  cases requiredFlag sreq <;> simp

theorem payload_ne_none_of_capability {sreq : SubmitRequest} {clientCaps : UInt8}
    (h : clientHasCapabilityFor sreq clientCaps = true) : sreq.payload ≠ none := by
  intro hnone
  simp [clientHasCapabilityFor, requiredFlag, hnone] at h

theorem handleEnvelope_eq_run {request : EnvelopeReq} {clientExecCaps : UInt8}
    {sreq : SubmitRequest} :
    handleEnvelope request clientExecCaps = .run sreq ↔
      request.req = some (.submit sreq) ∧ clientHasCapabilityFor sreq clientExecCaps = true := by
  unfold handleEnvelope
  rcases request.req with _ | sreq' | greq
  · simp
  · by_cases h : clientHasCapabilityFor sreq' clientExecCaps = true
    · simp only [h, if_true, Handling.run.injEq, Option.some.injEq, ReqCase.submit.injEq]
      constructor
      · rintro rfl
        exact ⟨rfl, h⟩
      · exact fun heq => heq.1
    · simp only [h, if_false, reduceCtorEq, Option.some.injEq, ReqCase.submit.injEq, false_iff]
      rintro ⟨rfl, hcap⟩
      exact h hcap
  · simp

theorem handleEnvelope_eq_get {request : EnvelopeReq} {clientExecCaps : UInt8}
    {greq : GetRequest} :
    handleEnvelope request clientExecCaps = .get greq ↔ request.req = some (.get greq) := by
  unfold handleEnvelope
  rcases request.req with _ | sreq | greq'
  · simp
  · by_cases h : clientHasCapabilityFor sreq clientExecCaps = true <;> simp [h]
  · simp

end InterProcess
