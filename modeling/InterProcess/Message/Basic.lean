import Mathlib.Data.List.Basic

/-!
# The messages of `ipc.proto`

One type for each message and enum of `protos/ipc.proto`. A proto3 enum is
open: a receiver keeps any `int32` it does not know, so each enum has an
`unrecognized` constructor whose field says that the number is not one of the
named ones. A `oneof` is an `Option` of a sum, a submessage field is an
`Option`, and a scalar field that was never set reads as its zero. A proto
`string` is a list of bytes, since nothing in the source looks at characters.
-/

namespace InterProcess

/-- The contents of a `std::string`. -/
abbrev Bytes := List UInt8

inductive MathOp where
  | mathAdd
  | mathSub
  | mathMul
  | mathDiv
  | unrecognized (number : Int32) (h : number < 0 ∨ 3 < number)
  deriving DecidableEq, Repr

inductive StrOp where
  | strConcat
  | strFindStart
  | unrecognized (number : Int32) (h : number < 0 ∨ 1 < number)
  deriving DecidableEq, Repr

inductive Status where
  | stSuccess
  | stErrorInvalidInput
  | stErrorDivByZero
  | stErrorSubstrNotFound
  | stErrorStringTooLong
  | stErrorInternal
  | stNotFinished
  | unrecognized (number : Int32) (h : number < 0 ∨ 6 < number)
  deriving DecidableEq, Repr

inductive SubmitMode where
  | blocking
  | nonblocking
  | unrecognized (number : Int32) (h : number < 0 ∨ 1 < number)
  deriving DecidableEq, Repr

inductive GetWaitMode where
  | noWait
  | waitUpTo
  | unrecognized (number : Int32) (h : number < 0 ∨ 1 < number)
  deriving DecidableEq, Repr

/-- The zero of each enum is its default. -/
instance : Inhabited MathOp := ⟨.mathAdd⟩
instance : Inhabited StrOp := ⟨.strConcat⟩
instance : Inhabited Status := ⟨.stSuccess⟩
instance : Inhabited SubmitMode := ⟨.blocking⟩
instance : Inhabited GetWaitMode := ⟨.noWait⟩

structure MathArgs where
  op : MathOp := default
  a : Int32 := 0
  b : Int32 := 0
  deriving DecidableEq, Repr

structure StrArgs where
  op : StrOp := default
  s1 : Bytes := []
  s2 : Bytes := []
  deriving DecidableEq, Repr

/-- The cases of `Result.value`. -/
inductive ResultValue where
  | intResult (value : Int32)
  | position (value : Int32)
  | strResult (value : Bytes)
  deriving DecidableEq, Repr

structure Result where
  value : Option ResultValue := none
  deriving DecidableEq, Repr

structure Ticket where
  reqId : UInt64 := 0
  deriving DecidableEq, Repr

/-- The cases of `SubmitRequest.payload`. -/
inductive Payload where
  | math (args : MathArgs)
  | str (args : StrArgs)
  deriving DecidableEq, Repr

structure SubmitRequest where
  mode : SubmitMode := default
  payload : Option Payload := none
  deriving DecidableEq, Repr

structure SubmitResponse where
  status : Status := default
  ticket : Option Ticket := none
  result : Option Result := none
  deriving DecidableEq, Repr

structure GetRequest where
  ticket : Option Ticket := none
  waitMode : GetWaitMode := default
  timeoutMs : UInt32 := 0
  deriving DecidableEq, Repr

structure GetResponse where
  status : Status := default
  result : Option Result := none
  deriving DecidableEq, Repr

structure FirstHandshake where
  clientName : Bytes := []
  execFunctions : UInt32 := 0
  deriving DecidableEq, Repr

/-- The cases of `EnvelopeReq.req`. -/
inductive ReqCase where
  | submit (request : SubmitRequest)
  | get (request : GetRequest)
  deriving DecidableEq, Repr

structure EnvelopeReq where
  req : Option ReqCase := none
  deriving DecidableEq, Repr

/-- The cases of `EnvelopeResp.resp`. -/
inductive RespCase where
  | submit (response : SubmitResponse)
  | get (response : GetResponse)
  deriving DecidableEq, Repr

structure EnvelopeResp where
  resp : Option RespCase := none
  deriving DecidableEq, Repr

/-- `request.ticket().req_id()`: an absent ticket reads as the default one. -/
def GetRequest.reqId (request : GetRequest) : UInt64 := (request.ticket.getD {}).reqId

end InterProcess
