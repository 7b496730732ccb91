import InterProcess.Library.Wire
import InterProcess.Message.Basic

/-!
# Parsing and serialising

The generated protobuf code, as far as the program uses it: three message types
are sent, and each is parsed on the other side. `none` is the `false` of
`ParseFromString`, `ParseFromArray` and `SerializeToString`.

The two processes take the codec as a parameter. Where a result needs to know
that messages survive the way, it asks for `Codec.Lawful`: what was serialised is
parsed as it was, unless one of its strings is not UTF-8, which only the parser
minds, and a response with short strings is serialised.
-/

namespace InterProcess

open Wire

structure Codec where
  parseHandshake : Bytes → Option FirstHandshake
  parseReq : Bytes → Option EnvelopeReq
  parseResp : Bytes → Option EnvelopeResp
  serializeHandshake : FirstHandshake → Option Bytes
  serializeReq : EnvelopeReq → Option Bytes
  serializeResp : EnvelopeResp → Option Bytes

/-! The string fields of the messages. -/

def SubmitRequest.texts (request : SubmitRequest) : List Bytes :=
  match request.payload with
  | some (.str args) => [args.s1, args.s2]
  | _ => []

def EnvelopeReq.texts (request : EnvelopeReq) : List Bytes :=
  match request.req with
  | some (.submit submit) => submit.texts
  | _ => []

def Result.texts (result : Result) : List Bytes :=
  match result.value with
  | some (.strResult value) => [value]
  | _ => []

/-- No string is longer than `runStr` allows. -/
def Result.Brief (result : Result) : Prop := ∀ s ∈ result.texts, s.length ≤ 32

def RespCase.result : RespCase → Option Result
  | .submit response => response.result
  | .get response => response.result

def EnvelopeResp.texts (response : EnvelopeResp) : List Bytes :=
  ((response.resp.bind RespCase.result).map Result.texts).getD []

/-- A result in the response has the property. -/
def RespCase.Has (P : Result → Prop) (response : RespCase) : Prop :=
  ∀ result, response.result = some result → P result

structure Codec.Lawful (codec : Codec) : Prop where
  handshake : ∀ message bytes, codec.serializeHandshake message = some bytes →
    codec.parseHandshake bytes = if IsText message.clientName then some message else none
  req : ∀ message bytes, codec.serializeReq message = some bytes →
    codec.parseReq bytes = if ∀ s ∈ message.texts, IsText s then some message else none
  resp : ∀ message bytes, codec.serializeResp message = some bytes →
    codec.parseResp bytes = if ∀ s ∈ message.texts, IsText s then some message else none
  brief : ∀ response : RespCase, response.Has Result.Brief →
    codec.serializeResp { resp := some response } ≠ none

end InterProcess
