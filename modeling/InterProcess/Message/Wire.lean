import InterProcess.Message.Codec

/-!
# The messages on the wire

The reader and the writer of each message of `protos/ipc.proto`. A reader gets the
fields one by one: a field with a number or a wire type it does not know is
skipped, a scalar overrides what was read before, a submessage is merged into it,
and a case of a `oneof` replaces another case. A string must be UTF-8 for the
reader, not for the writer.

`wireCodec` is the codec of the program, and `wireCodec_lawful` says that it
loses nothing.
-/

namespace InterProcess

open Wire

/-! ### Numbers and enums -/

/-- An `int32` is a varint of its 64-bit two's complement. -/
def int32 (value : Int32) : ℕ := value.toInt64.toUInt64.toNat

def readInt32 (value : ℕ) : Int32 := (UInt32.ofNat value).toInt32

theorem readInt32_int32 (value : Int32) : readInt32 (int32 value) = value := by
  rw [readInt32, int32, ← Int32.toBitVec_inj]
  apply BitVec.eq_of_getLsbD_eq
  intro i hi
  simp [hi, BitVec.getLsbD_signExtend]
  omega

theorem int32_lt (value : Int32) : int32 value < 2 ^ 64 := UInt64.toNat_lt _

theorem eq_zero_of_int32 {value : Int32} (h : int32 value = 0) : value = 0 := by
  rw [← readInt32_int32 value, h]
  rfl

/-- An open enum: its values and their numbers. -/
class OpenEnum (E : Type) [Inhabited E] where
  number : E → Int32
  ofNumber : Int32 → E
  ofNumber_number : ∀ e, ofNumber (number e) = e
  ofNumber_zero : ofNumber 0 = default

instance : OpenEnum MathOp where
  number
    | .mathAdd => 0
    | .mathSub => 1
    | .mathMul => 2
    | .mathDiv => 3
    | .unrecognized number _ => number
  ofNumber number :=
    if h : number < 0 ∨ 3 < number then .unrecognized number h
    else if number = 0 then .mathAdd
    else if number = 1 then .mathSub
    else if number = 2 then .mathMul
    else .mathDiv
  ofNumber_number
    | .mathAdd | .mathSub | .mathMul | .mathDiv => by decide
    | .unrecognized _ h => by simp [h]
  ofNumber_zero := by decide

instance : OpenEnum StrOp where
  number
    | .strConcat => 0
    | .strFindStart => 1
    | .unrecognized number _ => number
  ofNumber number :=
    if h : number < 0 ∨ 1 < number then .unrecognized number h
    else if number = 0 then .strConcat
    else .strFindStart
  ofNumber_number
    | .strConcat | .strFindStart => by decide
    | .unrecognized _ h => by simp [h]
  ofNumber_zero := by decide

instance : OpenEnum Status where
  number
    | .stSuccess => 0
    | .stErrorInvalidInput => 1
    | .stErrorDivByZero => 2
    | .stErrorSubstrNotFound => 3
    | .stErrorStringTooLong => 4
    | .stErrorInternal => 5
    | .stNotFinished => 6
    | .unrecognized number _ => number
  ofNumber number :=
    if h : number < 0 ∨ 6 < number then .unrecognized number h
    else if number = 0 then .stSuccess
    else if number = 1 then .stErrorInvalidInput
    else if number = 2 then .stErrorDivByZero
    else if number = 3 then .stErrorSubstrNotFound
    else if number = 4 then .stErrorStringTooLong
    else if number = 5 then .stErrorInternal
    else .stNotFinished
  ofNumber_number
    | .stSuccess | .stErrorInvalidInput | .stErrorDivByZero | .stErrorSubstrNotFound
    | .stErrorStringTooLong | .stErrorInternal | .stNotFinished => by decide
    | .unrecognized _ h => by simp [h]
  ofNumber_zero := by decide

instance : OpenEnum SubmitMode where
  number
    | .blocking => 0
    | .nonblocking => 1
    | .unrecognized number _ => number
  ofNumber number :=
    if h : number < 0 ∨ 1 < number then .unrecognized number h
    else if number = 0 then .blocking
    else .nonblocking
  ofNumber_number
    | .blocking | .nonblocking => by decide
    | .unrecognized _ h => by simp [h]
  ofNumber_zero := by decide

instance : OpenEnum GetWaitMode where
  number
    | .noWait => 0
    | .waitUpTo => 1
    | .unrecognized number _ => number
  ofNumber number :=
    if h : number < 0 ∨ 1 < number then .unrecognized number h
    else if number = 0 then .noWait
    else .waitUpTo
  ofNumber_number
    | .noWait | .waitUpTo => by decide
    | .unrecognized _ h => by simp [h]
  ofNumber_zero := by decide

section

variable {E : Type} [Inhabited E] [OpenEnum E]

def enum (e : E) : ℕ := int32 (OpenEnum.number e)

def readEnum (value : ℕ) : E := OpenEnum.ofNumber (readInt32 value)

theorem readEnum_enum (e : E) : (readEnum (enum e) : E) = e := by
  rw [readEnum, enum, readInt32_int32, OpenEnum.ofNumber_number]

theorem eq_default_of_enum {e : E} (h : enum e = 0) : e = default := by
  rw [← OpenEnum.ofNumber_number e, eq_zero_of_int32 h, OpenEnum.ofNumber_zero]

theorem legal_enum {number : ℕ} (e : E) (hpos : 0 < number) (hlt : number < 2 ^ 29) :
    ∀ f ∈ uint number (enum e), f.Legal :=
  legal_uint hpos hlt (int32_lt _)

end

/-! ### The fields of each message -/

def MathArgs.fields (args : MathArgs) : List Field :=
  uint 1 (enum args.op) ++ uint 2 (int32 args.a) ++ uint 3 (int32 args.b)

def StrArgs.fields (args : StrArgs) : List Field :=
  uint 1 (enum args.op) ++ text 2 args.s1 ++ text 3 args.s2

/-- A case of a `oneof` is written also when it is zero or empty. -/
def Result.fields (result : Result) : List Field :=
  match result.value with
  | none => []
  | some (.intResult value) => [⟨1, .varint (int32 value)⟩]
  | some (.position value) => [⟨2, .varint (int32 value)⟩]
  | some (.strResult value) => [⟨3, .bytes value⟩]

def Ticket.fields (ticket : Ticket) : List Field := uint 1 ticket.reqId.toNat

/-- The field of a submessage, if it is there. -/
def submessage {M : Type} (number : ℕ) (fs : M → List Field) (message : Option M) :
    List Field :=
  (message.map fun m => nested number (fs m)).getD []

def SubmitRequest.fields (request : SubmitRequest) : List Field :=
  uint 1 (enum request.mode) ++
    match request.payload with
    | none => []
    | some (.math args) => nested 10 args.fields
    | some (.str args) => nested 11 args.fields

def SubmitResponse.fields (response : SubmitResponse) : List Field :=
  uint 1 (enum response.status) ++ submessage 2 Ticket.fields response.ticket ++
    submessage 3 Result.fields response.result

def GetRequest.fields (request : GetRequest) : List Field :=
  submessage 1 Ticket.fields request.ticket ++ uint 2 (enum request.waitMode) ++
    uint 3 request.timeoutMs.toNat

def GetResponse.fields (response : GetResponse) : List Field :=
  uint 1 (enum response.status) ++ submessage 2 Result.fields response.result

def FirstHandshake.fields (handshake : FirstHandshake) : List Field :=
  text 1 handshake.clientName ++ uint 2 handshake.execFunctions.toNat

def EnvelopeReq.fields (request : EnvelopeReq) : List Field :=
  match request.req with
  | none => []
  | some (.submit submit) => nested 1 submit.fields
  | some (.get get) => nested 2 get.fields

def EnvelopeResp.fields (response : EnvelopeResp) : List Field :=
  match response.resp with
  | none => []
  | some (.submit submit) => nested 1 submit.fields
  | some (.get get) => nested 2 get.fields

/-! ### One field of each message -/

def MathArgs.step (args : MathArgs) : Field → Option MathArgs
  | ⟨1, .varint value⟩ => some { args with op := readEnum value }
  | ⟨2, .varint value⟩ => some { args with a := readInt32 value }
  | ⟨3, .varint value⟩ => some { args with b := readInt32 value }
  | _ => some args

def StrArgs.step (args : StrArgs) : Field → Option StrArgs
  | ⟨1, .varint value⟩ => some { args with op := readEnum value }
  | ⟨2, .bytes value⟩ => if IsText value then some { args with s1 := value } else none
  | ⟨3, .bytes value⟩ => if IsText value then some { args with s2 := value } else none
  | _ => some args

def Result.step (result : Result) : Field → Option Result
  | ⟨1, .varint value⟩ => some { value := some (.intResult (readInt32 value)) }
  | ⟨2, .varint value⟩ => some { value := some (.position (readInt32 value)) }
  | ⟨3, .bytes value⟩ => if IsText value then some { value := some (.strResult value) } else none
  | _ => some result

def Ticket.step (ticket : Ticket) : Field → Option Ticket
  | ⟨1, .varint value⟩ => some { reqId := UInt64.ofNat value }
  | _ => some ticket

def Payload.mathArgs : Option Payload → MathArgs
  | some (.math args) => args
  | _ => {}

def Payload.strArgs : Option Payload → StrArgs
  | some (.str args) => args
  | _ => {}

/-- `limit` bounds the depth of the messages and groups inside. -/
def SubmitRequest.step (limit : ℕ) (request : SubmitRequest) : Field → Option SubmitRequest
  | ⟨1, .varint value⟩ => some { request with mode := readEnum value }
  | ⟨10, .bytes value⟩ =>
      (merge MathArgs.step (limit - 1) (Payload.mathArgs request.payload) value).map fun args =>
        { request with payload := some (.math args) }
  | ⟨11, .bytes value⟩ =>
      (merge StrArgs.step (limit - 1) (Payload.strArgs request.payload) value).map fun args =>
        { request with payload := some (.str args) }
  | _ => some request

def SubmitResponse.step (limit : ℕ) (response : SubmitResponse) : Field → Option SubmitResponse
  | ⟨1, .varint value⟩ => some { response with status := readEnum value }
  | ⟨2, .bytes value⟩ =>
      (merge Ticket.step (limit - 1) (response.ticket.getD {}) value).map fun ticket =>
        { response with ticket := some ticket }
  | ⟨3, .bytes value⟩ =>
      (merge Result.step (limit - 1) (response.result.getD {}) value).map fun result =>
        { response with result := some result }
  | _ => some response

def GetRequest.step (limit : ℕ) (request : GetRequest) : Field → Option GetRequest
  | ⟨1, .bytes value⟩ =>
      (merge Ticket.step (limit - 1) (request.ticket.getD {}) value).map fun ticket =>
        { request with ticket := some ticket }
  | ⟨2, .varint value⟩ => some { request with waitMode := readEnum value }
  | ⟨3, .varint value⟩ => some { request with timeoutMs := UInt32.ofNat value }
  | _ => some request

def GetResponse.step (limit : ℕ) (response : GetResponse) : Field → Option GetResponse
  | ⟨1, .varint value⟩ => some { response with status := readEnum value }
  | ⟨2, .bytes value⟩ =>
      (merge Result.step (limit - 1) (response.result.getD {}) value).map fun result =>
        { response with result := some result }
  | _ => some response

def FirstHandshake.step (handshake : FirstHandshake) : Field → Option FirstHandshake
  | ⟨1, .bytes value⟩ =>
      if IsText value then some { handshake with clientName := value } else none
  | ⟨2, .varint value⟩ => some { handshake with execFunctions := UInt32.ofNat value }
  | _ => some handshake

def ReqCase.submitRequest : Option ReqCase → SubmitRequest
  | some (.submit request) => request
  | _ => {}

def ReqCase.getRequest : Option ReqCase → GetRequest
  | some (.get request) => request
  | _ => {}

def EnvelopeReq.step (limit : ℕ) (request : EnvelopeReq) : Field → Option EnvelopeReq
  | ⟨1, .bytes value⟩ =>
      (merge (SubmitRequest.step (limit - 1)) (limit - 1) (ReqCase.submitRequest request.req)
        value).map fun submit => { req := some (.submit submit) }
  | ⟨2, .bytes value⟩ =>
      (merge (GetRequest.step (limit - 1)) (limit - 1) (ReqCase.getRequest request.req)
        value).map fun get => { req := some (.get get) }
  | _ => some request

def RespCase.submitResponse : Option RespCase → SubmitResponse
  | some (.submit response) => response
  | _ => {}

def RespCase.getResponse : Option RespCase → GetResponse
  | some (.get response) => response
  | _ => {}

def EnvelopeResp.step (limit : ℕ) (response : EnvelopeResp) : Field → Option EnvelopeResp
  | ⟨1, .bytes value⟩ =>
      (merge (SubmitResponse.step (limit - 1)) (limit - 1)
        (RespCase.submitResponse response.resp) value).map fun submit =>
          { resp := some (.submit submit) }
  | ⟨2, .bytes value⟩ =>
      (merge (GetResponse.step (limit - 1)) (limit - 1) (RespCase.getResponse response.resp)
        value).map fun get => { resp := some (.get get) }
  | _ => some response

/-! ### What was written is read -/

theorem legal_submessage {M : Type} {number : ℕ} (fs : M → List Field) (message : Option M)
    (hpos : 0 < number) (hlt : number < 2 ^ 29) :
    ∀ f ∈ submessage number fs message, f.Legal := by
  cases message with
  | none => simp [submessage]
  | some m => exact legal_bytes _ hpos hlt

theorem reads_submessage {M N : Type} {step : M → Field → Option M} {number : ℕ}
    {fs : N → List Field} {message : Option N} {m m' : M} {texts : List Bytes}
    (hnone : message = none → m = m' ∧ texts = [])
    (hsome : ∀ n, message = some n → Reads step m (nested number (fs n)) texts m') :
    Reads step m (submessage number fs message) texts m' := by
  cases message with
  | none =>
      obtain ⟨rfl, rfl⟩ := hnone rfl
      exact .nil step m
  | some n => exact hsome n rfl

theorem length_inner_lt (number : ℕ) {inner fs : List Field}
    (hmem : (⟨number, .bytes (encode inner)⟩ : Field) ∈ fs)
    (hlength : (encode fs).length < 2 ^ 31) : (encode inner).length < 2 ^ 31 :=
  ((length_content_le rfl).trans (length_encode_le hmem)).trans_lt hlength

namespace MathArgs

theorem legal (args : MathArgs) : ∀ f ∈ args.fields, f.Legal :=
  legal_append (legal_append (legal_enum _ (by decide) (by decide))
    (legal_uint (by decide) (by decide) (int32_lt _)))
    (legal_uint (by decide) (by decide) (int32_lt _))

theorem reads (args : MathArgs) : Reads step {} args.fields [] args := by
  have hop : Reads step {} (uint 1 (enum args.op)) [] { op := args.op } :=
    .uint (fun h => by rw [eq_default_of_enum h]) (by simp [step, readEnum_enum])
  have ha : Reads step { op := args.op } (uint 2 (int32 args.a)) []
      { op := args.op, a := args.a } :=
    .uint (fun h => by rw [eq_zero_of_int32 h]) (by simp [step, readInt32_int32])
  have hb : Reads step { op := args.op, a := args.a } (uint 3 (int32 args.b)) [] args :=
    .uint (fun h => by rw [← eq_zero_of_int32 h]) (by simp [step, readInt32_int32])
  exact (hop.append ha).append hb

end MathArgs

namespace StrArgs

theorem legal (args : StrArgs) : ∀ f ∈ args.fields, f.Legal :=
  legal_append (legal_append (legal_enum _ (by decide) (by decide))
    (legal_text _ (by decide) (by decide))) (legal_text _ (by decide) (by decide))

theorem reads (args : StrArgs) : Reads step {} args.fields [args.s1, args.s2] args := by
  have hop : Reads step {} (uint 1 (enum args.op)) [] { op := args.op } :=
    .uint (fun h => by rw [eq_default_of_enum h]) (by simp [step, readEnum_enum])
  have hs1 : Reads step { op := args.op } (text 2 args.s1) [args.s1]
      { op := args.op, s1 := args.s1 } :=
    .text (fun h => by rw [h]) rfl
  have hs2 : Reads step { op := args.op, s1 := args.s1 } (text 3 args.s2) [args.s2] args :=
    .text (fun h => by rw [← h]) rfl
  exact (hop.append hs1).append hs2

end StrArgs

namespace Result

theorem legal (result : Result) : ∀ f ∈ result.fields, f.Legal := by
  unfold fields
  split
  · simp
  · exact legal_varint (by decide) (by decide) (int32_lt _)
  · exact legal_varint (by decide) (by decide) (int32_lt _)
  · exact legal_bytes _ (by decide) (by decide)

theorem reads (result : Result) : Reads step {} result.fields result.texts result := by
  obtain ⟨value⟩ := result
  cases value with
  | none => exact .nil step {}
  | some value =>
      cases value with
      | intResult value | position value =>
          refine .field ?_
          simp [step, readInt32_int32, texts]
      | strResult value =>
          refine .field ?_
          simp [step, texts]

end Result

namespace Ticket

theorem legal (ticket : Ticket) : ∀ f ∈ ticket.fields, f.Legal :=
  legal_uint (by decide) (by decide) (UInt64.toNat_lt _)

theorem reads (ticket : Ticket) : Reads step {} ticket.fields [] ticket :=
  .uint (fun h => by rw [show ticket = { reqId := 0 } from congrArg mk (UInt64.toNat_inj.mp h)])
    (by simp [step])

end Ticket

namespace SubmitRequest

theorem legal (request : SubmitRequest) : ∀ f ∈ request.fields, f.Legal := by
  refine legal_append (legal_enum _ (by decide) (by decide)) ?_
  split
  · simp
  · exact legal_bytes _ (by decide) (by decide)
  · exact legal_bytes _ (by decide) (by decide)

theorem reads (request : SubmitRequest) (limit : ℕ)
    (hlength : (encode request.fields).length < 2 ^ 31) :
    Reads (step limit) {} request.fields request.texts request := by
  have hmode : Reads (step limit) {} (uint 1 (enum request.mode)) [] { mode := request.mode } :=
    .uint (fun h => by rw [eq_default_of_enum h]) (by simp [step, readEnum_enum])
  refine hmode.append ?_
  obtain ⟨mode, payload⟩ := request
  cases payload with
  | none => exact .nil _ _
  | some payload =>
      cases payload with
      | math args =>
          have hshort : (encode args.fields).length < 2 ^ 31 :=
            length_inner_lt 10 (by simp [fields, nested]) hlength
          exact .nested (fun args => { mode, payload := some (.math args) })
            (merge_encode (limit - 1) args.legal hshort args.reads) rfl rfl
      | str args =>
          have hshort : (encode args.fields).length < 2 ^ 31 :=
            length_inner_lt 11 (by simp [fields, nested]) hlength
          exact .nested (fun args => { mode, payload := some (.str args) })
            (merge_encode (limit - 1) args.legal hshort args.reads) rfl rfl

end SubmitRequest

namespace SubmitResponse

theorem legal (response : SubmitResponse) : ∀ f ∈ response.fields, f.Legal :=
  legal_append (legal_append (legal_enum _ (by decide) (by decide))
    (legal_submessage _ _ (by decide) (by decide))) (legal_submessage _ _ (by decide) (by decide))

theorem reads (response : SubmitResponse) (limit : ℕ)
    (hlength : (encode response.fields).length < 2 ^ 31) :
    Reads (step limit) {} response.fields ((response.result.map Result.texts).getD [])
      response := by
  obtain ⟨status, ticket, result⟩ := response
  have hstatus : Reads (step limit) {} (uint 1 (enum status)) [] { status := status } :=
    .uint (fun h => by rw [eq_default_of_enum h]) (by simp [step, readEnum_enum])
  have hticket : Reads (step limit) { status := status } (submessage 2 Ticket.fields ticket) []
      { status := status, ticket := ticket } := by
    refine reads_submessage (fun h => ⟨by rw [h], rfl⟩) ?_
    rintro t rfl
    have hshort : (encode t.fields).length < 2 ^ 31 :=
      length_inner_lt 2 (by simp [fields, submessage, nested]) hlength
    exact .nested (fun t => { status, ticket := some t })
      (merge_encode (limit - 1) t.legal hshort t.reads) rfl rfl
  have hresult : Reads (step limit) { status := status, ticket := ticket }
      (submessage 3 Result.fields result) ((result.map Result.texts).getD [])
      { status := status, ticket := ticket, result := result } := by
    refine reads_submessage (fun h => ⟨by rw [h], by rw [h]; rfl⟩) ?_
    rintro r rfl
    have hshort : (encode r.fields).length < 2 ^ 31 :=
      length_inner_lt 3 (by simp [fields, submessage, nested]) hlength
    exact .nested (fun r => { status, ticket, result := some r })
      (merge_encode (limit - 1) r.legal hshort r.reads) rfl rfl
  exact (hstatus.append hticket).append hresult

end SubmitResponse

namespace GetRequest

theorem legal (request : GetRequest) : ∀ f ∈ request.fields, f.Legal :=
  legal_append (legal_append (legal_submessage _ _ (by decide) (by decide))
    (legal_enum _ (by decide) (by decide)))
    (legal_uint (by decide) (by decide) ((UInt32.toNat_lt _).trans (by decide)))

theorem reads (request : GetRequest) (limit : ℕ)
    (hlength : (encode request.fields).length < 2 ^ 31) :
    Reads (step limit) {} request.fields [] request := by
  obtain ⟨ticket, waitMode, timeoutMs⟩ := request
  have hticket : Reads (step limit) {} (submessage 1 Ticket.fields ticket) []
      { ticket := ticket } := by
    refine reads_submessage (fun h => ⟨by rw [h], rfl⟩) ?_
    rintro t rfl
    have hshort : (encode t.fields).length < 2 ^ 31 :=
      length_inner_lt 1 (by simp [fields, submessage, nested]) hlength
    exact .nested (fun t => { ticket := some t })
      (merge_encode (limit - 1) t.legal hshort t.reads) rfl rfl
  have hmode : Reads (step limit) { ticket := ticket } (uint 2 (enum waitMode)) []
      { ticket := ticket, waitMode := waitMode } :=
    .uint (fun h => by rw [eq_default_of_enum h]) (by simp [step, readEnum_enum])
  have htimeout : Reads (step limit) { ticket := ticket, waitMode := waitMode }
      (uint 3 timeoutMs.toNat) [] { ticket, waitMode, timeoutMs } :=
    .uint (fun h => by rw [show timeoutMs = 0 from UInt32.toNat_inj.mp h]) (by simp [step])
  exact (hticket.append hmode).append htimeout

end GetRequest

namespace GetResponse

theorem legal (response : GetResponse) : ∀ f ∈ response.fields, f.Legal :=
  legal_append (legal_enum _ (by decide) (by decide))
    (legal_submessage _ _ (by decide) (by decide))

theorem reads (response : GetResponse) (limit : ℕ)
    (hlength : (encode response.fields).length < 2 ^ 31) :
    Reads (step limit) {} response.fields ((response.result.map Result.texts).getD [])
      response := by
  obtain ⟨status, result⟩ := response
  have hstatus : Reads (step limit) {} (uint 1 (enum status)) [] { status := status } :=
    .uint (fun h => by rw [eq_default_of_enum h]) (by simp [step, readEnum_enum])
  have hresult : Reads (step limit) { status := status } (submessage 2 Result.fields result)
      ((result.map Result.texts).getD []) { status := status, result := result } := by
    refine reads_submessage (fun h => ⟨by rw [h], by rw [h]; rfl⟩) ?_
    rintro r rfl
    have hshort : (encode r.fields).length < 2 ^ 31 :=
      length_inner_lt 2 (by simp [fields, submessage, nested]) hlength
    exact .nested (fun r => { status, result := some r })
      (merge_encode (limit - 1) r.legal hshort r.reads) rfl rfl
  exact hstatus.append hresult

end GetResponse

namespace FirstHandshake

theorem legal (handshake : FirstHandshake) : ∀ f ∈ handshake.fields, f.Legal :=
  legal_append (legal_text _ (by decide) (by decide))
    (legal_uint (by decide) (by decide) ((UInt32.toNat_lt _).trans (by decide)))

theorem reads (handshake : FirstHandshake) :
    Reads step {} handshake.fields [handshake.clientName] handshake := by
  obtain ⟨clientName, execFunctions⟩ := handshake
  have hname : Reads step {} (text 1 clientName) [clientName] { clientName := clientName } :=
    .text (fun h => by rw [h]) rfl
  have hflags : Reads step { clientName := clientName } (uint 2 execFunctions.toNat) []
      { clientName, execFunctions } :=
    .uint (fun h => by rw [show execFunctions = 0 from UInt32.toNat_inj.mp h]) (by simp [step])
  exact hname.append hflags

end FirstHandshake

namespace EnvelopeReq

theorem legal (request : EnvelopeReq) : ∀ f ∈ request.fields, f.Legal := by
  unfold fields
  split
  · simp
  · exact legal_bytes _ (by decide) (by decide)
  · exact legal_bytes _ (by decide) (by decide)

theorem reads (request : EnvelopeReq) (limit : ℕ)
    (hlength : (encode request.fields).length < 2 ^ 31) :
    Reads (step limit) {} request.fields request.texts request := by
  obtain ⟨req⟩ := request
  rcases req with _ | submit | get
  · exact .nil _ _
  · have hshort : (encode submit.fields).length < 2 ^ 31 :=
      length_inner_lt 1 (by simp [fields, nested]) hlength
    exact .nested (fun submit => { req := some (.submit submit) })
      (merge_encode (limit - 1) submit.legal hshort (submit.reads _ hshort)) rfl rfl
  · have hshort : (encode get.fields).length < 2 ^ 31 :=
      length_inner_lt 2 (by simp [fields, nested]) hlength
    exact .nested (fun get => { req := some (.get get) })
      (merge_encode (limit - 1) get.legal hshort (get.reads _ hshort)) rfl rfl

end EnvelopeReq

namespace EnvelopeResp

theorem legal (response : EnvelopeResp) : ∀ f ∈ response.fields, f.Legal := by
  unfold fields
  split
  · simp
  · exact legal_bytes _ (by decide) (by decide)
  · exact legal_bytes _ (by decide) (by decide)

theorem reads (response : EnvelopeResp) (limit : ℕ)
    (hlength : (encode response.fields).length < 2 ^ 31) :
    Reads (step limit) {} response.fields response.texts response := by
  obtain ⟨resp⟩ := response
  rcases resp with _ | submit | get
  · exact .nil _ _
  · have hshort : (encode submit.fields).length < 2 ^ 31 :=
      length_inner_lt 1 (by simp [fields, nested]) hlength
    exact .nested (fun submit => { resp := some (.submit submit) })
      (merge_encode (limit - 1) submit.legal hshort (submit.reads _ hshort)) rfl rfl
  · have hshort : (encode get.fields).length < 2 ^ 31 :=
      length_inner_lt 2 (by simp [fields, nested]) hlength
    exact .nested (fun get => { resp := some (.get get) })
      (merge_encode (limit - 1) get.legal hshort (get.reads _ hshort)) rfl rfl

end EnvelopeResp

/-! ### The codec -/

/-- The depth of nesting that the parser allows. -/
def recursionLimit : ℕ := 100

/-- A message of two gigabytes or more is neither parsed nor serialised. -/
def parse {M : Type} (step : M → Field → Option M) (empty : M) (bs : Bytes) : Option M :=
  if bs.length < 2 ^ 31 then merge step recursionLimit empty bs else none

def serialize (fs : List Field) : Option Bytes :=
  if (encode fs).length < 2 ^ 31 then some (encode fs) else none

def wireCodec : Codec where
  parseHandshake := parse FirstHandshake.step {}
  parseReq := parse (EnvelopeReq.step recursionLimit) {}
  parseResp := parse (EnvelopeResp.step recursionLimit) {}
  serializeHandshake handshake := serialize handshake.fields
  serializeReq request := serialize request.fields
  serializeResp response := serialize response.fields

theorem parse_of_serialize {M : Type} {step : M → Field → Option M} {empty m : M}
    {fs : List Field} {texts : List Bytes} {bytes : Bytes} (hlegal : ∀ f ∈ fs, f.Legal)
    (hreads : (encode fs).length < 2 ^ 31 → Reads step empty fs texts m)
    (h : serialize fs = some bytes) :
    parse step empty bytes = if ∀ s ∈ texts, IsText s then some m else none := by
  unfold serialize at h
  split at h
  · next hlength =>
      obtain rfl : encode fs = bytes := Option.some.inj h
      rw [parse, if_pos hlength, merge_encode _ hlegal hlength (hreads hlength)]
  · cases h

theorem length_encode_submessage_le {M : Type} (number : ℕ) (fs : M → List Field)
    {message : Option M} {n : ℕ} (h : ∀ m, message = some m → (encode (fs m)).length ≤ n) :
    (encode (submessage number fs message)).length ≤ n + 10 := by
  cases message with
  | none => simp [submessage, encode]
  | some m => exact (length_encode_nested_le number (fs m)).trans (by have := h m rfl; omega)

theorem Result.Brief.length_le {result : Result} (h : result.Brief) :
    (encode result.fields).length ≤ 42 := by
  unfold Brief texts at h
  unfold fields
  split
  · simp [encode]
  · exact (length_encode_varint_le 1 _).trans (by decide)
  · exact (length_encode_varint_le 2 _).trans (by decide)
  · next value hvalue =>
      have hshort : value.length ≤ 32 := h value (by simp [hvalue])
      have := length_encode_bytes_le 3 value
      omega

/-- A response with short strings is not too large. -/
theorem serialize_brief {response : RespCase} (h : response.Has Result.Brief) :
    serialize (EnvelopeResp.fields { resp := some response }) ≠ none := by
  have hresult : ∀ number, (encode (submessage number Result.fields response.result)).length ≤
      42 + 10 := fun number =>
    length_encode_submessage_le number _ fun result hsome => (h result hsome).length_le
  suffices hlength : (encode (EnvelopeResp.fields { resp := some response })).length < 2 ^ 31 by
    rw [serialize, if_pos hlength]
    exact Option.some_ne_none _
  cases response with
  | submit response =>
      have hwrap := length_encode_nested_le 1 response.fields
      have hstatus := length_encode_uint_le 1 (enum response.status)
      have hticket : (encode (submessage 2 Ticket.fields response.ticket)).length ≤ 15 + 10 :=
        length_encode_submessage_le 2 _ fun ticket _ => length_encode_uint_le 1 _
      have := hresult 3
      simp only [EnvelopeResp.fields, SubmitResponse.fields, length_encode_append,
        RespCase.result] at *
      omega
  | get response =>
      have hwrap := length_encode_nested_le 2 response.fields
      have hstatus := length_encode_uint_le 1 (enum response.status)
      have := hresult 2
      simp only [EnvelopeResp.fields, GetResponse.fields, length_encode_append,
        RespCase.result] at *
      omega

theorem wireCodec_lawful : wireCodec.Lawful where
  handshake message bytes h := by
    have := parse_of_serialize message.legal (fun _ => message.reads) h
    simp only [List.mem_singleton, forall_eq] at this
    exact this
  req message bytes h := parse_of_serialize message.legal (message.reads recursionLimit) h
  resp message bytes h := parse_of_serialize message.legal (message.reads recursionLimit) h
  brief _ h := serialize_brief h

/-- The bytes of a handshake of a client called `A`. -/
def sentHandshake (execFunctions : UInt32) : Bytes :=
  (wireCodec.serializeHandshake { clientName := [65], execFunctions }).getD []

/-- The bytes of a request to submit. -/
def sentSubmit (request : SubmitRequest) : Bytes :=
  (wireCodec.serializeReq { req := some (.submit request) }).getD []

/-- The bytes of a request for the result of a ticket. -/
def sentGet (request : GetRequest) : Bytes :=
  (wireCodec.serializeReq { req := some (.get request) }).getD []

end InterProcess
