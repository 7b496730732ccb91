import InterProcess.Message.Strict
import InterProcess.Runner.Store
import InterProcess.Server.Application

/-!
# The grammar of the replies

`Reply` lists what the server can say: a ticket, an outcome of one of its operations, or a
status without a result. Whatever bytes arrive, from whomever and in whatever order, each
reply that is sent is one of these, and the client's parser reads it as it was meant. So no
client can make the server send anything that another client does not understand.

The result of a job is swapped out when it is collected, but the ticket is gone before
anybody else can ask: with one calling thread no success is ever answered without its value.
-/

namespace InterProcess

open Transition Wire

/-- What an operation that is permitted can end with. -/
inductive Outcome : Status → Result → Prop
  | int (value : Int32) : Outcome .stSuccess { value := some (.intResult value) }
  | position (value : Int32) : Outcome .stSuccess { value := some (.position value) }
  | str (value : Bytes) (hlength : value.length ≤ 32) (htext : IsText value) :
      Outcome .stSuccess { value := some (.strResult value) }
  | divByZero : Outcome .stErrorDivByZero {}
  | substrNotFound : Outcome .stErrorSubstrNotFound {}
  | stringTooLong : Outcome .stErrorStringTooLong {}

/-- What `run` can answer. -/
inductive SubmitReply : SubmitResponse → Prop
  | ticket (ticket : Ticket) :
      SubmitReply { status := .stNotFinished, ticket := some ticket }
  | outcome {status : Status} {result : Result} (h : Outcome status result) :
      SubmitReply { status, result := some result }
  | refused : SubmitReply { status := .stErrorInvalidInput }

/-- What `get` can answer. -/
inductive GetReply : GetResponse → Prop
  | notFinished : GetReply { status := .stNotFinished }
  | outcome {status : Status} {result : Result} (h : Outcome status result) :
      GetReply { status, result := some result }
  | refused : GetReply { status := .stErrorInvalidInput }

/-- What the server can send. -/
inductive Reply : EnvelopeResp → Prop
  | submit {response : SubmitResponse} (h : SubmitReply response) :
      Reply { resp := some (.submit response) }
  | get {response : GetResponse} (h : GetReply response) : Reply { resp := some (.get response) }

/-- The operation is one of the six, and the strings are well formed. -/
structure SubmitRequest.Permitted (request : SubmitRequest) : Prop where
  flag : requiredFlag request ≠ none
  texts : ∀ s ∈ request.texts, IsText s

theorem outcome_of_runMath {args : MathArgs} (hop : ∀ number h, args.op ≠ .unrecognized number h)
    {status : Status} {result : Result} (h : runMath args {} = some (status, result)) :
    Outcome status result := by
  unfold runMath at h
  cases hm : args.op with
  | mathAdd | mathSub | mathMul =>
      simp only [hm] at h
      cases h
      exact .int _
  | mathDiv =>
      simp only [hm] at h
      split at h
      · cases h
        exact .divByZero
      · obtain ⟨q, -, heq⟩ := Option.map_eq_some_iff.mp h
        cases heq
        exact .int q
  | unrecognized number hnumber => exact absurd hm (hop number hnumber)

theorem outcome_of_runStr {args : StrArgs} (hop : ∀ number h, args.op ≠ .unrecognized number h)
    (htexts : IsText args.s1 ∧ IsText args.s2) :
    Outcome (runStr args {}).1 (runStr args {}).2 := by
  unfold runStr
  cases ho : args.op with
  | strConcat =>
      dsimp only
      split
      · exact .stringTooLong
      · next hlength => exact .str _ (Nat.not_lt.mp hlength) (htexts.1.append htexts.2)
  | strFindStart =>
      dsimp only
      split
      · exact .substrNotFound
      · exact .position _
  | unrecognized number hnumber => exact absurd ho (hop number hnumber)

theorem SubmitRequest.Permitted.outcome {request : SubmitRequest} (h : request.Permitted)
    {status : Status} {result : Result} (heval : evaluate request = some (status, result)) :
    Outcome status result := by
  have hflag := h.flag
  unfold evaluate at heval
  rcases hpayload : request.payload with _ | (args | args)
  · simp [requiredFlag, hpayload] at hflag
  · simp only [hpayload] at heval
    exact outcome_of_runMath (fun number hnumber hop => hflag (by simp [requiredFlag, hpayload, hop]))
      heval
  · simp only [hpayload, Option.some.injEq] at heval
    have htexts : request.texts = [args.s1, args.s2] := by simp [SubmitRequest.texts, hpayload]
    have htext := h.texts
    rw [htexts] at htext
    have hop : ∀ number h, args.op ≠ .unrecognized number h := fun number hnumber hop =>
      hflag (by simp [requiredFlag, hpayload, hop])
    have houtcome := outcome_of_runStr hop ⟨htext args.s1 (by simp), htext args.s2 (by simp)⟩
    rwa [heval] at houtcome

/-- A reply can be serialised, and the client's parser gives it back. -/
theorem Reply.parsed {codec : Codec} (hcodec : codec.Lawful) {response : EnvelopeResp}
    (h : Reply response) :
    ∃ payload, codec.serializeResp response = some payload ∧ codec.parseResp payload = some response := by
  have houtcome : ∀ {status result}, Outcome status result →
      result.Brief ∧ ∀ s ∈ result.texts, IsText s := by
    intro status result houtcome
    cases houtcome with
    | str value hlength htext => simpa [Result.Brief, Result.texts] using ⟨hlength, htext⟩
    | _ => simp [Result.Brief, Result.texts]
  obtain ⟨case, rfl, hbrief, htexts⟩ : ∃ case : RespCase, response = { resp := some case } ∧
      case.Has Result.Brief ∧ ∀ s ∈ ({ resp := some case } : EnvelopeResp).texts, IsText s := by
    rcases h with hsubmit | hget
    · refine ⟨_, rfl, ?_⟩
      rcases hsubmit with _ | h | _
      · simp [RespCase.Has, RespCase.result, EnvelopeResp.texts]
      · simpa [RespCase.Has, RespCase.result, EnvelopeResp.texts] using houtcome h
      · simp [RespCase.Has, RespCase.result, EnvelopeResp.texts]
    · refine ⟨_, rfl, ?_⟩
      rcases hget with _ | h | _
      · simp [RespCase.Has, RespCase.result, EnvelopeResp.texts]
      · simpa [RespCase.Has, RespCase.result, EnvelopeResp.texts] using houtcome h
      · simp [RespCase.Has, RespCase.result, EnvelopeResp.texts]
  obtain ⟨payload, hpayload⟩ := Option.ne_none_iff_exists'.mp (hcodec.brief case hbrief)
  exact ⟨payload, hpayload, by rw [hcodec.resp _ _ hpayload, if_pos htexts]⟩

/-- What the thread is about to answer is a reply. -/
def CallerPc.Speaks : CallerPc → Prop
  | .run request => request.Permitted
  | .ran _ response => SubmitReply response
  | .erase _ response | .got _ response => GetReply response
  | _ => True

theorem CallerPc.speaks_notified (job : JobRef) (pc : CallerPc) :
    (pc.notified job).Speaks ↔ pc.Speaks :=
  iff_of_eq (notified_congr Speaks (fun _ _ => rfl) job pc)

namespace Pool

variable {p p' : Pool}

/-- The threads are about to answer replies, and the jobs are permitted. -/
structure Speaking (p : Pool) : Prop where
  callers : ∀ c, (p.callers c).Speaks
  records : ∀ j ∈ p.heap, j.req.Permitted

theorem speaking_start (n : ℕ) : (start n).Speaking := ⟨fun _ => trivial, by simp [start]⟩

theorem Speaking.move (h : p.Speaking) {c : ℕ} {pc : CallerPc}
    (hcallers : p'.callers = Function.update p.callers c pc) (hpc : pc.Speaks)
    (hrecords : ∀ j ∈ p'.heap, j.req.Permitted) : p'.Speaking where
  callers d := by
    rw [hcallers, Function.update_apply]
    split
    · exact hpc
    · exact h.callers d
  records := hrecords

theorem Serial.outcome (h : p.Serial) (hspeaking : p.Speaking) {request : GetRequest} {job : JobRef}
    {j : Job} (hlooks : (p.callers 0).looks = some (request, job)) (hj : p.heap[job]? = some j)
    (hdone : j.done = true) : Outcome j.status j.result := by
  have hjob := (h.looked request job hlooks).2
  have herases : (p.callers 0).erases ≠ some request.reqId := by
    cases hpc : p.callers 0 <;> simp_all [CallerPc.looks, CallerPc.erases]
  have heval := h.published request.reqId job j (Or.inl hjob) hj hdone herases
  exact (hspeaking.records j (List.mem_of_getElem? hj)).outcome heval

theorem speaking_callerStep (h : p.Speaking) (hserial : p.Serial) {choice : Choice}
    (hc : CallerStep p 0 choice p') : p'.Speaking := by
  have hhere := h.callers 0
  cases hc with
  | trap => exact ⟨h.callers, h.records⟩
  | blocking request hpc hmode response heval =>
      rw [hpc] at hhere
      rw [runBlocking_eq] at heval
      obtain ⟨⟨status, result⟩, hout, rfl⟩ := Option.map_eq_some_iff.mp heval
      exact h.move rfl (.outcome (SubmitRequest.Permitted.outcome hhere hout)) h.records
  | enqueue request hpc =>
      rw [hpc] at hhere
      refine h.move rfl trivial fun j hj => ?_
      rcases List.mem_append.mp hj with hold | hnew
      · exact h.records j hold
      · rw [List.mem_singleton.mp hnew]
        exact hhere
  | refuse => exact h.move rfl SubmitReply.refused h.records
  | signal => exact h.move rfl (.ticket _) h.records
  | findNone | findBadMode => exact h.move rfl GetReply.refused h.records
  | notFinished => exact h.move rfl GetReply.notFinished h.records
  | consume request job hpc j hj hdone =>
      have hlooks : (p.callers 0).looks = some (request, job) := by
        rcases hpc with hpc | ⟨timeout, hpc⟩ <;> rw [hpc] <;> rfl
      exact h.move rfl (.outcome (hserial.outcome h hlooks hj hdone))
        (forall_req_modify (P := SubmitRequest.Permitted) h.records job fun _ => rfl)
  | erase request response hpc =>
      rw [hpc] at hhere
      exact h.move rfl hhere h.records
  | stopTest =>
      refine h.move rfl ?_ h.records
      split <;> trivial
  | _ => exact h.move rfl trivial h.records

theorem speaking_step (h : p.Speaking) (hserial : p.Serial) {l : Label} (hl : l.Single)
    (hrequest : ∀ c request, l = .run c request → request.Permitted) (hs : p.step l = some p') :
    p'.Speaking := by
  obtain ⟨-, hs⟩ := step_cases hs
  cases hs with
  | run c request => exact h.move rfl (hrequest c request rfl) h.records
  | get | deinit => exact h.move rfl trivial h.records
  | caller c choice hc =>
      obtain rfl : c = 0 := hl
      exact speaking_callerStep h hserial hc
  | worker i hw =>
      cases hw with
      | publish job =>
          exact ⟨h.callers, forall_req_modify (P := SubmitRequest.Permitted) h.records job fun _ => rfl⟩
      | notify job => exact ⟨fun c => (CallerPc.speaks_notified job _).mpr (h.callers c), h.records⟩
      | _ => exact ⟨h.callers, h.records⟩

/-- What holds of the runner under its single calling thread. -/
structure Fluent (p : Pool) : Prop where
  ticketed : p.Ticketed
  computed : p.Computed
  serial : p.Serial
  speaking : p.Speaking

theorem fluent_start (n : ℕ) : (start n).Fluent :=
  ⟨ticketed_start n, computed_start n, serial_start n, speaking_start n⟩

theorem fluent_step (h : p.Fluent) {l : Label} (hl : l.Single)
    (hrequest : ∀ c request, l = .run c request → request.Permitted) (hs : p.step l = some p') :
    p'.Fluent :=
  ⟨ticketed_step p l p' h.ticketed hs, computed_step p l p' h.computed hs,
    serial_step h.serial h.ticketed h.computed hl hs, speaking_step h.speaking h.serial hl hrequest hs⟩

end Pool

namespace Server

/-- What was sent can be read, and is a reply of the grammar. -/
def Legible (codec : Codec) (sent : Sent) : Prop :=
  ∃ response, codec.parseResp sent.payload = some response ∧ Reply response

theorem legible_replied {codec : Codec} (hcodec : codec.Lawful) {response : EnvelopeResp}
    (h : Reply response) (client : Bytes) (tag : ℕ) :
    ∀ r ∈ replied codec client tag response, Legible codec r := by
  obtain ⟨payload, hpayload, hparse⟩ := h.parsed hcodec
  simp only [replied, hpayload, Option.map_some, Option.toList_some, List.mem_singleton, forall_eq]
  exact ⟨response, hparse, h⟩

theorem legible_badResponse {codec : Codec} (hcodec : codec.Lawful) (client : Bytes) (tag : ℕ) :
    Legible codec ⟨client, tag, (codec.serializeResp badResponse).getD []⟩ := by
  have hreply : Reply badResponse := .get .refused
  obtain ⟨payload, hpayload, hparse⟩ := hreply.parsed hcodec
  exact ⟨badResponse, by rw [hpayload]; exact hparse, hreply⟩

/-- The runner is as it should be, and all that was sent is legible. -/
structure Articulate (codec : Codec) (s : Server) : Prop where
  runner : s.mAlgoRunner.Fluent
  sent : ∀ r ∈ s.sent, Legible codec r

variable {codec : Codec} {s s' : Server}

theorem Articulate.send (h : s.Articulate codec) (hrunner : s'.mAlgoRunner.Fluent) (more : List Sent)
    (hsent : s'.sent = s.sent ++ more) (hmore : ∀ r ∈ more, Legible codec r) :
    s'.Articulate codec := by
  refine ⟨hrunner, fun r hr => ?_⟩
  rw [hsent] at hr
  rcases List.mem_append.mp hr with hold | hnew
  · exact h.sent r hold
  · exact hmore r hnew

theorem articulate_step (hcodec : codec.Lawful) (hstrict : codec.Strict) (s : Server) (l : Label)
    (s' : Server) (h : s.Articulate codec) (hstep : step codec s l = some s') :
    s'.Articulate codec := by
  have hbad : ∀ client tag, ∀ r ∈ [(⟨client, tag, (codec.serializeResp badResponse).getD []⟩ : Sent)],
      Legible codec r := by
    simpa using legible_badResponse hcodec
  have hquiet : ∀ {m pool}, s.mAlgoRunner.step m = some pool → m.Single →
      (∀ c request, m ≠ .run c request) → pool.Fluent := fun hpool hm hrun =>
    Pool.fluent_step h.runner hm (fun c request heq => absurd heq (hrun c request)) hpool
  obtain ⟨-, hs⟩ := step_cases hstep
  cases hs with
  | badHandshake | badRequest => exact h.send h.runner _ rfl (hbad _ _)
  | accept => exact ⟨h.runner, h.sent⟩
  | refuse => exact h.send h.runner _ rfl (hbad _ _)
  | answer client payload tag hfree caps hcaps request hparse response hhandle =>
      have hreply : Reply response := by
        unfold handleEnvelope at hhandle
        rcases hreq : request.req with _ | (sreq | greq)
        · simp only [hreq, Handling.reply.injEq] at hhandle
          exact hhandle ▸ .get .refused
        · simp only [hreq] at hhandle
          split at hhandle
          · cases hhandle
          · exact Handling.reply.inj hhandle ▸ .submit .refused
        · simp [hreq] at hhandle
      exact h.send (by simpa using h.runner) _ (reply_sent ..) (legible_replied hcodec hreply _ _)
  | run client payload tag hfree caps hcaps request hparse sreq hhandle pool hpool =>
      obtain ⟨hreq, hcap⟩ := handleEnvelope_eq_run.mp hhandle
      have hpermitted : sreq.Permitted := by
        refine ⟨fun hnone => ?_, ?_⟩
        · simp [clientHasCapabilityFor, hnone] at hcap
        · simpa [EnvelopeReq.texts, hreq] using hstrict payload request hparse
      refine ⟨Pool.fluent_step h.runner ?_ ?_ hpool, h.sent⟩
      · rfl
      · rintro c request ⟨⟩
        exact hpermitted
  | get _ _ _ _ _ _ _ _ _ _ pool hpool => exact ⟨hquiet hpool rfl (by simp), h.sent⟩
  | think _ _ choice _ pool hpool => exact ⟨hquiet hpool rfl (by simp), h.sent⟩
  | worker i pool hpool => exact ⟨hquiet hpool trivial (by simp), h.sent⟩
  | ran client tag choice _ pool hpool sreq response hran =>
      have hspeaks := h.runner.speaking.callers 0
      rw [hran] at hspeaks
      exact h.send (by simpa using hquiet hpool rfl (by simp)) _ (reply_sent ..)
        (legible_replied hcodec (.submit hspeaks) client tag)
  | got client tag choice _ pool hpool greq response hgot =>
      have hspeaks := h.runner.speaking.callers 0
      rw [hgot] at hspeaks
      exact h.send (by simpa using hquiet hpool rfl (by simp)) _ (reply_sent ..)
        (legible_replied hcodec (.get hspeaks) client tag)

/-- Whatever bytes arrive, every message that the server sends is a reply of the grammar, and
the client's parser reads it. -/
theorem replies_understood (codec : Codec) (hcodec : codec.Lawful) (hstrict : codec.Strict) (n : ℕ)
    (ls : List Label) (s : Server) (hrun : run (step codec) (start n) ls = some s) :
    ∀ r ∈ s.sent, ∃ response, codec.parseResp r.payload = some response ∧ Reply response :=
  (run_invariant (articulate_step hcodec hstrict) ⟨Pool.fluent_start n, by simp [start]⟩ hrun).sent

/-- A stranger sends garbage, and a client has two strings concatenated. -/
def garbageSchedule : List Label :=
  [.recv [66] [255] 0, .recv [65] (sentHandshake 63) 0,
    .recv [65] (sentSubmit
      { payload := some (.str { op := .strConcat, s1 := [72], s2 := [105] }) }) 1,
    .thread {}, .thread {}]

theorem replies_understood_garbage :
    ∃ s, run (step wireCodec) (start 1) garbageSchedule = some s ∧ s.sent.length = 2 ∧
      ∀ r ∈ s.sent, ∃ response, wireCodec.parseResp r.payload = some response ∧ Reply response := by
  obtain ⟨s, hs, htest⟩ := exists_of_run_any (step wireCodec) (start 1) garbageSchedule
    (fun s => s.sent.length = 2) (by decide +kernel)
  exact ⟨s, hs, by simpa using htest,
    replies_understood wireCodec wireCodec_lawful wireCodec_strict 1 _ s hs⟩

end Server

end InterProcess
