import InterProcess.Server.Enforcement
import InterProcess.Server.Replies

/-!
# What a request to submit is answered

Whatever the clients send and whatever the clock shows, the answer to a request to submit
is determined by the request and the mask of its client, but for the number of a ticket:
the result in the blocking mode, a ticket in the other one, and `ST_ERROR_INVALID_INPUT`
where the mask does not permit it.
-/

namespace InterProcess

open Transition

def SubmitRequest.RunsTo (request : SubmitRequest) (out : SubmitResponse) : Prop :=
  match request.mode with
  | .blocking => runBlocking request = some out
  | .nonblocking => ∃ ticket, out = { status := .stNotFinished, ticket := some ticket }
  | .unrecognized _ _ => out = { status := .stErrorInvalidInput }

/-- The answer to a request of a client with this mask. -/
def SubmitRequest.AnsweredBy (request : SubmitRequest) (caps : UInt8) (out : SubmitResponse) :
    Prop :=
  if clientHasCapabilityFor request caps then request.RunsTo out
  else out = { status := .stErrorInvalidInput }

theorem answeredBy_of_reply {request : EnvelopeReq} {caps : UInt8} {response : EnvelopeResp}
    {sreq : SubmitRequest} {out : SubmitResponse} (h : handleEnvelope request caps = .reply response)
    (hreq : request.req = some (.submit sreq)) (hresp : response.resp = some (.submit out)) :
    sreq.AnsweredBy caps out := by
  unfold handleEnvelope at h
  simp only [hreq] at h
  split at h
  · cases h
  · next hcap =>
      obtain rfl := Handling.reply.inj h
      cases hresp
      rw [SubmitRequest.AnsweredBy, if_neg hcap]

/-- The thread will return the right answer. -/
def CallerPc.RunsRight : CallerPc → Prop
  | .insert request _ _ | .lockQueue request _ _ | .push request _ _ | .signal request _ _ =>
      request.mode = .nonblocking
  | .ran request response => request.payload ≠ none → request.RunsTo response
  | _ => True

theorem CallerPc.runsRight_notified (job : JobRef) (pc : CallerPc) :
    (pc.notified job).RunsRight ↔ pc.RunsRight :=
  iff_of_eq (notified_congr RunsRight (fun _ _ => rfl) job pc)

namespace Pool

variable {p p' : Pool}

theorem runsRight_step {l : InterProcess.Label} (h : (p.callers 0).RunsRight)
    (hs : p.step l = some p') : (p'.callers 0).RunsRight := by
  obtain ⟨-, hs⟩ := step_cases hs
  cases hs with
  | run c | get c | deinit c =>
      by_cases hc : 0 = c
      · subst hc
        simp [CallerPc.RunsRight]
      · simpa [Function.update_of_ne hc] using h
  | worker i hw =>
      cases hw with
      | notify job => exact (CallerPc.runsRight_notified job _).mpr h
      | _ => exact h
  | caller c choice hcall =>
      by_cases hc : 0 = c
      · subst hc
        cases hcall with
        | trap => exact h
        | blocking request hpc hmode response heval =>
            simp [CallerPc.RunsRight, SubmitRequest.RunsTo, hmode, heval]
        | refuse request hpc hmode hbad =>
            simp only [setCaller_callers, Function.update_self, CallerPc.RunsRight,
              SubmitRequest.RunsTo]
            intro hpayload
            cases hrequest : request.mode with
            | blocking => exact absurd hrequest hmode
            | nonblocking => exact absurd (hbad hrequest) hpayload
            | unrecognized => trivial
        | enqueue request hpc hmode => simpa [CallerPc.RunsRight] using hmode
        | insert request id job hpc | lockQueue request id job hpc | push request id job hpc =>
            rw [hpc] at h
            simpa [CallerPc.RunsRight] using h
        | signal request id job hpc =>
            rw [hpc] at h
            have hmode : request.mode = .nonblocking := h
            simp [CallerPc.RunsRight, SubmitRequest.RunsTo, hmode]
        | stopTest =>
            simp only [setCaller_callers, Function.update_self]
            split <;> trivial
        | consume => simp [Pool.consume, CallerPc.RunsRight]
        | _ => simp [CallerPc.RunsRight]
      · cases hcall <;> simpa [Pool.consume, Function.update_of_ne hc] using h

end Pool

namespace Server

variable {codec : Codec} {s s' : Server} {ms : List Message} {l : Label}

/-- If the message is a request to submit and the response one to such a request, it is the
right one. -/
structure Answers (codec : Codec) (s : Server) (m : Message) (response : EnvelopeResp) : Prop where
  bad : codec.parseReq m.payload = none → response = badResponse
  right : ∀ request sreq out, codec.parseReq m.payload = some request →
    request.req = some (.submit sreq) → response.resp = some (.submit out) →
      ∃ caps, s.mClientExecCaps m.client = some caps ∧ sreq.AnsweredBy caps out

def Replies (codec : Codec) (ms : List Message) (s : Server) (r : Sent) : Prop :=
  ∃ payload response, ⟨r.client, payload, r.tag⟩ ∈ ms ∧
    codec.serializeResp response = some r.payload ∧
      Answers codec s ⟨r.client, payload, r.tag⟩ response

/-- The server's thread is in the runner for this message, a request that is permitted. -/
def InRunner (codec : Codec) (s : Server) (m : Message) : Prop :=
  ∃ request caps, codec.parseReq m.payload = some request ∧
    (s.mAlgoRunner.callers 0).req = request.req ∧ s.mClientExecCaps m.client = some caps ∧
      ∀ sreq, request.req = some (.submit sreq) → clientHasCapabilityFor sreq caps = true

/-- Where the replies come from. -/
structure Answering (codec : Codec) (ms : List Message) (s : Server) : Prop where
  sent : ∀ r ∈ s.sent, Replies codec ms s r
  busy : ∀ client tag, s.thread = .handle client tag →
    ∃ payload, ⟨client, payload, tag⟩ ∈ ms ∧ InRunner codec s ⟨client, payload, tag⟩
  right : (s.mAlgoRunner.callers 0).RunsRight

theorem answering_start (codec : Codec) (n : ℕ) : Answering codec [] (start n) where
  sent r hr := (List.not_mem_nil hr).elim
  busy client tag h := by cases h
  right := trivial

theorem Answers.later {m : Message} {response : EnvelopeResp} (h : Answers codec s m response)
    (hstep : step codec s l = some s') : Answers codec s' m response := by
  refine ⟨h.bad, fun request sreq out hparse hreq hresp => ?_⟩
  obtain ⟨caps, hcaps, hanswered⟩ := h.right request sreq out hparse hreq hresp
  exact ⟨caps, caps_step hstep hcaps, hanswered⟩

theorem answers_bad (m : Message) : Answers codec s m badResponse := by
  refine ⟨fun _ => rfl, fun request sreq out _ _ hresp => ?_⟩
  cases hresp

theorem Replies.of_replied {client payload : Bytes} {tag : ℕ} {response : EnvelopeResp} {r : Sent}
    (hr : r ∈ replied codec client tag response) (hm : ⟨client, payload, tag⟩ ∈ ms)
    (h : Answers codec s ⟨client, payload, tag⟩ response) : Replies codec ms s r := by
  obtain ⟨bytes, hbytes, rfl⟩ := Option.map_eq_some_iff.mp (Option.mem_toList.mp hr)
  exact ⟨payload, response, hm, hbytes, h⟩

theorem Answering.next (h : Answering codec ms s) (hstep : step codec s l = some s')
    {more : List Sent} (hsent : s'.sent = s.sent ++ more)
    (hmore : ∀ r ∈ more, Replies codec (ms ++ l.message.toList) s' r)
    (hbusy : ∀ client tag, s'.thread = .handle client tag →
      ∃ payload, ⟨client, payload, tag⟩ ∈ ms ++ l.message.toList ∧
        InRunner codec s' ⟨client, payload, tag⟩) :
    Answering codec (ms ++ l.message.toList) s' := by
  refine ⟨fun r hr => ?_, hbusy, ?_⟩
  · rw [hsent] at hr
    rcases List.mem_append.mp hr with hold | hnew
    · obtain ⟨payload, response, hm, hpayload, hanswers⟩ := h.sent r hold
      exact ⟨payload, response, List.mem_append_left _ hm, hpayload, hanswers.later hstep⟩
    · exact hmore r hnew
  · rcases runner_step hstep with hsame | ⟨k, -, hpool⟩
    · rw [hsame]
      exact h.right
    · exact Pool.runsRight_step h.right hpool

theorem Answering.think (h : Answering codec ms s) (hstep : step codec s l = some s') {pool : Pool}
    (hs' : s' = s.withRunner pool s.thread)
    (hreq : (pool.callers 0).req = (s.mAlgoRunner.callers 0).req) :
    Answering codec (ms ++ l.message.toList) s' := by
  subst hs'
  refine h.next hstep (List.append_nil _).symm (fun r hr => (List.not_mem_nil hr).elim) ?_
  intro client tag hbusy
  obtain ⟨payload, hm, request, caps, hparse, hsame, hrest⟩ := h.busy client tag hbusy
  exact ⟨payload, List.mem_append_left _ hm, request, caps, hparse, hreq.trans hsame, hrest⟩

theorem Answering.return (h : Answering codec ms s) {choice : Choice} {client : Bytes} {tag : ℕ}
    {pool : Pool} {response : EnvelopeResp} (hbusy : s.thread = .handle client tag)
    (hstep : step codec s (.thread choice) =
      some ((s.withRunner pool .receive).reply codec client tag response))
    (hright : ∀ sreq out, (s.mAlgoRunner.callers 0).req = some (.submit sreq) →
      response.resp = some (.submit out) → sreq.payload ≠ none → sreq.RunsTo out) :
    Answering codec (ms ++ (Label.thread choice).message.toList)
      ((s.withRunner pool .receive).reply codec client tag response) := by
  refine h.next hstep (reply_sent _ _ _ _ _) (fun r hr => ?_) ?_
  · obtain ⟨payload, hm, request, caps, hparse, hreq, hcaps, hcap⟩ := h.busy client tag hbusy
    refine Replies.of_replied hr (List.mem_append_left _ hm) ⟨fun hnone => ?_, ?_⟩
    · simp [hparse] at hnone
    intro request' sreq out hparse' hreq' hresp
    obtain rfl := Option.some.inj (hparse.symm.trans hparse')
    refine ⟨caps, caps_step hstep hcaps, ?_⟩
    rw [SubmitRequest.AnsweredBy, if_pos (hcap sreq hreq')]
    exact hright sreq out (hreq.trans hreq') hresp (payload_ne_none_of_capability (hcap sreq hreq'))
  · simp

theorem answering_step (hcodec : codec.Lawful) (h : Answering codec ms s) (hstep : step codec s l = some s') :
    Answering codec (ms ++ l.message.toList) s' := by
  have hs := (step_cases hstep).2
  have hidle : ∀ {t : Server}, t.thread = .receive → ∀ client tag, t.thread = .handle client tag →
      ∃ payload, ⟨client, payload, tag⟩ ∈ ms ++ l.message.toList ∧
        InRunner codec t ⟨client, payload, tag⟩ := by
    intro t hfree client tag hbusy
    simp [hfree] at hbusy
  have hbad : ∀ {client payload : Bytes} {tag : ℕ}, ⟨client, payload, tag⟩ ∈ l.message →
      ∀ r ∈ [(⟨client, tag, (codec.serializeResp badResponse).getD []⟩ : Sent)],
        Replies codec (ms ++ l.message.toList) s' r := by
    intro client payload tag hm r hr
    obtain rfl := List.mem_singleton.mp hr
    obtain ⟨bytes, hbytes⟩ : ∃ bytes, codec.serializeResp badResponse = some bytes :=
      Option.ne_none_iff_exists'.mp (hcodec.brief _ (has_of_no_result rfl))
    exact ⟨payload, badResponse, List.mem_append_right _ (Option.mem_toList.mpr hm),
      by rw [hbytes]; rfl, answers_bad _⟩
  cases hs with
  | badHandshake client payload tag hfree | badRequest client payload tag hfree
  | refuse client payload tag hfree => exact h.next hstep rfl (hbad rfl) (hidle hfree)
  | accept client payload tag hfree =>
      exact h.next hstep (List.append_nil _).symm (fun r hr => (List.not_mem_nil hr).elim)
        (hidle hfree)
  | answer client payload tag hfree caps hcaps request hparse response hhandle =>
      refine h.next hstep (reply_sent _ _ _ _ _) (fun r hr => ?_) (hidle (by rw [reply_thread, hfree]))
      have hm : ⟨client, payload, tag⟩ ∈ ms ++ (Label.recv client payload tag).message.toList :=
        List.mem_append_right _ (List.mem_singleton_self _)
      refine Replies.of_replied hr hm ⟨fun hnone => ?_, ?_⟩
      · simp [hparse] at hnone
      intro request' sreq out hparse' hreq hresp
      obtain rfl := Option.some.inj (hparse.symm.trans hparse')
      exact ⟨caps, caps_step hstep hcaps, answeredBy_of_reply hhandle hreq hresp⟩
  | run client payload tag hfree caps hcaps request hparse sreq hhandle pool hpool =>
      refine h.next hstep (List.append_nil _).symm (fun r hr => (List.not_mem_nil hr).elim) ?_
      rintro _ _ ⟨⟩
      obtain ⟨hreq, hcap⟩ := handleEnvelope_eq_run.mp hhandle
      refine ⟨payload, List.mem_append_right _ (List.mem_singleton_self _), request, caps, hparse,
        ?_, hcaps, ?_⟩
      · obtain ⟨-, hp⟩ := Pool.step_cases hpool
        cases hp with
        | run => simp [CallerPc.req, hreq]
      · intro sreq' hreq'
        obtain rfl := ReqCase.submit.inj (Option.some.inj (hreq.symm.trans hreq'))
        exact hcap
  | get client payload tag hfree caps hcaps request hparse greq hhandle pool hpool =>
      refine h.next hstep (List.append_nil _).symm (fun r hr => (List.not_mem_nil hr).elim) ?_
      rintro _ _ ⟨⟩
      have hreq := handleEnvelope_eq_get.mp hhandle
      refine ⟨payload, List.mem_append_right _ (List.mem_singleton_self _), request, caps, hparse,
        ?_, hcaps, ?_⟩
      · obtain ⟨-, hp⟩ := Pool.step_cases hpool
        cases hp with
        | get => simp [CallerPc.req, hreq]
      · intro sreq' hreq'
        cases hreq.symm.trans hreq'
  | think client tag choice hbusy pool hpool hran hgot =>
      exact h.think hstep (by rw [hbusy]) (Pool.req_of_caller_step hpool hran hgot)
  | ran client tag choice hbusy pool hpool sreq response hran =>
      refine h.return hbusy hstep ?_
      intro sreq' out hreq hresp
      have hright := h.right
      rw [hran] at hreq hright
      cases hreq
      cases hresp
      exact hright
  | got client tag choice hbusy pool hpool greq response hgot =>
      refine h.return hbusy hstep ?_
      intro sreq' out _ hresp
      cases hresp
  | worker i pool hpool => exact h.think hstep rfl (Pool.req_of_worker_step hpool 0)

end Server

end InterProcess
