import InterProcess.Runner.Progress
import InterProcess.Runner.Yield
import InterProcess.Server.Enforcement

/-!
# Reply discipline

Every message is owed one reply, of a kind that depends on its payload and on whether
its sender is registered; only a handshake that is accepted is owed none. `dues` lists
what is owed for the received messages, and the server pays it in order: what it has
sent meets the list up to the message that is being handled. That message can be brought
to its end from every reachable state, unless it asks for an undefined division.
-/

namespace InterProcess

open Transition

structure Message where
  client : Bytes
  payload : Bytes
  tag : ℕ
  deriving DecidableEq, Repr

/-- The kinds of replies: a submit response, a get response, and the get response with
`ST_ERROR_INVALID_INPUT`. -/
inductive ReplyKind where
  | submit
  | get
  | invalid
  deriving DecidableEq, Repr

/-- A reply of that kind. -/
inductive ReplyKind.Of : ReplyKind → EnvelopeResp → Prop
  | submit (response : SubmitResponse) : Of .submit { resp := some (.submit response) }
  | get (response : GetResponse) : Of .get { resp := some (.get response) }
  | invalid (response : GetResponse) (hstatus : response.status = .stErrorInvalidInput) :
      Of .invalid { resp := some (.get response) }

structure Due where
  client : Bytes
  tag : ℕ
  kind : ReplyKind
  deriving DecidableEq, Repr

/-- What was sent is the reply that was owed. -/
structure Due.Met (codec : Codec) (due : Due) (sent : Sent) : Prop where
  client : sent.client = due.client
  tag : sent.tag = due.tag
  kind : ∃ response, codec.serializeResp response = some sent.payload ∧ due.kind.Of response

/-- The client is registered after these messages: one of them is its handshake. -/
def Registered (codec : Codec) (ms : List Message) (client : Bytes) : Prop :=
  ∃ m ∈ ms, m.client = client ∧ codec.parseHandshake m.payload ≠ none

instance (codec : Codec) (ms : List Message) (client : Bytes) :
    Decidable (Registered codec ms client) :=
  inferInstanceAs (Decidable (∃ m ∈ ms, _))

def EnvelopeReq.due (request : EnvelopeReq) : ReplyKind :=
  match request.req with
  | some (.submit _) => .submit
  | some (.get _) => .get
  | none => .invalid

theorem due_of_reply {request : EnvelopeReq} {caps : UInt8} {response : EnvelopeResp}
    (h : handleEnvelope request caps = .reply response) : request.due.Of response := by
  unfold handleEnvelope at h
  unfold EnvelopeReq.due
  rcases hreq : request.req with _ | (sreq | greq)
  · simp only [hreq, Handling.reply.injEq] at h
    exact h ▸ .invalid _ rfl
  · simp only [hreq] at h
    split at h
    · cases h
    · exact Handling.reply.inj h ▸ .submit _
  · simp [hreq] at h

/-- The reply that a payload is owed. -/
def dueKind (codec : Codec) (registered : Bool) (payload : Bytes) : Option ReplyKind :=
  match registered with
  | false =>
      match codec.parseHandshake payload with
      | none => some .invalid
      | some handshake =>
          if verifyExecCaps handshake.execFunctions.toUInt8 then none else some .invalid
  | true =>
      match codec.parseReq payload with
      | none => some .invalid
      | some request => some request.due

/-- The reply that a message is owed after those before it. -/
def Message.due (codec : Codec) (before : List Message) (m : Message) : Option Due :=
  (dueKind codec (Registered codec before m.client) m.payload).map fun kind =>
    ⟨m.client, m.tag, kind⟩

/-- The replies that are owed for `ms`, after the messages before them. -/
def dues (codec : Codec) : List Message → List Message → List Due
  | _, [] => []
  | before, m :: ms => (m.due codec before).toList ++ dues codec (before ++ [m]) ms

theorem dues_concat (codec : Codec) (before ms : List Message) (m : Message) :
    dues codec before (ms ++ [m]) =
      dues codec before ms ++ (m.due codec (before ++ ms)).toList := by
  induction ms generalizing before with
  | nil => simp [dues]
  | cons m' ms ih => simp [dues, ih]

def ServerPc.handled : ServerPc → List (Bytes × ℕ)
  | .receive => []
  | .handle client tag => [(client, tag)]

/-- The reply that a call in the runner will make. -/
def CallerPc.serving : CallerPc → Option ReplyKind
  | .run _ | .insert _ _ _ | .lockQueue _ _ _ | .push _ _ _ | .signal _ _ _ | .ran _ _ =>
      some .submit
  | .find _ | .noWait _ _ | .waitUpTo _ _ _ | .cvBlocked _ _ | .cvNotified _ _ | .erase _ _
  | .got _ _ => some .get
  | .idle | .stopTest | .stopStore | .stopBroadcast | .join _ | .stopped => none

theorem CallerPc.serving_congr {pc pc' : CallerPc} (h : pc'.req = pc.req) :
    pc'.serving = pc.serving := by
  cases pc <;> cases pc' <;> simp_all [req, serving]

theorem CallerPc.distance_pos {pc : CallerPc} (h : pc.serving ≠ none) : 0 < pc.distance := by
  cases pc with
  | waitUpTo request job timeout => cases timeout <;> simp [distance]
  | idle | stopTest | stopStore | stopBroadcast | join | stopped => exact absurd rfl h
  | _ => simp [distance]

namespace Server

def Label.message : Label → Option Message
  | .recv client payload tag => some ⟨client, payload, tag⟩
  | .thread _ | .worker _ => none

def answer (codec : Codec) (s : Server) : Label → Option EnvelopeResp
  | .recv client payload _ =>
      match s.mClientExecCaps client with
      | none =>
          match codec.parseHandshake payload with
          | none => some badResponse
          | some handshake =>
              if verifyExecCaps handshake.execFunctions.toUInt8 then none else some badResponse
      | some caps =>
          match codec.parseReq payload with
          | none => some badResponse
          | some request =>
              match handleEnvelope request caps with
              | .reply response => some response
              | .run _ | .get _ => none
  | .thread _ =>
      match s.mAlgoRunner.callers 0 with
      | .ran _ response => some { resp := some (.submit response) }
      | .got _ response => some { resp := some (.get response) }
      | _ => none
  | .worker _ => none

/-- The reply of the step can be serialised. -/
def Serialises (codec : Codec) (s : Server) (l : Label) : Prop :=
  ∀ response, s.answer codec l = some response → codec.serializeResp response ≠ none

instance (codec : Codec) (s : Server) (l : Label) : Decidable (Serialises codec s l) :=
  decidable_of_iff ((s.answer codec l).all fun response =>
    (codec.serializeResp response).isSome) (by
      cases h : s.answer codec l <;> simp [Serialises, h, Option.isSome_iff_ne_none])

/-! ### Replies that can be serialised -/

theorem yielding_of_step {codec : Codec} {P : Status → Result → Prop}
    (hswap : ∀ status result, P status result → P status {})
    {s s' : Server} {l : Label} (h : s.mAlgoRunner.Yielding P)
    (hrequest : ∀ client payload tag caps request sreq, l = .recv client payload tag →
      s.mClientExecCaps client = some caps → codec.parseReq payload = some request →
        handleEnvelope request caps = .run sreq → sreq.Yields P)
    (hstep : step codec s l = some s') : s'.mAlgoRunner.Yielding P := by
  obtain ⟨-, hs⟩ := step_cases hstep
  cases hs with
  | badHandshake | accept | refuse | badRequest => exact h
  | answer => simpa using h
  | run client payload tag hfree caps hcaps request hparse sreq hhandle pool hpool =>
      refine Pool.yielding_step hswap _ _ _ h ?_ hpool
      rintro c r ⟨⟩
      exact hrequest client payload tag caps request sreq rfl hcaps hparse hhandle
  | get _ _ _ _ _ _ _ _ _ _ pool hpool | think _ _ _ _ pool hpool | worker _ pool hpool =>
      exact Pool.yielding_step hswap _ _ _ h (by rintro c r ⟨⟩) hpool
  | ran _ _ _ _ pool hpool | got _ _ _ _ pool hpool =>
      rw [reply_mAlgoRunner]
      exact Pool.yielding_step hswap _ _ _ h (by rintro c r ⟨⟩) hpool

theorem yielding_step {codec : Codec} {P : Status → Result → Prop}
    (hswap : ∀ status result, P status result → P status {})
    (hrequest : ∀ sreq caps, clientHasCapabilityFor sreq caps = true → sreq.Yields P)
    (s : Server) (l : Label) (s' : Server) (h : s.mAlgoRunner.Yielding P)
    (hstep : step codec s l = some s') : s'.mAlgoRunner.Yielding P :=
  yielding_of_step hswap h (fun _ _ _ caps _ sreq _ _ _ hhandle =>
    hrequest sreq caps (handleEnvelope_eq_run.mp hhandle).2) hstep

theorem has_of_no_result {P : Result → Prop} {response : RespCase} (h : response.result = none) :
    response.Has P := by
  intro result hresult
  rw [h] at hresult
  cases hresult

theorem exists_of_reply {request : EnvelopeReq} {caps : UInt8} {response : EnvelopeResp}
    (h : handleEnvelope request caps = .reply response) :
    ∃ case, response = { resp := some case } ∧ case.result = none := by
  unfold handleEnvelope at h
  rcases hreq : request.req with _ | (sreq | greq)
  · simp only [hreq, Handling.reply.injEq] at h
    exact ⟨_, h.symm, rfl⟩
  · simp only [hreq] at h
    split at h
    · cases h
    · exact ⟨_, (Handling.reply.inj h).symm, rfl⟩
  · simp [hreq] at h

/-- The replies of the server are short enough to be serialised. -/
theorem serialises_of_lawful {codec : Codec} (hcodec : codec.Lawful) {s : Server}
    (h : s.mAlgoRunner.Yielding fun _ result => result.Brief) (l : Label) :
    Serialises codec s l := by
  have hcaller := h.callers 0
  have hbad : codec.serializeResp badResponse ≠ none := hcodec.brief _ (has_of_no_result rfl)
  intro response hanswer
  cases l with
  | recv client payload tag =>
      simp only [answer] at hanswer
      split at hanswer
      · split at hanswer
        · exact Option.some.inj hanswer ▸ hbad
        · split at hanswer
          · cases hanswer
          · exact Option.some.inj hanswer ▸ hbad
      · split at hanswer
        · exact Option.some.inj hanswer ▸ hbad
        · split at hanswer
          · next hhandle =>
              obtain ⟨case, rfl, hnone⟩ := exists_of_reply hhandle
              exact Option.some.inj hanswer ▸ hcodec.brief case (has_of_no_result hnone)
          · cases hanswer
          · cases hanswer
  | thread choice =>
      simp only [answer] at hanswer
      split at hanswer
      · next hpc =>
          rw [hpc] at hcaller
          exact Option.some.inj hanswer ▸ hcodec.brief (.submit _) hcaller
      · next hpc =>
          rw [hpc] at hcaller
          exact Option.some.inj hanswer ▸ hcodec.brief (.get _) hcaller
      · cases hanswer
  | worker i => cases hanswer

/-! ### The discipline -/

theorem met_of_serialises {codec : Codec} {s : Server} {l : Label} (h : Serialises codec s l)
    {response : EnvelopeResp} (hanswer : s.answer codec l = some response) (client : Bytes)
    (tag : ℕ) {kind : ReplyKind} (hkind : kind.Of response) :
    List.Forall₂ (Due.Met codec) [⟨client, tag, kind⟩] (replied codec client tag response) := by
  obtain ⟨payload, hpayload⟩ := Option.ne_none_iff_exists'.mp (h response hanswer)
  simp only [replied, hpayload, Option.map_some, Option.toList_some, List.forall₂_cons,
    List.Forall₂.nil, and_true]
  exact ⟨rfl, rfl, response, hpayload, hkind⟩

/-- What is known after the messages `ms`: who is registered, and that what was owed has
been sent, in order, but for the message that is being handled. -/
structure Served (codec : Codec) (ms : List Message) (s : Server) : Prop where
  registered : ∀ client, s.mClientExecCaps client ≠ none ↔ Registered codec ms client
  paid : ∃ paid outstanding, dues codec [] ms = paid ++ outstanding ∧
    List.Forall₂ (Due.Met codec) paid s.sent ∧
    match s.thread with
    | .receive => outstanding = []
    | .handle client tag =>
        ∃ kind, outstanding = [⟨client, tag, kind⟩] ∧
          (s.mAlgoRunner.callers 0).serving = some kind

theorem served_start (codec : Codec) (n : ℕ) : Served codec [] (start n) where
  registered client := by simp [start, Registered]
  paid := ⟨[], [], rfl, .nil, rfl⟩

theorem registered_concat {codec : Codec} {ms : List Message} {m : Message} {client : Bytes} :
    Registered codec (ms ++ [m]) client ↔ Registered codec ms client ∨
      (m.client = client ∧ codec.parseHandshake m.payload ≠ none) := by
  simp [Registered, or_and_right, exists_or]

theorem registered_same {codec : Codec} {ms : List Message} {m : Message}
    (h : Registered codec ms m.client ∨ codec.parseHandshake m.payload = none) (client : Bytes) :
    Registered codec (ms ++ [m]) client ↔ Registered codec ms client := by
  rw [registered_concat]
  constructor
  · rintro (hold | ⟨rfl, hparse⟩)
    · exact hold
    · exact h.resolve_right hparse
  · exact Or.inl

section Step

variable {codec : Codec} {ms : List Message} {s s' : Server} {client payload : Bytes} {tag : ℕ}

theorem Served.due_of_new (h : Served codec ms s) (hnew : s.mClientExecCaps client = none) :
    Message.due codec ms ⟨client, payload, tag⟩ =
      (dueKind codec false payload).map fun kind => ⟨client, tag, kind⟩ := by
  have hunknown : ¬ Registered codec ms client := fun hreg => (h.registered client).mpr hreg hnew
  simp [Message.due, hunknown]

theorem Served.due_of_registered (h : Served codec ms s) {caps : UInt8}
    (hcaps : s.mClientExecCaps client = some caps) :
    Message.due codec ms ⟨client, payload, tag⟩ =
      (dueKind codec true payload).map fun kind => ⟨client, tag, kind⟩ := by
  have hknown : Registered codec ms client := (h.registered client).mp (by simp [hcaps])
  simp [Message.due, hknown]

theorem Served.immediate (h : Served codec ms s) (hfree : s.thread = .receive)
    (hthread : s'.thread = .receive) {more : List Sent} (hsent : s'.sent = s.sent ++ more)
    (hregistered : ∀ d, s'.mClientExecCaps d ≠ none ↔
      Registered codec (ms ++ [⟨client, payload, tag⟩]) d)
    (hdue : List.Forall₂ (Due.Met codec)
      (Message.due codec ms ⟨client, payload, tag⟩).toList more) :
    Served codec (ms ++ [⟨client, payload, tag⟩]) s' where
  registered := hregistered
  paid := by
    obtain ⟨paid, outstanding, hdues, hpaid, hopen⟩ := h.paid
    rw [hfree] at hopen
    subst hopen
    refine ⟨paid ++ (Message.due codec ms ⟨client, payload, tag⟩).toList, [], ?_, ?_,
      by rw [hthread]⟩
    · rw [dues_concat, hdues, List.nil_append, List.append_nil, List.append_nil]
    · rw [hsent]
      exact List.rel_append hpaid hdue

theorem Served.enter (h : Served codec ms s) (hfree : s.thread = .receive) {pool : Pool}
    {caps : UInt8} (hcaps : s.mClientExecCaps client = some caps) {kind : ReplyKind}
    (hkind : dueKind codec true payload = some kind)
    (hserving : (pool.callers 0).serving = some kind) :
    Served codec (ms ++ [⟨client, payload, tag⟩]) (s.withRunner pool (.handle client tag)) where
  registered d :=
    (h.registered d).trans
      (registered_same (Or.inl ((h.registered client).mp (by simp [hcaps]))) d).symm
  paid := by
    obtain ⟨paid, outstanding, hdues, hpaid, hopen⟩ := h.paid
    rw [hfree] at hopen
    subst hopen
    refine ⟨paid, [⟨client, tag, kind⟩], ?_, hpaid, ?_⟩
    · rw [dues_concat, hdues, List.nil_append, List.append_nil, h.due_of_registered hcaps, hkind]
      rfl
    · rw [withRunner_thread]
      exact ⟨kind, rfl, hserving⟩

theorem Served.think (h : Served codec ms s) {pool : Pool}
    (hserving : (pool.callers 0).serving = (s.mAlgoRunner.callers 0).serving) :
    Served codec ms (s.withRunner pool s.thread) where
  registered := h.registered
  paid := by
    obtain ⟨paid, outstanding, hdues, hpaid, hopen⟩ := h.paid
    refine ⟨paid, outstanding, hdues, hpaid, ?_⟩
    rw [withRunner_thread, withRunner_mAlgoRunner, hserving]
    exact hopen

theorem Served.return (h : Served codec ms s) (hbusy : s.thread = .handle client tag) {pool : Pool}
    {kind : ReplyKind} (hserving : (s.mAlgoRunner.callers 0).serving = some kind)
    {response : EnvelopeResp}
    (hmet : List.Forall₂ (Due.Met codec) [⟨client, tag, kind⟩]
      (replied codec client tag response)) :
    Served codec ms ((s.withRunner pool .receive).reply codec client tag response) where
  registered d := by
    rw [reply_mClientExecCaps]
    exact h.registered d
  paid := by
    obtain ⟨paid, outstanding, hdues, hpaid, hopen⟩ := h.paid
    rw [hbusy] at hopen
    obtain ⟨kind', rfl, hserving'⟩ := hopen
    obtain rfl : kind = kind' := Option.some.inj (hserving.symm.trans hserving')
    refine ⟨paid ++ [⟨client, tag, kind⟩], [], by rw [hdues, List.append_nil], ?_, by simp⟩
    rw [reply_sent]
    exact List.rel_append hpaid hmet

theorem met_bad {l : Label} (hok : Serialises codec s l)
    (hanswer : s.answer codec l = some badResponse) :
    List.Forall₂ (Due.Met codec) [⟨client, tag, .invalid⟩]
      [{ client, tag, payload := (codec.serializeResp badResponse).getD [] }] := by
  have hmet := met_of_serialises hok hanswer client tag (.invalid _ rfl)
  obtain ⟨payload, hpayload⟩ := Option.ne_none_iff_exists'.mp (hok _ hanswer)
  simpa [replied, hpayload] using hmet

theorem Served.register (h : Served codec ms s) {handshake : FirstHandshake}
    (hparse : codec.parseHandshake payload = some handshake) (funcFlags : UInt8) (d : Bytes) :
    s.mClientExecCaps.insert client funcFlags d ≠ none ↔
      Registered codec (ms ++ [⟨client, payload, tag⟩]) d := by
  rw [registered_concat, Table.insert_apply, ← h.registered d]
  by_cases hd : d = client
  · simp [hd, hparse]
  · simp [hd, Ne.symm hd]

theorem served_step {l : Label} (h : Served codec ms s) (hok : Serialises codec s l)
    (hs : Step codec s l s') : Served codec (ms ++ l.message.toList) s' := by
  cases hs with
  | badHandshake client payload tag hfree hnew hparse =>
      refine h.immediate hfree hfree rfl
        (fun d => (h.registered d).trans (registered_same (Or.inr hparse) d).symm) ?_
      rw [h.due_of_new hnew, dueKind, hparse]
      exact met_bad hok (by simp [answer, hnew, hparse])
  | accept client payload tag hfree hnew handshake hparse hverify =>
      refine h.immediate hfree hfree (List.append_nil _).symm (h.register hparse _) ?_
      rw [h.due_of_new hnew]
      simp [dueKind, hparse, hverify]
  | refuse client payload tag hfree hnew handshake hparse hverify =>
      refine h.immediate hfree hfree rfl (h.register hparse _) ?_
      rw [h.due_of_new hnew]
      simp only [dueKind, hparse, hverify]
      exact met_bad hok (by simp [answer, hnew, hparse, hverify])
  | badRequest client payload tag hfree caps hcaps hparse =>
      refine h.immediate hfree hfree rfl (fun d => (h.registered d).trans (registered_same
        (Or.inl ((h.registered client).mp (by simp [hcaps]))) d).symm) ?_
      rw [h.due_of_registered hcaps]
      simp only [dueKind, hparse]
      exact met_bad hok (by simp [answer, hcaps, hparse])
  | answer client payload tag hfree caps hcaps request hparse response hhandle =>
      refine h.immediate hfree (by simpa using hfree) (reply_sent _ _ _ _ _)
        (fun d => ?_) ?_
      · rw [reply_mClientExecCaps]
        exact (h.registered d).trans (registered_same
          (Or.inl ((h.registered client).mp (by simp [hcaps]))) d).symm
      · rw [h.due_of_registered hcaps]
        simp only [dueKind, hparse]
        exact met_of_serialises hok (by simp [Server.answer, hcaps, hparse, hhandle]) client tag
          (due_of_reply hhandle)
  | run client payload tag hfree caps hcaps request hparse sreq hhandle pool hpool =>
      rw [handleEnvelope_eq_run] at hhandle
      have hkind : dueKind codec true payload = some .submit := by
        simp [dueKind, hparse, EnvelopeReq.due, hhandle.1]
      obtain ⟨-, hp⟩ := Pool.step_cases hpool
      cases hp with
      | run => exact h.enter hfree hcaps hkind (by simp [CallerPc.serving])
  | get client payload tag hfree caps hcaps request hparse greq hhandle pool hpool =>
      rw [handleEnvelope_eq_get] at hhandle
      have hkind : dueKind codec true payload = some .get := by
        simp [dueKind, hparse, EnvelopeReq.due, hhandle]
      obtain ⟨-, hp⟩ := Pool.step_cases hpool
      cases hp with
      | get => exact h.enter hfree hcaps hkind (by simp [CallerPc.serving])
  | think client tag choice hbusy pool hpool hran hgot =>
      rw [← hbusy]
      simpa [Label.message] using h.think (CallerPc.serving_congr (Pool.req_of_caller_step hpool hran hgot))
  | ran client tag choice hbusy pool hpool sreq response hran =>
      have hserving : (s.mAlgoRunner.callers 0).serving = some .submit := by rw [hran]; rfl
      simpa [Label.message] using h.return hbusy hserving
        (met_of_serialises hok (by simp [Server.answer, hran]) client tag (.submit response))
  | got client tag choice hbusy pool hpool greq response hgot =>
      have hserving : (s.mAlgoRunner.callers 0).serving = some .get := by rw [hgot]; rfl
      simpa [Label.message] using h.return hbusy hserving
        (met_of_serialises hok (by simp [Server.answer, hgot]) client tag (.get response))
  | worker i pool hpool =>
      simpa [Label.message] using h.think (CallerPc.serving_congr (Pool.req_of_worker_step hpool 0))

end Step

/-- What lets the handling of a message go on. -/
structure Ready (s : Server) : Prop where
  sturdy : s.mAlgoRunner.Sturdy
  alone : s.mAlgoRunner.Alone
  busy : ∀ client tag, s.thread = .handle client tag → (s.mAlgoRunner.callers 0).serving ≠ none

theorem ready_start (n : ℕ) : (start n).Ready where
  sturdy := Pool.sturdy_start n
  alone c _ := rfl
  busy client tag h := by cases h

theorem ready_step {codec : Codec} (s : Server) (l : Label) (s' : Server) (h : s.Ready)
    (hstep : step codec s l = some s') : s'.Ready := by
  obtain ⟨hsturdy, halone⟩ : s'.mAlgoRunner.Sturdy ∧ s'.mAlgoRunner.Alone := by
    rcases runner_step hstep with heq | ⟨m, hm, hpool⟩
    · rw [heq]
      exact ⟨h.sturdy, h.alone⟩
    · exact ⟨Pool.sturdy_step _ m _ h.sturdy hpool, Pool.alone_step h.alone hm hpool⟩
  refine ⟨hsturdy, halone, fun client tag hbusy => ?_⟩
  obtain ⟨-, hs⟩ := step_cases hstep
  cases hs with
  | badHandshake _ _ _ hfree | accept _ _ _ hfree | refuse _ _ _ hfree | badRequest _ _ _ hfree
  | answer _ _ _ hfree =>
      simp [hfree] at hbusy
  | run client payload tag hfree caps hcaps request hparse sreq hhandle pool hpool =>
      obtain ⟨-, hp⟩ := Pool.step_cases hpool
      cases hp with
      | run => simp [CallerPc.serving]
  | get client payload tag hfree caps hcaps request hparse greq hhandle pool hpool =>
      obtain ⟨-, hp⟩ := Pool.step_cases hpool
      cases hp with
      | get => simp [CallerPc.serving]
  | think client' tag' choice hbusy' pool hpool hran hgot =>
      rw [withRunner_mAlgoRunner, CallerPc.serving_congr (Pool.req_of_caller_step hpool hran hgot)]
      exact h.busy client' tag' hbusy'
  | ran | got => simp at hbusy
  | worker i pool hpool =>
      rw [withRunner_mAlgoRunner, CallerPc.serving_congr (Pool.req_of_worker_step hpool 0)]
      exact h.busy client tag hbusy

theorem run_workers (codec : Codec) {s : Server} {i k : ℕ} {q : Pool}
    (hq : run Pool.step s.mAlgoRunner (List.replicate k (.worker i)) = some q) :
    run (step codec) s (List.replicate k (.worker i)) = some (s.withRunner q s.thread) := by
  induction k generalizing s with
  | zero =>
      obtain rfl := Option.some.inj hq
      rfl
  | succ k ih =>
      obtain ⟨p, hp, hrest⟩ := run_cons_eq_some.mp hq
      have halive := (Pool.step_cases hp).1
      rw [List.replicate_succ, run_cons, step, halive]
      simp only [Bool.false_eq_true, if_false, hp, Option.map_some, Option.bind_some]
      exact ih hrest

theorem exists_thread_step (codec : Codec) {s : Server} {client : Bytes} {tag : ℕ}
    (hbusy : s.thread = .handle client tag) {choice : Choice} {p : Pool}
    (hp : s.mAlgoRunner.step (.caller 0 choice) = some p) :
    ∃ s', step codec s (.thread choice) = some s' ∧ s'.mAlgoRunner = p := by
  have halive := (Pool.step_cases hp).1
  simp only [step, halive, advance, hbusy, hp, Bool.false_eq_true, if_false, Option.map_some,
    Option.some.injEq, exists_eq_left']
  split <;> simp

/-- From every state without a trap the handling of a message can be brought to its end,
or to an undefined division. -/
theorem exists_reply (codec : Codec) {s : Server} (h : s.Ready) :
    ∃ ks s', (∀ l ∈ ks, l.message = none) ∧ run (step codec) s ks = some s' ∧
      (s'.thread = .receive ∨ s'.mAlgoRunner.trapped = true) := by
  induction hd : (s.mAlgoRunner.callers 0).distance using Nat.strong_induction_on generalizing s with
  | _ d ih =>
      cases hthread : s.thread with
      | receive => exact ⟨[], s, by simp, rfl, Or.inl hthread⟩
      | handle client tag =>
          by_cases halive : s.mAlgoRunner.trapped = true
          · exact ⟨[], s, by simp, rfl, Or.inr halive⟩
          · obtain ⟨i, k, q, choice, p, hq, -, -, hp, hcloser⟩ :=
              Pool.exists_closer h.sturdy h.alone (by simpa using halive)
                (CallerPc.distance_pos (h.busy client tag hthread))
            have hworkers := run_workers codec hq
            obtain ⟨t, ht, rfl⟩ := exists_thread_step codec
              (s := s.withRunner q s.thread) hthread hp
            have hrun : run (step codec) s (List.replicate k (.worker i) ++ [.thread choice]) =
                some t :=
              run_append_eq_some.mpr ⟨_, hworkers, by rw [run_singleton, ht]⟩
            have hquiet : ∀ l ∈ List.replicate k (Label.worker i) ++ [.thread choice],
                l.message = none := by
              intro l hl
              rcases List.mem_append.mp hl with hl | hl
              · rw [List.eq_of_mem_replicate hl]
                rfl
              · rw [List.mem_singleton.mp hl]
                rfl
            rcases hcloser with htrap | hlt
            · exact ⟨_, t, hquiet, hrun, Or.inr htrap⟩
            · obtain ⟨ks, s', hks, hs', hend⟩ := ih _ (hd ▸ hlt) (run_invariant ready_step h hrun) rfl
              refine ⟨_ ++ ks, s', fun l hl => ?_, run_append_eq_some.mpr ⟨t, hrun, hs'⟩, hend⟩
              rcases List.mem_append.mp hl with hl | hl
              · exact hquiet l hl
              · exact hks l hl

theorem filterMap_message_concat (ls : List Label) (l : Label) :
    (ls ++ [l]).filterMap Label.message = ls.filterMap Label.message ++ l.message.toList := by
  rw [List.filterMap_append]
  cases hl : l.message <;> simp [hl]

/-- The replies are what is owed for the received messages, in order, but for the message
that is being handled; and its handling can be brought to the end. -/
theorem replies_in_order (codec : Codec) (n : ℕ) (ls : List Label) (s : Server)
    (hrun : run (step codec) (start n) ls = some s)
    (hok : Guarded (step codec) (Serialises codec) (start n) ls) :
    (∃ paid outstanding, dues codec [] (ls.filterMap Label.message) = paid ++ outstanding ∧
      List.Forall₂ (Due.Met codec) paid s.sent ∧
      outstanding.map (fun due => (due.client, due.tag)) = s.thread.handled) ∧
    ∃ ks s', (∀ l ∈ ks, l.message = none) ∧ run (step codec) s ks = some s' ∧
      (s'.thread = .receive ∨ s'.mAlgoRunner.trapped = true) := by
  have hserved : Served codec (ls.filterMap Label.message) s := by
    refine run_history_of_guarded (P := fun ls s => Served codec (ls.filterMap Label.message) s)
      ?_ (served_start codec n) hok hrun
    intro ls s l s' _ h hl hstep
    rw [filterMap_message_concat]
    exact served_step h hl (step_cases hstep).2
  refine ⟨?_, exists_reply codec (run_invariant ready_step (ready_start n) hrun)⟩
  obtain ⟨paid, outstanding, hdues, hpaid, hopen⟩ := hserved.paid
  refine ⟨paid, outstanding, hdues, hpaid, ?_⟩
  cases hthread : s.thread with
  | receive =>
      rw [hthread] at hopen
      rw [hopen]
      rfl
  | handle client tag =>
      rw [hthread] at hopen
      obtain ⟨kind, rfl, -⟩ := hopen
      rfl

/-- An addition is answered with one submit response, and the handshake before it not at
all. -/
theorem replies_in_order_add :
    ∃ s, run (step wireCodec) (start 1) (addAfter 1 ++ [.thread {}, .thread {}]) = some s ∧
      s.thread = .receive ∧ List.Forall₂ (Due.Met wireCodec) [⟨[65], 1, .submit⟩] s.sent := by
  obtain ⟨s, hs, htest⟩ := exists_of_run_any (step wireCodec) (start 1)
    (addAfter 1 ++ [.thread {}, .thread {}]) (fun s => s.thread = .receive) (by decide)
  simp only [decide_eq_true_eq] at htest
  obtain ⟨⟨paid, outstanding, hdues, hpaid, hopen⟩, -⟩ :=
    replies_in_order wireCodec 1 _ s hs (by decide)
  rw [htest] at hopen
  obtain rfl := List.map_eq_nil_iff.mp hopen
  rw [List.append_nil] at hdues
  exact ⟨s, hs, htest, by rwa [← hdues] at hpaid⟩

end Server

end InterProcess
