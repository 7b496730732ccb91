import InterProcess.Network.Transfer

/-!
# Tickets at the server

A step of the server's thread in the runner, for the message that it handles: a ticket is
granted, the goods are handed out, the request is answered otherwise, or nothing happens
to the tickets. Together with the steps of the clients this makes every step of the
session one of the custody.
-/

namespace InterProcess

open Transition Wire

namespace Call

variable {call : Call}

theorem want_of_submit {request : SubmitRequest} (h : call.envelope.req = some (.submit request))
    (hmode : request.mode = .nonblocking) : call.want = .ticket := by
  cases call with
  | submitNonBlocking req => rfl
  | submitBlocking req =>
      obtain rfl := ReqCase.submit.inj (Option.some.inj h)
      cases hmode
  | getResult => cases h

theorem want_of_get {request : GetRequest} (h : call.envelope.req = some (.get request)) :
    call.want = .goods request.reqId := by
  cases call with
  | submitNonBlocking | submitBlocking => cases h
  | getResult ticket waitMode timeoutMs =>
      obtain rfl := ReqCase.get.inj (Option.some.inj h)
      rfl

theorem waits_of_get {request : GetRequest} (hplain : call.Plain)
    (h : call.envelope.req = some (.get request)) : request.Waits := by
  cases call with
  | submitNonBlocking | submitBlocking => cases h
  | getResult ticket waitMode timeoutMs =>
      obtain rfl := ReqCase.get.inj (Option.some.inj h)
      exact hplain

theorem texts_of_goods {t : UInt64} (h : call.want = .goods t) : call.envelope.texts = [] := by
  cases call with
  | submitNonBlocking | submitBlocking => cases h
  | getResult => rfl

theorem reply_of_handle {clientExecCaps : UInt8} {response : EnvelopeResp}
    (h : handleEnvelope call.envelope clientExecCaps = .reply response) :
    response = { resp := some (.submit { status := .stErrorInvalidInput }) } := by
  unfold handleEnvelope at h
  cases call with
  | submitNonBlocking | submitBlocking =>
      simp only [envelope] at h
      split at h
      · cases h
      · exact (Handling.reply.inj h).symm
  | getResult => cases h

end Call

namespace Pool

variable {p p' : Pool} {choice : Choice}

/-- What a step of the server's thread does to the message that it handles, and to the
tickets that are held. -/
inductive Turn (p p' : Pool) (choice : Choice) : Prop
  | stay (hphase : (p'.callers 0).phase = (p.callers 0).phase) (hheld : p'.held = p.held)
  | grant (t : UInt64) (ht : t ∈ p.granting choice) (request : SubmitRequest)
      (hreq : (p.callers 0).req = some (.submit request)) (hmode : request.mode = .nonblocking)
      (hasked : (p.callers 0).phase = .asked) (hphase : (p'.callers 0).phase = .granted t)
      (hheld : p'.held = insert t p.held)
  | answer (hasked : (p.callers 0).phase = .asked) (hphase : (p'.callers 0).phase = .done)
      (hheld : p'.held = p.held)
  | deny (request : GetRequest) (hreq : (p.callers 0).req = some (.get request))
      (hnone : request.reqId ∉ p.held) (hasked : (p.callers 0).phase = .asked)
      (hphase : (p'.callers 0).phase = .denied) (hheld : p'.held = p.held)
  | finish (request : GetRequest) (hreq : (p.callers 0).req = some (.get request))
      (hsome : request.reqId ∈ p.held) (hasked : (p.callers 0).phase = .asked)
      (hphase : (p'.callers 0).phase = .final) (hheld : p'.held = p.held \ {request.reqId})

theorem held_of_jobs (hjobs : p'.jobs = p.jobs) (hold : (p.callers 0).inserts = none)
    (hnew : (p'.callers 0).inserts = none) : p'.held = p.held := by
  unfold held
  rw [hjobs, hold, hnew]

theorem mem_held_of_inserts (h : (p.callers 0).inserts = none) {t : UInt64} :
    t ∈ p.held ↔ p.jobs t ≠ none := by
  simp [held, h]

theorem turn_of_caller_step (hserial : p.Serial) (hyielding : p.Yielding Genuine)
    (hwaits : ∀ request, (p.callers 0).req = some (.get request) → request.Waits)
    (hs : p.step (.caller 0 choice) = some p')
    (hran : ∀ request response, p.callers 0 ≠ .ran request response)
    (hgot : ∀ request response, p.callers 0 ≠ .got request response) : Turn p p' choice := by
  obtain ⟨-, hs⟩ := step_cases hs
  cases hs with
  | caller _ _ hc =>
      cases hc with
      | trap => exact .stay rfl rfl
      | enqueue request hpc hmode hpayload =>
          refine .grant (ticketId choice.reading p.seq) ⟨⟨request, hpc, hmode, hpayload⟩, rfl⟩
            request (by rw [hpc]; rfl) hmode (by rw [hpc]; rfl) (by simp [CallerPc.phase]) ?_
          ext t
          simp [held, hpc, CallerPc.inserts, or_comm, eq_comm]
      | insert request id job hpc =>
          refine .stay (by rw [hpc]; simp [CallerPc.phase]) ?_
          ext t
          by_cases ht : t = id
          · simp [held, hpc, CallerPc.inserts, ht]
          · simp [held, hpc, CallerPc.inserts, Table.insert_of_ne _ ht, Ne.symm ht]
      | blocking request hpc hmode response heval =>
          rw [runBlocking_eq] at heval
          obtain ⟨result, -, rfl⟩ := Option.map_eq_some_iff.mp heval
          exact .answer (by rw [hpc]; rfl) rfl (held_of_jobs rfl (by rw [hpc]; rfl) rfl)
      | refuse request hpc =>
          exact .answer (by rw [hpc]; rfl) rfl (held_of_jobs rfl (by rw [hpc]; rfl) rfl)
      | findNone request hpc hjob =>
          refine .deny request (by rw [hpc]; rfl) ?_ (by rw [hpc]; rfl) rfl
            (held_of_jobs rfl (by rw [hpc]; rfl) rfl)
          rw [mem_held_of_inserts (by rw [hpc]; rfl)]
          exact fun hne => hne hjob
      | findBadMode request hpc job hjob hno hwait =>
          exact absurd (hwaits request (by rw [hpc]; rfl)) (by simp [GetRequest.Waits, hno, hwait])
      | notFinished request job hpc =>
          rcases hpc with hpc | hpc
          · exact .answer (by rw [hpc]; rfl) rfl (held_of_jobs rfl (by rw [hpc]; rfl) rfl)
          · exact .answer (by rw [hpc]; rfl) rfl (held_of_jobs rfl (by rw [hpc]; rfl) rfl)
      | consume request job hpc =>
          rcases hpc with hpc | ⟨timeout, hpc⟩
          · exact .stay (by rw [hpc]; rfl) (held_of_jobs rfl (by rw [hpc]; rfl) rfl)
          · exact .stay (by rw [hpc]; rfl) (held_of_jobs rfl (by rw [hpc]; rfl) rfl)
      | wake request job hpc =>
          rcases hpc with hpc | hpc
          · exact .stay (by rw [hpc]; rfl) (held_of_jobs rfl (by rw [hpc]; rfl) rfl)
          · exact .stay (by rw [hpc]; rfl) (held_of_jobs rfl (by rw [hpc]; rfl) rfl)
      | erase request response hpc =>
          have hresponse := hyielding.callers 0
          rw [hpc] at hresponse
          obtain ⟨result, hresult, hgenuine⟩ := hresponse
          obtain ⟨-, job, -, -, -, hjob, -⟩ := hserial.erasing request response hpc
          refine .finish request (by rw [hpc]; rfl) ?_ (by rw [hpc]; rfl) ?_ ?_
          · rw [mem_held_of_inserts (by rw [hpc]; rfl), hjob]
            exact Option.some_ne_none job
          · simp [CallerPc.phase, RespCase.phase, hgenuine.status, hresult]
          · ext t
            by_cases ht : t = request.reqId
            · simp [held, CallerPc.inserts, ht]
            · simp [held, hpc, CallerPc.inserts, Table.erase_of_ne _ ht, ht]
      | ran request response hpc => exact absurd hpc (hran request response)
      | got request response hpc => exact absurd hpc (hgot request response)
      | stopTest hpc =>
          split
          · exact .stay (by rw [hpc]; rfl) (held_of_jobs rfl (by rw [hpc]; rfl) rfl)
          · exact .stay (by rw [hpc]; rfl) (held_of_jobs rfl (by rw [hpc]; rfl) rfl)
      | lockQueue request id job hpc | push request id job hpc | signal request id job hpc
      | findNoWait request hpc | findWaitUpTo request hpc | block request job hpc
      | stopStore hpc | stopBroadcast hpc | join i hpc | joined i hpc | stopped hpc =>
          exact .stay (by rw [hpc]; rfl) (held_of_jobs rfl (by rw [hpc]; rfl) rfl)

theorem held_of_return (hpc : (∃ request response, p.callers 0 = .ran request response) ∨
      ∃ request response, p.callers 0 = .got request response)
    (hs : p.step (.caller 0 choice) = some p') : p'.held = p.held := by
  have hidle := idle_of_return hpc hs
  obtain ⟨-, hs⟩ := step_cases hs
  rcases hpc with ⟨request, response, hpc⟩ | ⟨request, response, hpc⟩
  · refine held_of_jobs ?_ (by rw [hpc]; rfl) (by rw [hidle]; rfl)
    cases hs with
    | caller _ _ hc =>
        cases hc with
        | ran => rfl
        | _ => simp_all
  · refine held_of_jobs ?_ (by rw [hpc]; rfl) (by rw [hidle]; rfl)
    cases hs with
    | caller _ _ hc =>
        cases hc with
        | got => rfl
        | _ => simp_all

theorem phase_notified (job : JobRef) (pc : CallerPc) : (pc.notified job).phase = pc.phase :=
  CallerPc.notified_congr CallerPc.phase (fun _ _ => rfl) job pc

theorem turn_of_worker_step {i : ℕ} (hs : p.step (.worker i) = some p') :
    (p'.callers 0).phase = (p.callers 0).phase ∧ p'.held = p.held := by
  obtain ⟨-, hs⟩ := step_cases hs
  cases hs with
  | worker _ hw =>
      cases hw with
      | notify job =>
          refine ⟨phase_notified job _, ?_⟩
          unfold held
          simp only [setWorker_callers, setWorker_jobs, inserts_notified]
      | _ => exact ⟨rfl, rfl⟩

end Pool

/-- What the client reads out of a reply is what the server put into it. -/
theorem received_of_serialize {codec : Codec} (hcodec : codec.Lawful) {response : RespCase}
    {payload : Bytes} (hserialize : codec.serializeResp { resp := some response } = some payload)
    (htexts : response.Has fun result => ∀ s ∈ result.texts, IsText s) :
    received codec payload = some response := by
  have htext : ∀ s ∈ EnvelopeResp.texts { resp := some response }, IsText s := by
    cases hresult : response.result with
    | none => simp [EnvelopeResp.texts, hresult]
    | some result => simpa [EnvelopeResp.texts, hresult] using htexts result hresult
  rw [received, hcodec.resp _ _ hserialize, if_pos htext]
  rfl

theorem replyPhase_of_serialize {codec : Codec} (hcodec : codec.Lawful) {response : RespCase}
    {payload : Bytes} (hserialize : codec.serializeResp { resp := some response } = some payload)
    (htexts : response.Has fun result => ∀ s ∈ result.texts, IsText s) :
    replyPhase codec payload = response.phase := by
  rw [replyPhase, received_of_serialize hcodec hserialize htexts]

namespace Link

variable {link : Link} {server : Server} {client c : Bytes} {tag : ℕ}

theorem handled_receive (h : server.thread = .receive) : link.handled server c = [] := by
  rw [handled, h]

theorem handled_congr {server' : Server} (hthread : server'.thread = server.thread)
    (hphase : (server'.mAlgoRunner.callers 0).phase = (server.mAlgoRunner.callers 0).phase) :
    link.handled server' c = link.handled server c := by
  rw [handled, handled, hthread, hphase]

theorem handled_of_ne (h : server.thread = .handle client tag) (hc : c ≠ client) :
    link.handled server c = [] := by
  rw [handled, h]
  exact if_neg (Ne.symm hc)

theorem handled_self (h : server.thread = .handle client tag) {call : Call}
    (hcall : link.log[tag]? = some (some call)) :
    link.handled server client = [(call.want, (server.mAlgoRunner.callers 0).phase)] := by
  rw [handled, h]
  simp [entry_of_call hcall]

end Link

theorem Network.packetsFor_of_ne {client c : Bytes} {sent : List Sent}
    (h : ∀ r ∈ sent, r.client = client) (hc : c ≠ client) : packetsFor c sent = [] := by
  rw [packetsFor, List.map_eq_nil_iff, List.filter_eq_nil_iff]
  intro r hr
  simp [h r hr, Ne.symm hc]

namespace Session

variable {codec : Codec} {s : Session} {s₁ : Network} {server : Server} {m : Server.Label}

/-- The client's message that a step of the server is about: the one that it handles, or
receives. -/
def inHand (s : Session) (m : Server.Label) (c : Bytes) : List (Want UInt64 × Phase UInt64) :=
  (s.network.link c).handled s.network.server c ++
    (m.packets c).filterMap (s.network.link c).request

/-- What became of it after the step, in which the server has sent `more`. -/
def outOfHand (codec : Codec) (s : Session) (server : Server) (more : List Sent) (c : Bytes) :
    List (Want UInt64 × Phase UInt64) :=
  (Network.packetsFor c more).filterMap ((s.network.link c).reply codec) ++
    (s.network.link c).handled server c

theorem line_taken (ht : s.network.Taken s₁ m) (c : Bytes) :
    s.network.line codec c =
      (s.network.link c).down.filterMap ((s.network.link c).reply codec) ++
        (s.inHand m c ++ (s₁.link c).up.filterMap (s.network.link c).request) := by
  rw [Network.line, ht.up, List.filterMap_append, inHand, List.append_assoc]

theorem line_route (ht : s.network.Taken s₁ m) {more : List Sent}
    (hsent : server.sent = s.network.server.sent ++ more) (c : Bytes) :
    (s₁.route server).line codec c =
      (s.network.link c).down.filterMap ((s.network.link c).reply codec) ++
        (s.outOfHand codec server more c ++
          (s₁.link c).up.filterMap (s.network.link c).request) := by
  have hlink := Network.route_link (s := s₁) (by rw [ht.server, hsent]) c
  have hlog : ((s₁.route server).link c).log = (s.network.link c).log := by
    rw [hlink]
    exact ht.log c
  have hreply : ((s₁.route server).link c).reply codec = (s.network.link c).reply codec := by
    funext p
    exact Link.entry_congr hlog
  have hrequest : ((s₁.route server).link c).request = (s.network.link c).request := by
    funext p
    exact Link.entry_congr hlog
  have hhandled : ((s₁.route server).link c).handled server c =
      (s.network.link c).handled server c := by
    unfold Link.handled
    simp only [Link.entry_congr hlog]
  rw [Network.line, hreply, hrequest, show (s₁.route server).server = server from rfl, hhandled, hlink,
    ht.down, List.filterMap_append, outOfHand, List.append_assoc, List.append_assoc]

section Step

variable {strict : Prop} {l : Label}

theorem custody_still (ht : s.network.Taken s₁ m) (more : List Sent)
    (hsent : server.sent = s.network.server.sent ++ more)
    (hheld : server.mAlgoRunner.held = s.network.server.mAlgoRunner.held)
    (hsame : ∀ c, s.outOfHand codec server more c = s.inHand m c) :
    Custody.Step strict (s.fresh l) (s.custody codec) (custody codec ⟨s₁.route server, s.shell⟩) := by
  refine custody_stay hheld fun c => ?_
  have hongoing : ((s₁.route server).link c).ongoing = (s.network.link c).ongoing := ht.ongoing c
  simp only [holder, line_route ht hsent c, line_taken ht c, hsame c, hongoing]

theorem custody_serve (ht : s.network.Taken s₁ m) (more : List Sent)
    (hsent : server.sent = s.network.server.sent ++ more) (client : Bytes)
    (hother : ∀ c, c ≠ client → s.outOfHand codec server more c = s.inHand m c)
    {w : Want UInt64} {ph ph' : Phase UInt64} (hold : s.inHand m client = [(w, ph)])
    (hnew : s.outOfHand codec server more client = [(w, ph')])
    (hm : ∀ pre post, (s.holder codec client).line = pre ++ (w, ph) :: post →
      (s.holder codec client).Move strict (s.fresh l) s.network.server.mAlgoRunner.held
        server.mAlgoRunner.held
        { s.holder codec client with line := pre ++ (w, ph') :: post }) :
    Custody.Step strict (s.fresh l) (s.custody codec) (custody codec ⟨s₁.route server, s.shell⟩) := by
  have hongoing : ∀ c, ((s₁.route server).link c).ongoing = (s.network.link c).ongoing := ht.ongoing
  refine custody_move client (fun c hc => ?_) ?_
  · simp only [holder, line_route ht hsent c, line_taken ht c, hother c hc, hongoing]
  · have hholder : holder codec ⟨s₁.route server, s.shell⟩ client =
        { s.holder codec client with
          line := (s.network.link client).down.filterMap ((s.network.link client).reply codec) ++
            (w, ph') :: (s₁.link client).up.filterMap (s.network.link client).request } := by
      simp only [holder, line_route ht hsent client, hnew, hongoing, List.singleton_append]
    rw [hholder]
    refine hm _ _ ?_
    simp only [holder, line_taken ht client, hold, List.singleton_append]

theorem inHand_recv (hfree : s.network.server.thread = .receive) {client payload : Bytes} {tag : ℕ}
    {call : Call} (hcall : (s.network.link client).log[tag]? = some (some call)) :
    s.inHand (.recv client payload tag) client = [(call.want, .asked)] := by
  rw [inHand, Link.handled_receive hfree, Server.Label.packets, if_pos rfl]
  simp [Link.request, Link.entry_of_call hcall]

theorem inHand_recv_of_ne (hfree : s.network.server.thread = .receive) {client payload c : Bytes}
    {tag : ℕ} (hc : c ≠ client) : s.inHand (.recv client payload tag) c = [] := by
  rw [inHand, Link.handled_receive hfree, Server.Label.packets, if_neg (Ne.symm hc)]
  rfl

theorem custody_answer {client payload : Bytes} {tag : ℕ}
    (ht : s.network.Taken s₁ (.recv client payload tag))
    (hfree : s.network.server.thread = .receive) {call : Call}
    (hcall : (s.network.link client).log[tag]? = some (some call)) (answer : Bytes)
    (hsent : server.sent = s.network.server.sent ++ [⟨client, tag, answer⟩])
    (hthread : server.thread = .receive)
    (hrunner : server.mAlgoRunner = s.network.server.mAlgoRunner)
    (hphase : replyPhase codec answer = .done ∨ replyPhase codec answer = .denied)
    (hdenied : replyPhase codec answer = .denied → ∀ t, call.want ≠ .goods t) :
    Custody.Step strict (s.fresh l) (s.custody codec)
      (custody codec ⟨s₁.route server, s.shell⟩) := by
  have hnew : s.outOfHand codec server [⟨client, tag, answer⟩] client =
      [(call.want, replyPhase codec answer)] := by
    rw [outOfHand, Link.handled_receive hthread]
    simp [Network.packetsFor, Link.reply, Link.entry_of_call hcall]
  refine custody_serve ht _ hsent client (fun c hc => ?_) (inHand_recv hfree hcall) hnew
    fun pre post hline => ?_
  · have hnone : Network.packetsFor c [⟨client, tag, answer⟩] = [] :=
      Network.packetsFor_of_ne (by simp) hc
    rw [inHand_recv_of_ne hfree hc, outOfHand, Link.handled_receive hthread, hnone]
    rfl
  · rw [hrunner]
    exact .answer call.want _ pre post hline hphase fun _ hd t ht => absurd ht (hdenied hd t)

theorem custody_accept (h : s.network.Traffic codec) {client payload : Bytes} {tag : ℕ}
    (ht : s.network.Taken s₁ (.recv client payload tag))
    (hfree : s.network.server.thread = .receive)
    (hnew : s.network.server.mClientExecCaps client = none)
    (hsent : server.sent = s.network.server.sent) (hthread : server.thread = .receive)
    (hrunner : server.mAlgoRunner = s.network.server.mAlgoRunner) :
    Custody.Step strict (s.fresh l) (s.custody codec)
      (custody codec ⟨s₁.route server, s.shell⟩) := by
  refine custody_still ht [] (by rw [hsent, List.append_nil]) (by rw [hrunner]) fun c => ?_
  rw [outOfHand, Link.handled_receive hthread]
  by_cases hc : c = client
  · subst hc
    have hup := h.up c
    rw [hnew] at hup
    rw [inHand, Link.handled_receive hfree, Server.Label.packets, if_pos rfl]
    simp [Network.packetsFor, Link.request, hup.greeting_entry ht.head]
  · rw [inHand_recv_of_ne hfree hc]
    rfl

theorem custody_enter {client payload : Bytes} {tag : ℕ}
    (ht : s.network.Taken s₁ (.recv client payload tag))
    (hfree : s.network.server.thread = .receive) {call : Call}
    (hcall : (s.network.link client).log[tag]? = some (some call)) {pool : Pool}
    (hheld : pool.held = s.network.server.mAlgoRunner.held)
    (hphase : (pool.callers 0).phase = .asked) :
    Custody.Step strict (s.fresh l) (s.custody codec) (custody codec
      ⟨s₁.route (s.network.server.withRunner pool (.handle client tag)), s.shell⟩) := by
  refine custody_still ht [] (by simp) hheld fun c => ?_
  by_cases hc : c = client
  · subst hc
    rw [inHand_recv hfree hcall, outOfHand, Link.handled_self rfl hcall]
    simp [Network.packetsFor, hphase]
  · rw [inHand_recv_of_ne hfree hc, outOfHand, Link.handled_of_ne rfl hc]
    rfl

theorem inHand_busy (hm : ∀ c, m.packets c = []) {client : Bytes} {tag : ℕ}
    (hbusy : s.network.server.thread = .handle client tag) {call : Call}
    (hcall : (s.network.link client).log[tag]? = some (some call)) :
    s.inHand m client = [(call.want, (s.network.server.mAlgoRunner.callers 0).phase)] := by
  rw [inHand, hm, Link.handled_self hbusy hcall]
  rfl

theorem inHand_busy_of_ne (hm : ∀ c, m.packets c = []) {client c : Bytes} {tag : ℕ}
    (hbusy : s.network.server.thread = .handle client tag) (hc : c ≠ client) :
    s.inHand m c = [] := by
  rw [inHand, hm, Link.handled_of_ne hbusy hc]
  rfl

theorem custody_think (h : s.Regular codec) {choice : Choice}
    (ht : s.network.Taken s₁ (.thread choice)) (hl : l = .network (.thread choice))
    {client : Bytes} {tag : ℕ} (hbusy : s.network.server.thread = .handle client tag) {pool : Pool}
    (hpool : s.network.server.mAlgoRunner.step (.caller 0 choice) = some pool)
    (hran : ∀ request response, s.network.server.mAlgoRunner.callers 0 ≠ .ran request response)
    (hgot : ∀ request response, s.network.server.mAlgoRunner.callers 0 ≠ .got request response) :
    Custody.Step strict (s.fresh l) (s.custody codec) (custody codec
      ⟨s₁.route (s.network.server.withRunner pool (.handle client tag)), s.shell⟩) := by
  obtain ⟨call, hcall, hreq⟩ := h.traffic.busy client tag hbusy
  have hwaits : ∀ request, (s.network.server.mAlgoRunner.callers 0).req = some (.get request) →
      request.Waits := by
    intro request hrequest
    have hplain := h.shells.plain client call (List.mem_of_getElem? hcall)
    exact Call.waits_of_get hplain (hreq.symm.trans hrequest)
  have hold := inHand_busy (s := s) (m := .thread choice) (fun _ => rfl) hbusy hcall
  have hnew : s.outOfHand codec (s.network.server.withRunner pool (.handle client tag)) [] client =
      [(call.want, (pool.callers 0).phase)] := by
    rw [outOfHand, Link.handled_self rfl hcall]
    rfl
  have hother : ∀ c, c ≠ client →
      s.outOfHand codec (s.network.server.withRunner pool (.handle client tag)) [] c =
        s.inHand (.thread choice) c := by
    intro c hc
    rw [inHand_busy_of_ne (fun _ => rfl) hbusy hc, outOfHand, Link.handled_of_ne rfl hc]
    rfl
  cases Pool.turn_of_caller_step h.serial h.traffic.yielding hwaits hpool hran hgot with
  | stay hphase hheld =>
      refine custody_still ht [] (by simp) hheld fun c => ?_
      by_cases hc : c = client
      · subst hc
        rw [hold, hnew, hphase]
      · exact hother c hc
  | grant t hgrant request hrequest hmode hasked hphase hheld =>
      refine custody_serve ht [] (by simp) client hother hold hnew fun pre post hline => ?_
      rw [Call.want_of_submit (hreq.symm.trans hrequest) hmode] at hline ⊢
      rw [hasked] at hline
      rw [hphase, Server.withRunner_mAlgoRunner, hheld]
      exact .grant t pre post hline (by rw [hl]; exact hgrant)
  | answer hasked hphase hheld =>
      refine custody_serve ht [] (by simp) client hother hold hnew fun pre post hline => ?_
      rw [hasked] at hline
      rw [hphase, Server.withRunner_mAlgoRunner, hheld]
      exact .answer call.want .done pre post hline (Or.inl rfl) fun _ => nofun
  | deny request hrequest hnone hasked hphase hheld =>
      refine custody_serve ht [] (by simp) client hother hold hnew fun pre post hline => ?_
      rw [hasked] at hline
      rw [hphase, Server.withRunner_mAlgoRunner, hheld]
      refine .answer call.want .denied pre post hline (Or.inr rfl) fun _ _ t hwant => ?_
      rw [Call.want_of_get (hreq.symm.trans hrequest)] at hwant
      exact Want.goods.inj hwant ▸ hnone
  | finish request hrequest hsome hasked hphase hheld =>
      refine custody_serve ht [] (by simp) client hother hold hnew fun pre post hline => ?_
      rw [Call.want_of_get (hreq.symm.trans hrequest)] at hline ⊢
      rw [hasked] at hline
      rw [hphase, Server.withRunner_mAlgoRunner, hheld]
      exact .finish request.reqId pre post hline hsome

theorem custody_return (hcodec : codec.Lawful) (h : s.Regular codec) {choice : Choice}
    (ht : s.network.Taken s₁ (.thread choice)) {client : Bytes} {tag : ℕ}
    (hbusy : s.network.server.thread = .handle client tag) {pool : Pool}
    (hheld : pool.held = s.network.server.mAlgoRunner.held) {response : RespCase}
    (hresponse : (s.network.server.mAlgoRunner.callers 0).phase = response.phase)
    (hbrief : response.Has Result.Brief)
    (htexts : response.Has fun result => ∀ s ∈ result.texts, IsText s) :
    Custody.Step strict (s.fresh l) (s.custody codec) (custody codec
      ⟨s₁.route ((s.network.server.withRunner pool .receive).reply codec client tag
        { resp := some response }), s.shell⟩) := by
  obtain ⟨call, hcall, hreq⟩ := h.traffic.busy client tag hbusy
  obtain ⟨payload, hpayload⟩ := Option.ne_none_iff_exists'.mp (hcodec.brief response hbrief)
  have hsent : Server.replied codec client tag { resp := some response } =
      [⟨client, tag, payload⟩] := by simp [Server.replied, hpayload]
  refine custody_still ht _ (Server.reply_sent _ _ _ _ _) (by simpa using hheld) fun c => ?_
  rw [hsent, outOfHand, Link.handled_receive (by simp)]
  by_cases hc : c = client
  · subst hc
    rw [inHand_busy (fun _ => rfl) hbusy hcall, hresponse]
    simp [Network.packetsFor, Link.reply, Link.entry_of_call hcall,
      replyPhase_of_serialize hcodec hpayload htexts]
  · have hnone : Network.packetsFor c [⟨client, tag, payload⟩] = [] :=
      Network.packetsFor_of_ne (by simp) hc
    rw [inHand_busy_of_ne (fun _ => rfl) hbusy hc, hnone]
    rfl

theorem custody_worker {i : ℕ} (ht : s.network.Taken s₁ (.worker i)) {pool : Pool}
    (hpool : s.network.server.mAlgoRunner.step (.worker i) = some pool) :
    Custody.Step strict (s.fresh l) (s.custody codec) (custody codec
      ⟨s₁.route (s.network.server.withRunner pool s.network.server.thread), s.shell⟩) := by
  obtain ⟨hphase, hheld⟩ := Pool.turn_of_worker_step hpool
  refine custody_still ht [] (by simp) hheld fun c => ?_
  have hhandled : (s.network.link c).handled
      (s.network.server.withRunner pool s.network.server.thread) c =
        (s.network.link c).handled s.network.server c := Link.handled_congr rfl hphase
  rw [outOfHand, hhandled]
  exact (List.append_nil _).symm

theorem custody_server (hcodec : codec.Lawful) (h : s.Regular codec) (ht : s.network.Taken s₁ m)
    (hstep : Server.step codec s.network.server m = some server)
    (hl : ∀ choice, m = .thread choice → l = .network (.thread choice)) :
    Custody.Step strict (s.fresh l) (s.custody codec)
      (custody codec ⟨s₁.route server, s.shell⟩) := by
  have hs := (Server.step_cases hstep).2
  cases hs with
  | badHandshake client payload tag hfree hnew hparse =>
      obtain ⟨-, execFunFlags, hid, hverify, hserialize⟩ := h.traffic.greeted ht hnew
      obtain ⟨_, hsome, -⟩ := greeting_accepted hcodec hid hverify hserialize hparse
      cases hsome
  | accept client payload tag hfree hnew handshake hparse hverify =>
      exact custody_accept h.traffic ht hfree hnew (by simp) (by simpa using hfree) (by simp)
  | refuse client payload tag hfree hnew handshake hparse hrefuse =>
      obtain ⟨-, execFunFlags, hid, hverify, hserialize⟩ := h.traffic.greeted ht hnew
      obtain ⟨_, hsome, hok⟩ := greeting_accepted hcodec hid hverify hserialize hparse
      obtain rfl := Option.some.inj hsome
      simp [hrefuse] at hok
  | badRequest client payload tag hfree caps hcaps hparse =>
      obtain ⟨call, hcall, hserialize⟩ := h.traffic.requested ht hcaps
      obtain ⟨answer, hanswer⟩ := Option.ne_none_iff_exists'.mp
        (hcodec.brief (.get { status := .stErrorInvalidInput }) (Server.has_of_no_result rfl))
      have hphase : replyPhase codec answer = .denied :=
        replyPhase_of_serialize hcodec hanswer (Server.has_of_no_result rfl)
      refine custody_answer ht hfree hcall answer (by simp [badResponse, hanswer]) hfree rfl
        (Or.inr hphase) fun _ t hwant => ?_
      -- only a request with a string can fail to be parsed
      rw [hcodec.req _ _ hserialize, Call.texts_of_goods hwant] at hparse
      simp at hparse
  | answer client payload tag hfree caps hcaps request hparse response hhandle =>
      obtain ⟨call, hcall, rfl, -⟩ := (h.traffic.requested ht hcaps).parse hcodec hparse
      obtain rfl := Call.reply_of_handle hhandle
      obtain ⟨answer, hanswer⟩ := Option.ne_none_iff_exists'.mp
        (hcodec.brief (.submit { status := .stErrorInvalidInput }) (Server.has_of_no_result rfl))
      have hphase : replyPhase codec answer = .done :=
        replyPhase_of_serialize hcodec hanswer (Server.has_of_no_result rfl)
      refine custody_answer ht hfree hcall answer ?_ ?_ ?_ (Or.inl hphase) fun hdenied => ?_
      · simp [Server.reply_sent, Server.replied, hanswer]
      · simpa using hfree
      · simp
      · rw [hphase] at hdenied
        cases hdenied
  | run client payload tag hfree caps hcaps request hparse sreq hhandle pool hpool =>
      obtain ⟨call, hcall, -⟩ := h.traffic.requested ht hcaps
      obtain ⟨-, hp⟩ := Pool.step_cases hpool
      cases hp with
      | run _ _ hidle =>
          exact custody_enter ht hfree hcall (Pool.held_of_jobs rfl (by rw [hidle]; rfl) rfl) rfl
  | get client payload tag hfree caps hcaps request hparse greq hhandle pool hpool =>
      obtain ⟨call, hcall, -⟩ := h.traffic.requested ht hcaps
      obtain ⟨-, hp⟩ := Pool.step_cases hpool
      cases hp with
      | get _ _ hidle =>
          exact custody_enter ht hfree hcall (Pool.held_of_jobs rfl (by rw [hidle]; rfl) rfl) rfl
  | think client tag choice hbusy pool hpool hran hgot =>
      exact custody_think h ht (hl choice rfl) hbusy hpool hran hgot
  | ran client tag choice hbusy pool hpool sreq response hran =>
      have hyields := h.traffic.yielding.callers 0
      rw [hran] at hyields
      exact custody_return hcodec h ht hbusy
        (Pool.held_of_return (Or.inl ⟨sreq, response, hran⟩) hpool) (by rw [hran]; rfl)
        (fun result hresult => (hyields result hresult).brief)
        fun result hresult => (hyields result hresult).text
  | got client tag choice hbusy pool hpool greq response hgot =>
      have hyields := h.traffic.yielding.callers 0
      rw [hgot] at hyields
      exact custody_return hcodec h ht hbusy
        (Pool.held_of_return (Or.inr ⟨greq, response, hgot⟩) hpool) (by rw [hgot]; rfl)
        (fun result hresult => (hyields result hresult).brief)
        fun result hresult => (hyields result hresult).text
  | worker i pool hpool => exact custody_worker ht hpool

/-- Every step of the session is a step of the custody. -/
theorem custody_step {s' : Session} (hcodec : codec.Lawful) (h : s.Regular codec)
    (hs : Step codec s l s')
    (hstrict : strict → s.Smooth codec l ∧ (∀ c, (s'.shell c).left = false) ∧
      (s.custody codec).Sound ∧ (s.custody codec).Orderly)
    (hfetches : ¬ strict → s.Fetches codec l) :
    Custody.Step strict (s.fresh l) (s.custody codec) (s'.custody codec) := by
  cases l with
  | command client command taken => exact custody_command h hs fun hyes => (hstrict hyes).1
  | network l =>
      cases hs with
      | init client execFunFlags hnew payload =>
          exact custody_init h.traffic hnew rfl rfl rfl rfl rfl rfl rfl rfl
      | timeout client ongoing hongoing =>
          have hin := (h.shells.busy client ongoing hongoing).1
          obtain ⟨command, hmakes, hreturned⟩ := h.shells.returned hongoing
          rw [hreturned]
          exact custody_lose h.traffic rfl rfl rfl List.prefix_rfl rfl rfl
            (fun hyes => (hstrict hyes).1) (kept_of_failed hmakes hin)
      | deliver client ongoing hongoing frame rest hdown =>
          obtain ⟨-, command, hcommand, hmakes⟩ := h.shells.busy client ongoing hongoing
          refine custody_deliver h hongoing hdown rfl rfl rfl rfl rfl rfl rfl hcommand hmakes ?_ ?_
            hfetches
          · simp [Shell.returned, hcommand]
          · intro hyes
            obtain ⟨-, hin, hinv⟩ := hstrict hyes
            have hclient := hin client
            simp only [Function.update_self] at hclient
            exact ⟨hclient, hinv⟩
      | server _ m s₁ ht server hserver hl =>
          exact custody_server hcodec h ht hserver fun choice hm => by rw [hl choice hm]

end Step

end Session

end InterProcess
