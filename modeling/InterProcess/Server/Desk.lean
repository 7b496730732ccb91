import InterProcess.Runner.Refinement
import InterProcess.Server.Refusal

/-!
# The server as a desk

An abstract server: it takes one message, deals with it at once and takes the next one.
All it remembers are the masks of its clients and the tickets: those that are out, each
with the request that it was issued for, and those that it must not issue again.
`Desk.step` says which replies are right; it has neither threads nor a queue, and it
evaluates a request where the answer is given.

`Server.dealt_step` is the simulation. A message that goes through the runner is dealt with
where the server's thread does what it answers later: at `jobs[id] = job`, at `jobs.erase`
or at the look at `job->done`.
-/

namespace InterProcess

open Transition

/-- A message and the reply to it, if it gets one. -/
structure Dealing where
  message : Message
  reply : Option EnvelopeResp
  deriving DecidableEq, Repr

/-- The masks of the clients, the tickets that are out, and all that were ever issued. -/
structure Desk where
  clients : Table Bytes UInt8 := Table.empty
  tickets : Table UInt64 SubmitRequest := Table.empty
  issued : List UInt64 := []

namespace Desk

/-- The tickets after this operation of the store; `none` if it is wrong, or if it issues a
ticket once more. -/
def apply (desk : Desk) (op : StoreOp) : Option Desk :=
  if ∃ t ∈ op.issued, t ∈ desk.issued then none
  else (Tickets.step evaluate desk.tickets op).map fun tickets =>
    { desk with tickets, issued := desk.issued ++ op.issued.toList }

/-- The desk after a request to submit was answered like this; `none` if the answer is
wrong. -/
def submit (desk : Desk) (sreq : SubmitRequest) (out : SubmitResponse) : Option Desk :=
  match sreq.mode with
  | .blocking => if runBlocking sreq = some out then some desk else none
  | .nonblocking =>
      match out with
      | { status := .stNotFinished, ticket := some ticket, result := none } =>
          desk.apply (.issue ticket.reqId sreq)
      | _ => none
  | .unrecognized _ _ => if out = { status := .stErrorInvalidInput } then some desk else none

def get (desk : Desk) (greq : GetRequest) (out : GetResponse) : Option Desk :=
  if greq.Waits then
    match out with
    | { status, result := some result } => desk.apply (.deliver greq.reqId (status, result))
    | { status := .stNotFinished, result := none } => desk.apply (.pending greq.reqId)
    | { status := .stErrorInvalidInput, result := none } => desk.apply (.unknown greq.reqId)
    | _ => none
  else if out = { status := .stErrorInvalidInput } then some desk else none

/-- The desk after this response to the request of a client with this mask. -/
def answer (desk : Desk) (caps : UInt8) (request : EnvelopeReq) (response : EnvelopeResp) :
    Option Desk :=
  match request.req, response.resp with
  | some (.submit sreq), some (.submit out) =>
      if clientHasCapabilityFor sreq caps then desk.submit sreq out
      else if out = { status := .stErrorInvalidInput } then some desk else none
  | some (.get greq), some (.get out) => desk.get greq out
  | none, some (.get out) => if out = { status := .stErrorInvalidInput } then some desk else none
  | _, _ => none

/-- The desk after a message was dealt with; `none` if the reply is wrong. -/
def step (codec : Codec) (desk : Desk) (d : Dealing) : Option Desk :=
  match desk.clients d.message.client with
  | none =>
      match codec.parseHandshake d.message.payload with
      | none => if d.reply = some badResponse then some desk else none
      | some handshake =>
          let funcFlags := handshake.execFunctions.toUInt8
          if d.reply = (if verifyExecCaps funcFlags then none else some badResponse) then
            some { desk with clients := desk.clients.insert d.message.client funcFlags }
          else none
  | some caps =>
      match codec.parseReq d.message.payload with
      | none => if d.reply = some badResponse then some desk else none
      | some request => d.reply.bind (desk.answer caps request)

theorem apply_eq_some {desk desk' : Desk} {op : StoreOp} :
    desk.apply op = some desk' ↔
      (∀ t ∈ op.issued, t ∉ desk.issued) ∧
        ∃ tickets, Tickets.step evaluate desk.tickets op = some tickets ∧
          desk' = { desk with tickets, issued := desk.issued ++ op.issued.toList } := by
  unfold apply
  split
  · next hagain =>
      obtain ⟨t, ht, hin⟩ := hagain
      simp only [reduceCtorEq, false_iff, not_and]
      exact fun hfresh => absurd hin (hfresh t ht)
  · next hfresh =>
      push Not at hfresh
      simp only [Option.map_eq_some_iff, eq_comm (a := desk')]
      exact ⟨fun h => ⟨hfresh, h⟩, fun h => h.2⟩

theorem apply_of_idle {desk desk' : Desk} {op : StoreOp} (h : desk.apply op = some desk')
    (hissued : op.issued = none)
    (htickets : ∀ m, Tickets.step evaluate desk.tickets op = some m → m = desk.tickets) :
    desk' = desk := by
  obtain ⟨-, tickets, hstep, rfl⟩ := apply_eq_some.mp h
  rw [htickets tickets hstep, hissued]
  simp

theorem answer_clients {desk desk' : Desk} {caps : UInt8} {request : EnvelopeReq}
    {response : EnvelopeResp} (h : desk.answer caps request response = some desk') :
    desk'.clients = desk.clients := by
  have happly : ∀ {op : StoreOp}, desk.apply op = some desk' → desk'.clients = desk.clients := by
    intro op hop
    obtain ⟨-, tickets, -, rfl⟩ := apply_eq_some.mp hop
    rfl
  have hif : ∀ {p : Prop} [Decidable p], (if p then some desk else none) = some desk' →
      desk'.clients = desk.clients := by
    intro p _ hsome
    rw [Option.some.inj (Option.ite_none_right_eq_some.mp hsome).2]
  unfold answer at h
  split at h
  · split at h
    · unfold submit at h
      split at h
      · exact hif h
      · split at h
        · exact happly h
        · cases h
      · exact hif h
    · exact hif h
  · unfold get at h
    split at h
    · split at h
      · exact happly h
      · exact happly h
      · exact happly h
      · cases h
    · exact hif h
  · exact hif h
  · cases h

end Desk

def Dealing.sent (codec : Codec) (d : Dealing) : List Sent :=
  (d.reply.map (Server.replied codec d.message.client d.message.tag)).getD []

/-- The request and the response of a call that returns. -/
def Event.exchanges : Event → Option (ReqCase × RespCase)
  | .ran _ request response => some (.submit request, .submit response)
  | .got _ request response => some (.get request, .get response)
  | _ => none

theorem answer_of_shows {e : Event} {op : StoreOp} (h : e.Shows op) {request : ReqCase}
    {response : RespCase} (he : e.exchanges = some (request, response)) {caps : UInt8}
    (hcap : ∀ sreq, request = .submit sreq → clientHasCapabilityFor sreq caps = true)
    {desk desk' : Desk} (hop : desk.apply op = some desk') :
    desk.answer caps { req := some request } { resp := some response } = some desk' := by
  have hskip : op = .skip → desk' = desk := by
    rintro rfl
    exact Desk.apply_of_idle hop rfl fun m hm => (Option.some.inj hm).symm
  cases h with
  | issue sreq t hmode hpayload =>
      obtain ⟨rfl, rfl⟩ := Prod.mk.inj (Option.some.inj he)
      simp [Desk.answer, hcap sreq rfl, Desk.submit, hmode, hop]
  | inline sreq out hmode heval =>
      obtain ⟨rfl, rfl⟩ := Prod.mk.inj (Option.some.inj he)
      simp only [Desk.answer, hcap sreq rfl, if_true, Desk.submit, hmode, if_pos heval, hskip rfl]
  | refuse sreq hmode hbad =>
      obtain ⟨rfl, rfl⟩ := Prod.mk.inj (Option.some.inj he)
      have hcarries := payload_ne_none_of_capability (hcap sreq rfl)
      simp only [Desk.answer, hcap sreq rfl, if_true, Desk.submit, hskip rfl]
      cases hsreq : sreq.mode with
      | blocking => exact absurd hsreq hmode
      | nonblocking => exact absurd (hbad hsreq) hcarries
      | unrecognized => rfl
  | pending greq hwaits =>
      obtain ⟨rfl, rfl⟩ := Prod.mk.inj (Option.some.inj he)
      simp [Desk.answer, Desk.get, hwaits, hop]
  | deliver greq status result hwaits =>
      obtain ⟨rfl, rfl⟩ := Prod.mk.inj (Option.some.inj he)
      simp [Desk.answer, Desk.get, hwaits, hop]
  | unknown greq =>
      obtain ⟨rfl, rfl⟩ := Prod.mk.inj (Option.some.inj he)
      by_cases hwaits : greq.Waits
      · simp [Desk.answer, Desk.get, hwaits, hop]
      · obtain rfl := Desk.apply_of_idle hop rfl fun m hm => (Tickets.step_unknown_cases hm).2
        simp [Desk.answer, Desk.get, hwaits]
  | badMode greq hwaits =>
      obtain ⟨rfl, rfl⟩ := Prod.mk.inj (Option.some.inj he)
      simp only [Desk.answer, Desk.get, if_neg hwaits, if_true, hskip rfl]

namespace Pool

variable {p p' : Pool}

theorem exchanges_of_owes {pc : CallerPc} {e : Event} (h : pc.owes = some e) :
    ∃ request response, e.exchanges = some (request, response) ∧ pc.req = some request := by
  cases pc with
  | lockQueue | push | signal | ran | got =>
      obtain rfl := Option.some.inj h
      exact ⟨_, _, rfl, rfl⟩
  | _ => cases h

theorem returns_of_caller_step {c : ℕ} {choice : Choice} (hs : p.step (.caller c choice) = some p')
    (hran : ∀ request response, p.callers c ≠ .ran request response)
    (hgot : ∀ request response, p.callers c ≠ .got request response) : p'.returns = p.returns := by
  obtain ⟨-, hs⟩ := step_cases hs
  cases hs with
  | caller _ _ hc =>
      cases hc with
      | ran request response hpc => exact absurd hpc (hran request response)
      | got request response hpc => exact absurd hpc (hgot request response)
      | enqueue | push => simp [returns, Event.isReturn]
      | _ => rfl

/-- Inside a call a step of the thread is nothing for the store, or it is the one that the
call is answered with. -/
theorem store_of_caller_step (h : p.Sound) {choice : Choice}
    (hs : p.step (.caller 0 choice) = some p')
    (hran : ∀ request response, p.callers 0 ≠ .ran request response)
    (hgot : ∀ request response, p.callers 0 ≠ .got request response) :
    ((p'.callers 0).owes = (p.callers 0).owes ∧ p'.store = p.store ∧
        ∃ new, p'.ids = p.ids ++ new ∧ p'.inserting = p.inserting ++ new) ∨
      ∃ op e, (p.callers 0).owes = none ∧ (p'.callers 0).owes = some e ∧ e.Shows op ∧
        Tickets.step evaluate p.store op = some p'.store ∧
        ∃ new, p'.ids = p.ids ++ new ∧
          op.issued.toList ++ p'.inserting = p.inserting ++ new := by
  obtain ⟨op, hstore, hprogress, hids⟩ := h.store_step (l := .caller 0 choice) rfl hs
  cases hprogress with
  | quiet howes => exact Or.inl ⟨howes, (Option.some.inj hstore).symm, hids⟩
  | acts _ e hold hnew _ hshows => exact Or.inr ⟨op, e, hold, hnew, hshows, hstore, hids⟩
  | returned e _ _ hreturns =>
      rw [returns_of_caller_step hs hran hgot] at hreturns
      simp at hreturns

theorem store_of_worker_step (h : p.Sound) {i : ℕ} (hs : p.step (.worker i) = some p') :
    (p'.callers 0).owes = (p.callers 0).owes ∧ p'.store = p.store ∧
      ∃ new, p'.ids = p.ids ++ new ∧ p'.inserting = p.inserting ++ new := by
  have howes : (p'.callers 0).owes = (p.callers 0).owes := by
    obtain ⟨-, hw⟩ := step_cases hs
    cases hw with
    | worker _ hw =>
        cases hw with
        | notify job => exact owes_notified job _
        | _ => rfl
  obtain ⟨op, hstore, hprogress, hids⟩ := h.store_step (l := .worker i) trivial hs
  cases hprogress with
  | quiet _ => exact ⟨howes, (Option.some.inj hstore).symm, hids⟩
  | acts _ e hold hnew => simp [howes, hold] at hnew
  | returned e hold hnew => simp [howes, hold] at hnew

theorem store_of_return {choice : Choice} (hs : p.step (.caller 0 choice) = some p')
    (hpc : (∃ request response, p.callers 0 = .ran request response) ∨
      ∃ request response, p.callers 0 = .got request response) :
    p'.store = p.store ∧ p'.ids = p.ids ∧ p'.inserting = p.inserting := by
  obtain ⟨hjobs, -, hheap⟩ := frame_of_return hs hpc
  refine ⟨store_congr hjobs fun r => by rw [hheap], by rw [ids, hheap, ids], ?_⟩
  rw [inserting, inserting, idle_of_return hpc hs]
  rcases hpc with ⟨request, response, hpc⟩ | ⟨request, response, hpc⟩ <;> rw [hpc] <;> rfl

end Pool

namespace Server

variable {codec : Codec} {s s' : Server} {ms : List Message}

theorem pool_of_run {n : ℕ} {ls : List Label} (hrun : run (step codec) (start n) ls = some s) :
    ∃ ks : List InterProcess.Label, (∀ k ∈ ks, k.Single) ∧
      run Pool.step (Pool.start n) ks = some s.mAlgoRunner :=
  exists_projected (f := mAlgoRunner) (fun _ _ _ hstep => runner_step hstep) hrun

theorem sound_of_run {n : ℕ} {ls : List Label} (hrun : run (step codec) (start n) ls = some s)
    (hids : s.mAlgoRunner.ids.Nodup) : s.mAlgoRunner.Sound := by
  obtain ⟨ks, hsingle, hpool⟩ := pool_of_run hrun
  have hguard : Guarded Pool.step Pool.Orderly (Pool.start n) ks :=
    guarded_and (guarded_of_forall fun _ => hsingle) (Pool.guarded_apart hpool hids)
  exact (Pool.traced_of_run hpool hguard).1

theorem ids_extends {l : Label} (hstep : step codec s l = some s') :
    s.mAlgoRunner.ids <+: s'.mAlgoRunner.ids := by
  rcases runner_step hstep with hsame | ⟨m, -, hpool⟩
  · rw [hsame]
  · exact Pool.ids_step hpool

/-- How far the server is with its last message, and what it has sent. -/
inductive Position (codec : Codec) (ms : List Message) (s : Server) (dealings : List Dealing) :
    Prop
  /-- every message is dealt with -/
  | free (hfree : s.thread = .receive) (hms : ms = dealings.map Dealing.message)
      (hsent : dealings.flatMap (Dealing.sent codec) = s.sent)
  /-- the runner has not answered the last message -/
  | before (client payload : Bytes) (tag : ℕ) (hbusy : s.thread = .handle client tag)
      (howes : (s.mAlgoRunner.callers 0).owes = none) (caps : UInt8)
      (hcaps : s.mClientExecCaps client = some caps) (request : ReqCase)
      (hparse : codec.parseReq payload = some { req := some request })
      (hreq : (s.mAlgoRunner.callers 0).req = some request)
      (hcap : ∀ sreq, request = .submit sreq → clientHasCapabilityFor sreq caps = true)
      (hms : ms = dealings.map Dealing.message ++ [⟨client, payload, tag⟩])
      (hsent : dealings.flatMap (Dealing.sent codec) = s.sent)
  /-- the answer to the last message has not been sent -/
  | after (client : Bytes) (tag : ℕ) (hbusy : s.thread = .handle client tag) (e : Event)
      (howes : (s.mAlgoRunner.callers 0).owes = some e) (request : ReqCase) (response : RespCase)
      (he : e.exchanges = some (request, response)) (hms : ms = dealings.map Dealing.message)
      (hsent : dealings.flatMap (Dealing.sent codec) =
        s.sent ++ replied codec client tag { resp := some response })

/-- The messages were dealt with like this at a desk that is now where the server is. -/
structure Dealt (codec : Codec) (ms : List Message) (s : Server) (dealings : List Dealing)
    (desk : Desk) : Prop where
  run : Transition.run (Desk.step codec) {} dealings = some desk
  clients : desk.clients = s.mClientExecCaps
  tickets : desk.tickets = s.mAlgoRunner.store
  issued : desk.issued ++ s.mAlgoRunner.inserting = s.mAlgoRunner.ids
  position : Position codec ms s dealings

theorem Dealt.reply_of_sent {dealings : List Dealing} {desk : Desk}
    (h : Dealt codec ms s dealings desk) {r : Sent} (hr : r ∈ s.sent) :
    ∃ d ∈ dealings, d.message.client = r.client ∧ d.message.tag = r.tag ∧
      ∃ response, d.reply = some response ∧ codec.serializeResp response = some r.payload := by
  have hmem : r ∈ dealings.flatMap (Dealing.sent codec) := by
    cases h.position with
    | free _ _ hsent | before _ _ _ _ _ _ _ _ _ _ _ _ hsent => exact hsent ▸ hr
    | after _ _ _ _ _ _ _ _ _ hsent => exact hsent ▸ List.mem_append_left _ hr
  obtain ⟨d, hd, hrd⟩ := List.mem_flatMap.mp hmem
  unfold Dealing.sent at hrd
  cases hreply : d.reply with
  | none => simp [hreply] at hrd
  | some response =>
      rw [hreply] at hrd
      obtain ⟨payload, hpayload, rfl⟩ := Option.map_eq_some_iff.mp (Option.mem_toList.mp hrd)
      exact ⟨d, hd, rfl, rfl, response, hreply, hpayload⟩

theorem Dealt.messages {dealings : List Dealing} {desk : Desk}
    (h : Dealt codec ms s dealings desk) :
    ∃ waiting, ms = dealings.map Dealing.message ++ waiting := by
  cases h.position with
  | free _ hms => exact ⟨[], by simpa using hms⟩
  | before _ _ _ _ _ _ _ _ _ _ _ hms => exact ⟨_, hms⟩
  | after _ _ _ _ _ _ _ _ hms => exact ⟨[], by simpa using hms⟩

theorem dealt_start (codec : Codec) (n : ℕ) : Dealt codec [] (start n) [] {} where
  run := rfl
  clients := rfl
  tickets := rfl
  issued := rfl
  position := .free rfl rfl rfl

variable {dealings : List Dealing} {desk : Desk}

theorem Dealt.deal (h : Dealt codec ms s dealings desk) (hfree : s.thread = .receive) (d : Dealing)
    {desk' : Desk} (hdesk : desk.step codec d = some desk')
    (hclients : desk'.clients = s'.mClientExecCaps) (htickets : desk'.tickets = desk.tickets)
    (hissued : desk'.issued = desk.issued) (hpool : s'.mAlgoRunner = s.mAlgoRunner)
    (hfree' : s'.thread = .receive) (hsent : s'.sent = s.sent ++ d.sent codec) :
    Dealt codec (ms ++ [d.message]) s' (dealings ++ [d]) desk' where
  run := run_append_eq_some.mpr ⟨desk, h.run, by rw [run_singleton, hdesk]⟩
  clients := hclients
  tickets := by rw [htickets, hpool, h.tickets]
  issued := by rw [hissued, hpool, h.issued]
  position := by
    cases h.position with
    | free _ hms hold =>
        refine .free hfree' (by simp [hms]) ?_
        rw [List.flatMap_append, hold, hsent, List.flatMap_singleton]
    | before client payload tag hbusy => simp [hfree] at hbusy
    | after client tag hbusy => simp [hfree] at hbusy

theorem Dealt.enter (h : Dealt codec ms s dealings desk) (hfree : s.thread = .receive)
    {client payload : Bytes} {tag : ℕ} {caps : UInt8} (hcaps : s.mClientExecCaps client = some caps)
    (request : ReqCase) (hparse : codec.parseReq payload = some { req := some request })
    (hcap : ∀ sreq, request = .submit sreq → clientHasCapabilityFor sreq caps = true) {pool : Pool}
    (howes : (pool.callers 0).owes = none) (hreq : (pool.callers 0).req = some request)
    (hstore : pool.store = s.mAlgoRunner.store) (hids : pool.ids = s.mAlgoRunner.ids)
    (hinserting : pool.inserting = s.mAlgoRunner.inserting) :
    Dealt codec (ms ++ [⟨client, payload, tag⟩]) (s.withRunner pool (.handle client tag)) dealings
      desk where
  run := h.run
  clients := h.clients
  tickets := h.tickets.trans hstore.symm
  issued := by rw [withRunner_mAlgoRunner, hids, hinserting, h.issued]
  position := by
    cases h.position with
    | free _ hms hsent =>
        exact .before client payload tag rfl howes caps hcaps request hparse hreq hcap (by rw [hms])
          hsent
    | before client payload tag hbusy => simp [hfree] at hbusy
    | after client tag hbusy => simp [hfree] at hbusy

theorem Dealt.quiet (h : Dealt codec ms s dealings desk) {pool : Pool}
    (howes : (pool.callers 0).owes = (s.mAlgoRunner.callers 0).owes)
    (hreq : (pool.callers 0).req = (s.mAlgoRunner.callers 0).req)
    (hstore : pool.store = s.mAlgoRunner.store)
    (hids : ∃ new, pool.ids = s.mAlgoRunner.ids ++ new ∧
      pool.inserting = s.mAlgoRunner.inserting ++ new) :
    Dealt codec ms (s.withRunner pool s.thread) dealings desk where
  run := h.run
  clients := h.clients
  tickets := h.tickets.trans hstore.symm
  issued := by
    obtain ⟨new, hids, hinserting⟩ := hids
    rw [withRunner_mAlgoRunner, hids, hinserting, ← List.append_assoc, h.issued]
  position := by
    cases h.position with
    | free hfree hms hsent => exact .free hfree hms hsent
    | before client payload tag hbusy hold caps hcaps request hparse hreq' hcap hms hsent =>
        exact .before client payload tag hbusy (howes.trans hold) caps hcaps request hparse
          (hreq.trans hreq') hcap hms hsent
    | after client tag hbusy e hold request response he hms hsent =>
        exact .after client tag hbusy e (howes.trans hold) request response he hms hsent

theorem Dealt.act (h : Dealt codec ms s dealings desk) {client : Bytes} {tag : ℕ}
    (hbusy : s.thread = .handle client tag) {pool : Pool} {op : StoreOp} {e : Event}
    (hold : (s.mAlgoRunner.callers 0).owes = none) (hnew : (pool.callers 0).owes = some e)
    (hreq : (pool.callers 0).req = (s.mAlgoRunner.callers 0).req) (hshows : e.Shows op)
    (hstep : Tickets.step evaluate s.mAlgoRunner.store op = some pool.store)
    (hids : ∃ new, pool.ids = s.mAlgoRunner.ids ++ new ∧
      op.issued.toList ++ pool.inserting = s.mAlgoRunner.inserting ++ new)
    (hnodup : pool.ids.Nodup) :
    ∃ d desk', Dealt codec ms (s.withRunner pool (.handle client tag)) (dealings ++ [d]) desk' := by
  cases h.position with
  | free hfree => simp [hfree] at hbusy
  | after client' tag' hbusy' e' howes => simp [hold] at howes
  | before client' payload tag' hbusy' howes caps hcaps request hparse hreq' hcap hms hsent =>
      obtain ⟨rfl, rfl⟩ := ServerPc.handle.inj (hbusy.symm.trans hbusy')
      obtain ⟨request', response, he, hreq''⟩ := Pool.exchanges_of_owes hnew
      obtain rfl : request = request' :=
        Option.some.inj (hreq'.symm.trans (hreq.symm.trans hreq''))
      obtain ⟨new, hids, hinserting⟩ := hids
      have hissued : (desk.issued ++ op.issued.toList) ++ pool.inserting = pool.ids := by
        rw [List.append_assoc, hinserting, ← List.append_assoc, h.issued, hids]
      have hfresh : ∀ t ∈ op.issued, t ∉ desk.issued := by
        intro t ht hagain
        rw [← hissued, List.nodup_append] at hnodup
        have hlast : t ∈ op.issued.toList := Option.mem_toList.mpr ht
        exact (List.nodup_append.mp hnodup.1).2.2 t hagain t hlast rfl
      let d : Dealing := ⟨⟨client, payload, tag⟩, some { resp := some response }⟩
      let desk' : Desk :=
        { desk with tickets := pool.store, issued := desk.issued ++ op.issued.toList }
      have happly : desk.apply op = some desk' :=
        Desk.apply_eq_some.mpr ⟨hfresh, _, by rw [h.tickets, hstep], rfl⟩
      have hdesk : desk.step codec d = some desk' := by
        simp [d, Desk.step, h.clients, hcaps, hparse, answer_of_shows hshows he hcap happly]
      refine ⟨d, desk', ?_, h.clients, rfl, hissued, ?_⟩
      · exact run_append_eq_some.mpr ⟨desk, h.run, by rw [run_singleton, hdesk]⟩
      · refine .after client tag rfl e hnew request response he (by simp [d, hms]) ?_
        rw [List.flatMap_append, hsent, List.flatMap_singleton]
        rfl

theorem Dealt.return (h : Dealt codec ms s dealings desk) {client : Bytes} {tag : ℕ}
    (hbusy : s.thread = .handle client tag) {e : Event}
    (howes : (s.mAlgoRunner.callers 0).owes = some e) {request : ReqCase} {response : RespCase}
    (he : e.exchanges = some (request, response)) {pool : Pool}
    (hstore : pool.store = s.mAlgoRunner.store) (hids : pool.ids = s.mAlgoRunner.ids)
    (hinserting : pool.inserting = s.mAlgoRunner.inserting) :
    Dealt codec ms ((s.withRunner pool .receive).reply codec client tag { resp := some response })
      dealings desk where
  run := h.run
  clients := by
    rw [reply_mClientExecCaps]
    exact h.clients
  tickets := by
    rw [reply_mAlgoRunner, withRunner_mAlgoRunner, hstore]
    exact h.tickets
  issued := by
    rw [reply_mAlgoRunner, withRunner_mAlgoRunner, hids, hinserting]
    exact h.issued
  position := by
    cases h.position with
    | free hfree => simp [hfree] at hbusy
    | before client' payload tag' hbusy' hnone => simp [howes] at hnone
    | after client' tag' hbusy' e' howes' request' response' he' hms hsent =>
        obtain ⟨rfl, rfl⟩ := ServerPc.handle.inj (hbusy.symm.trans hbusy')
        obtain rfl := Option.some.inj (howes.symm.trans howes')
        obtain ⟨-, rfl⟩ := Prod.mk.inj (Option.some.inj (he.symm.trans he'))
        exact .free (by simp) hms (by simpa using hsent)

theorem sent_bad (hcodec : codec.Lawful) (client payload : Bytes) (tag : ℕ) :
    Dealing.sent codec ⟨⟨client, payload, tag⟩, some badResponse⟩ =
      [⟨client, tag, (codec.serializeResp badResponse).getD []⟩] := by
  obtain ⟨bytes, hbytes⟩ := Option.ne_none_iff_exists'.mp
    (hcodec.brief (.get { status := .stErrorInvalidInput }) (has_of_no_result rfl))
  have hbad : codec.serializeResp badResponse = some bytes := hbytes
  simp [Dealing.sent, replied, hbad]

theorem answer_of_reply {request : EnvelopeReq} {caps : UInt8} {response : EnvelopeResp}
    (h : handleEnvelope request caps = .reply response) (desk : Desk) :
    desk.answer caps request response = some desk := by
  unfold handleEnvelope at h
  rcases hreq : request.req with _ | (sreq | greq)
  · simp only [hreq, Handling.reply.injEq] at h
    simp [Desk.answer, hreq, ← h]
  · simp only [hreq] at h
    split at h
    · cases h
    · next hcap =>
        obtain rfl := Handling.reply.inj h
        simp [Desk.answer, hreq, hcap]
  · simp [hreq] at h

/-- In every step of the server nothing or one message is dealt with at the desk. -/
theorem dealt_step (hcodec : codec.Lawful) {l : Label} (h : Dealt codec ms s dealings desk)
    (hsound : s.mAlgoRunner.Sound) (hids : s'.mAlgoRunner.ids.Nodup)
    (hstep : step codec s l = some s') :
    ∃ more desk', Dealt codec (ms ++ l.message.toList) s' (dealings ++ more) desk' := by
  have hclients := h.clients
  obtain ⟨-, hs⟩ := step_cases hstep
  cases hs with
  | badHandshake client payload tag hfree hnew hparse =>
      refine ⟨_, desk, h.deal hfree ⟨⟨client, payload, tag⟩, some badResponse⟩ ?_ hclients rfl rfl rfl
        hfree ?_⟩
      · simp [Desk.step, hclients, hnew, hparse]
      · rw [sent_bad hcodec]
        rfl
  | accept client payload tag hfree hnew handshake hparse hverify =>
      let clients := desk.clients.insert client handshake.execFunctions.toUInt8
      refine ⟨_, { desk with clients }, h.deal hfree ⟨⟨client, payload, tag⟩, none⟩ ?_ ?_ rfl rfl rfl
        hfree (List.append_nil _).symm⟩
      · simp [clients, Desk.step, hclients, hnew, hparse, hverify]
      · simp only [clients, hclients]
        rfl
  | refuse client payload tag hfree hnew handshake hparse hverify =>
      let clients := desk.clients.insert client handshake.execFunctions.toUInt8
      refine ⟨_, { desk with clients }, h.deal hfree ⟨⟨client, payload, tag⟩, some badResponse⟩ ?_ ?_
        rfl rfl rfl hfree ?_⟩
      · simp [clients, Desk.step, hclients, hnew, hparse, hverify]
      · simp only [clients, hclients]
        rfl
      · rw [sent_bad hcodec]
        rfl
  | badRequest client payload tag hfree caps hcaps hparse =>
      refine ⟨_, desk, h.deal hfree ⟨⟨client, payload, tag⟩, some badResponse⟩ ?_ hclients rfl rfl rfl
        hfree ?_⟩
      · simp [Desk.step, hclients, hcaps, hparse]
      · rw [sent_bad hcodec]
        rfl
  | answer client payload tag hfree caps hcaps request hparse response hhandle =>
      have hmask : desk.clients client = some caps := by rw [hclients, hcaps]
      refine ⟨_, desk, h.deal hfree ⟨⟨client, payload, tag⟩, some response⟩ ?_ ?_ rfl rfl ?_ ?_
        (reply_sent _ _ _ _ _)⟩
      · simp [Desk.step, hmask, hparse, answer_of_reply hhandle]
      · rw [reply_mClientExecCaps, hclients]
      · rw [reply_mAlgoRunner]
      · rw [reply_thread, hfree]
  | run client payload tag hfree caps hcaps request hparse sreq hhandle pool hpool =>
      obtain ⟨hreq, hcap⟩ := handleEnvelope_eq_run.mp hhandle
      obtain ⟨-, hp⟩ := Pool.step_cases hpool
      cases hp with
      | run _ _ hidle =>
          refine ⟨[], desk, ?_⟩
          rw [List.append_nil]
          refine h.enter hfree hcaps (.submit sreq) (hreq ▸ hparse) ?_
            (by simp [CallerPc.owes]) (by simp [CallerPc.req]) rfl rfl
            (by simp [Pool.inserting, hidle, CallerPc.inserts])
          rintro r ⟨⟩
          exact hcap
  | get client payload tag hfree caps hcaps request hparse greq hhandle pool hpool =>
      have hreq := handleEnvelope_eq_get.mp hhandle
      obtain ⟨-, hp⟩ := Pool.step_cases hpool
      cases hp with
      | get _ _ hidle =>
          refine ⟨[], desk, ?_⟩
          rw [List.append_nil]
          exact h.enter hfree hcaps (.get greq) (hreq ▸ hparse) (by simp)
            (by simp [CallerPc.owes]) (by simp [CallerPc.req]) rfl rfl
            (by simp [Pool.inserting, hidle, CallerPc.inserts])
  | think client tag choice hbusy pool hpool hran hgot =>
      have hreq := Pool.req_of_caller_step hpool hran hgot
      rw [show Label.message (.thread choice) = none from rfl, Option.toList_none, List.append_nil]
      rcases Pool.store_of_caller_step hsound hpool hran hgot with
        ⟨howes, hstore, hnew⟩ | ⟨op, e, hold, hnew, hshows, hop, hissued⟩
      · refine ⟨[], desk, ?_⟩
        rw [List.append_nil, ← hbusy]
        exact h.quiet howes hreq hstore hnew
      · obtain ⟨d, desk', hdealt⟩ := h.act hbusy hold hnew hreq hshows hop hissued hids
        exact ⟨[d], desk', hdealt⟩
  | ran client tag choice hbusy pool hpool sreq response hran =>
      obtain ⟨hstore, hids, hinserting⟩ := Pool.store_of_return hpool (Or.inl ⟨sreq, response, hran⟩)
      refine ⟨[], desk, ?_⟩
      rw [show Label.message (.thread choice) = none from rfl, Option.toList_none, List.append_nil,
        List.append_nil]
      exact h.return hbusy (by rw [hran]; rfl) rfl hstore hids hinserting
  | got client tag choice hbusy pool hpool greq response hgot =>
      obtain ⟨hstore, hids, hinserting⟩ := Pool.store_of_return hpool (Or.inr ⟨greq, response, hgot⟩)
      refine ⟨[], desk, ?_⟩
      rw [show Label.message (.thread choice) = none from rfl, Option.toList_none, List.append_nil,
        List.append_nil]
      exact h.return hbusy (by rw [hgot]; rfl) rfl hstore hids hinserting
  | worker i pool hpool =>
      obtain ⟨howes, hstore, hnew⟩ := Pool.store_of_worker_step hsound hpool
      refine ⟨[], desk, ?_⟩
      rw [show Label.message (.worker i) = none from rfl, Option.toList_none, List.append_nil,
        List.append_nil]
      exact h.quiet howes (Pool.req_of_worker_step hpool 0) hstore hnew

theorem dealt_of_run (hcodec : codec.Lawful) {n : ℕ} {ls : List Label}
    (hrun : run (step codec) (start n) ls = some s) (hids : s.mAlgoRunner.ids.Nodup) :
    ∃ dealings desk, Dealt codec (ls.filterMap Label.message) s dealings desk := by
  refine run_history (P := fun ls s => s.mAlgoRunner.ids.Nodup →
    ∃ dealings desk, Dealt codec (ls.filterMap Label.message) s dealings desk) ?_ ?_ hrun hids
  · intro ls s l s' hrun h hstep hids'
    have hids : s.mAlgoRunner.ids.Nodup := hids'.sublist (ids_extends hstep).sublist
    obtain ⟨dealings, desk, hdealt⟩ := h hids
    have hlast : [l].filterMap Label.message = l.message.toList := by
      cases hl : l.message <;> simp [hl]
    rw [List.filterMap_append, hlast]
    obtain ⟨more, desk', hdealt'⟩ := dealt_step hcodec hdealt (sound_of_run hrun hids) hids' hstep
    exact ⟨_, desk', hdealt'⟩
  · exact fun _ => ⟨[], {}, dealt_start codec n⟩

/-- Under a steady clock the server is a desk: the messages that it has received, but for
one in the runner perhaps, were dealt with one after the other, the masks and the tickets
that are out are those of the desk, which issues none twice, and what was sent are its
replies in their order, but for one that is about to be sent. -/
theorem refines_desk (codec : Codec) (hcodec : codec.Lawful) (n : ℕ) (ls : List Label) (s : Server)
    (hrun : run (step codec) (start n) ls = some s)
    (hclock : SteadyClock s.mAlgoRunner.readings) :
    ∃ dealings desk, run (Desk.step codec) {} dealings = some desk ∧
      desk.clients = s.mClientExecCaps ∧ desk.tickets = s.mAlgoRunner.store ∧
      desk.issued <+: s.mAlgoRunner.ids ∧ ∃ waiting late, ls.filterMap Label.message = dealings.map Dealing.message ++ waiting ∧
        dealings.flatMap (Dealing.sent codec) = s.sent ++ late ∧
        waiting.length + late.length ≤ 1 ∧ (s.thread = .receive → waiting = [] ∧ late = []) := by
  obtain ⟨ks, -, hpool⟩ := pool_of_run hrun
  have hids := (Pool.clocked_of_run hpool).ids_nodup hclock
  obtain ⟨dealings, desk, hdealt⟩ := dealt_of_run hcodec hrun hids
  refine ⟨dealings, desk, hdealt.run, hdealt.clients, hdealt.tickets, ⟨_, hdealt.issued⟩, ?_⟩
  cases hdealt.position with
  | free hfree hms hsent => exact ⟨[], [], by simpa using hms, by simpa using hsent, by simp, by simp⟩
  | before client payload tag hbusy _ _ _ _ _ _ _ hms hsent =>
      exact ⟨_, [], hms, by simpa using hsent, by simp, by simp [hbusy]⟩
  | after client tag hbusy e _ request response _ hms hsent =>
      refine ⟨[], _, by simpa using hms, hsent, ?_, by simp [hbusy]⟩
      cases hserialise : codec.serializeResp { resp := some response } <;> simp [replied, hserialise]

/-- A client registers and submits an addition, the worker executes it, and the client asks
for the result. -/
def redeemed : List Label :=
  [.recv [65] (sentHandshake 1) 0, .recv [65] (sentSubmit (Pool.addRequest 2 3)) 1] ++
    List.replicate 6 (.thread { reading := 5 }) ++ List.replicate 6 (.worker 0) ++
    .recv [65] (sentGet { ticket := some { reqId := ticketId 5 0 } }) 2 ::
    List.replicate 4 (.thread {})

/-- Three messages and two replies, dealt with at a desk. -/
theorem refines_desk_redeemed :
    ∃ s, run (step wireCodec) (start 1) redeemed = some s ∧ s.sent.map Sent.tag = [1, 2] ∧
      ∃ dealings desk, run (Desk.step wireCodec) {} dealings = some desk ∧
        dealings.map (fun d => d.message.tag) = [0, 1, 2] ∧
        dealings.flatMap (Dealing.sent wireCodec) = s.sent := by
  obtain ⟨s, hs, htest⟩ := exists_of_run_any (step wireCodec) (start 1) redeemed
    (fun s => s.thread = .receive ∧ s.sent.map Sent.tag = [1, 2] ∧
      s.mAlgoRunner.readings = [5]) (by decide +kernel)
  simp only [decide_eq_true_eq] at htest
  obtain ⟨hfree, hsent, hreadings⟩ := htest
  have hclock : SteadyClock s.mAlgoRunner.readings := by
    rw [hreadings]
    exact ⟨List.pairwise_singleton _ _, by simp, fun a => List.count_le_length.trans (by simp)⟩
  obtain ⟨dealings, desk, hrun, -, -, -, waiting, late, hms, hlate, -, hnone⟩ :=
    refines_desk wireCodec wireCodec_lawful 1 redeemed s hs hclock
  obtain ⟨rfl, rfl⟩ := hnone hfree
  have htags := congrArg (List.map Message.tag) hms
  rw [List.append_nil, List.map_map] at htags
  exact ⟨s, hs, hsent, dealings, desk, hrun, htags.symm, by rw [hlate, List.append_nil]⟩

end Server

end InterProcess
