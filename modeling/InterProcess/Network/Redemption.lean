import InterProcess.Network.History

/-!
# What a ticket is redeemed for

The visits of a run are operations of one store of deferred answers, in which no ticket is
issued twice. So whoever gets a result for a ticket gets what the blocking call would have
answered the request that the ticket was issued for, and one call at most gets it.
-/

namespace InterProcess

open Transition Wire

def Visit.op (v : Visit) : StoreOp :=
  match v.errand, v.reply.bind EnvelopeResp.resp with
  | .call (.submitNonBlocking req), some (.submit out) =>
      match out.ticket with
      | some ticket => .issue ticket.reqId { req with mode := .nonblocking }
      | none => .skip
  | .call (.getResult ticket _ _), some (.get out) =>
      match out.result with
      | some result => .deliver ticket.reqId (out.status, result)
      | none => .skip
  | _, _ => .skip

/-- The step of the tickets that the visit is. -/
structure Desk.Takes (desk : Desk) (op : StoreOp) (desk' : Desk) : Prop where
  fresh : ∀ t ∈ op.issued, t ∉ desk.issued
  step : Tickets.step evaluate desk.tickets op = some desk'.tickets
  issued : desk'.issued = desk.issued ++ op.issued.toList

namespace Desk

variable {desk desk' : Desk}

theorem takes_of_apply {op : StoreOp} (h : desk.apply op = some desk') : desk.Takes op desk' := by
  obtain ⟨hfresh, tickets, hstep, rfl⟩ := apply_eq_some.mp h
  exact ⟨hfresh, hstep, rfl⟩

theorem takes_skip (htickets : desk'.tickets = desk.tickets) (hissued : desk'.issued = desk.issued) :
    desk.Takes .skip desk' where
  fresh t ht := by cases ht
  step := by rw [htickets]; rfl
  issued := by rw [hissued]; simp [Tickets.Op.issued]

theorem takes_of_submit {caps : UInt8} {sreq : SubmitRequest} {out : SubmitResponse}
    (h : desk.answer caps { req := some (.submit sreq) } { resp := some (.submit out) } =
      some desk') :
    desk' = desk ∧ (sreq.mode = .nonblocking → out.ticket = none) ∨
      ∃ ticket, out.ticket = some ticket ∧ sreq.mode = .nonblocking ∧
        desk.Takes (.issue ticket.reqId sreq) desk' := by
  simp only [answer] at h
  split at h
  · unfold submit at h
    split at h
    · next hmode =>
        obtain ⟨-, hdesk⟩ := Option.ite_none_right_eq_some.mp h
        exact Or.inl ⟨(Option.some.inj hdesk).symm, by simp [hmode]⟩
    · next hmode =>
        split at h
        · next ticket => exact Or.inr ⟨ticket, rfl, hmode, takes_of_apply h⟩
        · cases h
    · next hmode =>
        obtain ⟨-, hdesk⟩ := Option.ite_none_right_eq_some.mp h
        exact Or.inl ⟨(Option.some.inj hdesk).symm, by simp [hmode]⟩
  · obtain ⟨rfl, hdesk⟩ := Option.ite_none_right_eq_some.mp h
    exact Or.inl ⟨(Option.some.inj hdesk).symm, fun _ => rfl⟩

theorem takes_of_get {greq : GetRequest} {out : GetResponse} (h : desk.get greq out = some desk') :
    match out.result with
    | some result => desk.Takes (.deliver greq.reqId (out.status, result)) desk'
    | none => desk' = desk := by
  unfold get at h
  split at h
  · split at h
    · exact takes_of_apply h
    · exact apply_of_idle h rfl fun m hm => (Tickets.step_pending_cases hm).2
    · exact apply_of_idle h rfl fun m hm => (Tickets.step_unknown_cases hm).2
    · cases h
  · obtain ⟨rfl, hdesk⟩ := Option.ite_none_right_eq_some.mp h
    exact (Option.some.inj hdesk).symm

theorem takes_of_answer {client : Bytes} {number : ℕ} {call : Call} {response : EnvelopeResp}
    {caps : UInt8} (h : desk.answer caps call.envelope response = some desk') :
    desk.Takes (Visit.op ⟨client, number, .call call, some response⟩) desk' := by
  have hsame : desk' = desk → desk.Takes .skip desk' := by
    rintro rfl
    exact takes_skip rfl rfl
  rcases response with ⟨_ | (out | out)⟩
  · cases call <;> cases h
  · cases call with
    | submitBlocking req =>
        rcases takes_of_submit h with ⟨hdesk, -⟩ | ⟨_, -, hmode, -⟩
        · exact hsame hdesk
        · cases hmode
    | submitNonBlocking req =>
        rcases takes_of_submit h with ⟨hdesk, hnone⟩ | ⟨ticket, hticket, -, htakes⟩
        · have hticket : out.ticket = none := hnone rfl
          simpa [Visit.op, hticket] using hsame hdesk
        · simpa [Visit.op, hticket] using htakes
    | getResult ticket waitMode timeoutMs => cases h
  · cases call with
    | submitBlocking | submitNonBlocking => cases h
    | getResult ticket waitMode timeoutMs =>
        have htakes := takes_of_get h
        obtain ⟨status, _ | result⟩ := out
        · exact hsame htakes
        · exact htakes

/-- A visit is the step of the tickets that it says. -/
theorem takes_of_visit {v : Visit} (h : desk.visit v = some desk') : desk.Takes v.op desk' := by
  obtain ⟨client, number, errand, reply⟩ := v
  simp only [visit] at h
  split at h
  · obtain ⟨rfl, hdesk⟩ := Option.ite_none_right_eq_some.mp h
    obtain rfl := Option.some.inj hdesk
    exact takes_skip rfl rfl
  · next call caps hcaps =>
      split at h
      · obtain ⟨response, rfl, hanswer⟩ := Option.bind_eq_some_iff.mp h
        exact takes_of_answer hanswer
      · obtain ⟨rfl, hdesk⟩ := Option.ite_none_right_eq_some.mp h
        obtain rfl := Option.some.inj hdesk
        cases call <;> exact takes_skip rfl rfl
  · cases h

/-- The visits of a run are operations of one store, and no ticket is issued twice. -/
theorem ops_of_visits {visits : List Visit} (h : run visit desk visits = some desk')
    (honce : desk.issued.Nodup) :
    run (Tickets.step evaluate) desk.tickets (visits.map Visit.op) = some desk'.tickets ∧
      desk'.issued = desk.issued ++ (visits.map Visit.op).filterMap Tickets.Op.issued ∧
      desk'.issued.Nodup := by
  induction visits generalizing desk with
  | nil =>
      obtain rfl := Option.some.inj h
      exact ⟨rfl, by simp, honce⟩
  | cons v visits ih =>
      obtain ⟨next, hvisit, hrest⟩ := run_cons_eq_some.mp h
      have htakes := takes_of_visit hvisit
      have hnext : next.issued.Nodup := by
        rw [htakes.issued, List.nodup_append]
        refine ⟨honce, by cases v.op.issued <;> simp, fun t ht u hu => ?_⟩
        rintro rfl
        exact htakes.fresh t (Option.mem_toList.mp hu) ht
      obtain ⟨hrun, hissued, hlast⟩ := ih hrest hnext
      refine ⟨run_cons_eq_some.mpr ⟨next.tickets, htakes.step, hrun⟩, ?_, hlast⟩
      rw [hissued, htakes.issued, List.append_assoc]
      cases hop : v.op.issued <;> simp [hop]

end Desk

namespace Completed

def Grants (c : Completed) (request : SubmitRequest) (t : UInt64) : Prop :=
  c.ongoing.call = .submitNonBlocking request ∧
    ∃ out ticket, c.result = .submit true out ∧ out.ticket = some ticket ∧ ticket.reqId = t

def Redeems (c : Completed) (t : UInt64) (status : Status) (result : Result) : Prop :=
  ∃ ticket waitMode timeoutMs, c.ongoing.call = .getResult ticket waitMode timeoutMs ∧
    ticket.reqId = t ∧ c.result = .get true { status, result := some result }

theorem Grants.ok {c : Completed} {request : SubmitRequest} {t : UInt64}
    (h : c.Grants request t) : c.result.ok = true := by
  obtain ⟨-, _, _, hresult, -⟩ := h
  rw [hresult]
  rfl

theorem Redeems.ok {c : Completed} {t : UInt64} {status : Status} {result : Result}
    (h : c.Redeems t status result) : c.result.ok = true := by
  obtain ⟨_, _, _, -, -, hresult⟩ := h
  rw [hresult]
  rfl

end Completed

namespace Visit

variable {v : Visit} {c : Completed}

theorem Explains.issue (h : v.Explains c) {request : SubmitRequest} {t : UInt64}
    (hgrants : c.Grants request t) : v.op = .issue t { request with mode := .nonblocking } := by
  obtain ⟨hcall, out, ticket, hresult, hticket, rfl⟩ := hgrants
  obtain ⟨response, hreply, hreturned⟩ := h.returned
  rw [hresult, hcall] at hreturned
  rcases response with ⟨_ | (out' | out')⟩
  · cases hreturned
  · obtain rfl := (Return.submit.inj hreturned).2
    simp [op, h.errand, hcall, hreply, hticket]
  · cases hreturned

theorem Explains.deliver (h : v.Explains c) {t : UInt64} {status : Status} {result : Result}
    (hredeems : c.Redeems t status result) : v.op = .deliver t (status, result) := by
  obtain ⟨ticket, waitMode, timeoutMs, hcall, rfl, hresult⟩ := hredeems
  obtain ⟨response, hreply, hreturned⟩ := h.returned
  rw [hresult, hcall] at hreturned
  rcases response with ⟨_ | (out' | out')⟩
  · cases hreturned
  · cases hreturned
  · obtain rfl := (Return.get.inj hreturned).2
    simp [op, h.errand, hcall, hreply]

end Visit

namespace Network

section Ordered

variable {codec : Codec} {n : ℕ} {ls : List Label} {s : Network} {visits : List Visit} {desk : Desk}

theorem Ordered.explains (h : Ordered codec n ls s visits desk)
    (hrun : Transition.run (step codec) (start n) ls = some s) {c : Completed} (hc : c ∈ s.completed)
    (hok : c.result.ok = true) (hclean : c.ongoing.clean = true) : ∃ v ∈ visits, v.Explains c := by
  obtain ⟨early, hinit, hexplained, -⟩ := h.early ls [] s (List.append_nil ls).symm hrun
  obtain ⟨v, hv, hexplains⟩ := hexplained c hc hok hclean
  exact ⟨v, hinit.subset hv, hexplains⟩

theorem Ordered.ops (h : Ordered codec n ls s visits desk) :
    Transition.run (Tickets.step evaluate) Table.empty (visits.map Visit.op) = some desk.tickets ∧
      ((visits.map Visit.op).filterMap Tickets.Op.issued).Nodup := by
  obtain ⟨hops, hissued, honce⟩ := Desk.ops_of_visits h.run List.nodup_nil
  rw [hissued, List.nil_append] at honce
  exact ⟨hops, honce⟩

/-- A result that a call gets is that of the request that its ticket was granted for. -/
theorem Ordered.evaluate_of_redeems (h : Ordered codec n ls s visits desk)
    (hrun : Transition.run (step codec) (start n) ls = some s) {c d : Completed}
    (hc : c ∈ s.completed) (hd : d ∈ s.completed) (hcclean : c.ongoing.clean = true)
    (hdclean : d.ongoing.clean = true) {request : SubmitRequest} {t : UInt64} {status : Status}
    {result : Result} (hgrants : c.Grants request t) (hredeems : d.Redeems t status result) :
    evaluate { request with mode := .nonblocking } = some (status, result) := by
  obtain ⟨v, hv, hissues⟩ := h.explains hrun hc hgrants.ok hcclean
  obtain ⟨w, hw, hdelivers⟩ := h.explains hrun hd hredeems.ok hdclean
  obtain ⟨hops, honce⟩ := h.ops
  exact Tickets.answer_of_deliver hops honce (List.mem_map.mpr ⟨v, hv, hissues.issue hgrants⟩)
    (List.mem_map.mpr ⟨w, hw, hdelivers.deliver hredeems⟩)

/-- Of two visits only one gives the answer of a ticket out. -/
theorem Ordered.deliver_once (h : Ordered codec n ls s visits desk) {v w : Visit} (hv : v ∈ visits)
    (hw : w ∈ visits) {t : UInt64} {a b : Status × Result} (hvop : v.op = .deliver t a)
    (hwop : w.op = .deliver t b) : v = w := by
  obtain ⟨hops, honce⟩ := h.ops
  by_contra hvw
  -- two visits that give the answer out, one after the other
  have hlater : ∀ {before after : List Visit} {x y : Visit} {a b : Status × Result},
      visits = before ++ x :: after → x.op = .deliver t a → y ∈ after →
        y.op = .deliver t b → False := by
    rintro before after x y a b rfl hx hy hyop
    rw [List.map_append, List.map_cons, hx] at hops honce
    exact Tickets.deliver_once hops honce (List.mem_map.mpr ⟨y, hy, hyop⟩)
  obtain ⟨before, after, hsplit⟩ := List.append_of_mem hv
  rw [hsplit] at hw
  rcases List.mem_append.mp hw with hearly | hlate
  · obtain ⟨before₁, after₁, rfl⟩ := List.append_of_mem hearly
    have hsplit' : visits = before₁ ++ w :: (after₁ ++ v :: after) := by simp [hsplit]
    exact hlater hsplit' hwop (by simp) hvop
  · exact hlater hsplit hvop ((List.mem_cons.mp hlate).resolve_left (Ne.symm hvw)) hwop

end Ordered

/-- Under a steady clock, and for calls that began when nothing was owed: the result that a
call gets for a ticket is what the blocking call would have returned for the request that
the ticket was granted for, whoever shows the ticket, and no two calls get one. -/
theorem redeemed_exactly_once (codec : Codec) (hcodec : codec.Lawful) (n : ℕ) (ls : List Label)
    (s : Network) (hrun : run (step codec) (start n) ls = some s)
    (hclock : SteadyClock s.server.mAlgoRunner.readings) :
    (∀ c ∈ s.completed, ∀ d ∈ s.completed, c.ongoing.clean = true → d.ongoing.clean = true →
      ∀ request t status result, c.Grants request t → d.Redeems t status result →
        runBlocking { request with mode := .blocking } =
          some { status, result := some result }) ∧
    ∀ d ∈ s.completed, ∀ e ∈ s.completed, d.ongoing.clean = true → e.ongoing.clean = true →
      ∀ t status result status' result', d.Redeems t status result → e.Redeems t status' result' →
        d.client = e.client ∧ d.ongoing.number = e.ongoing.number := by
  obtain ⟨visits, desk, hordered⟩ := ordered_of_run hcodec hrun hclock
  constructor
  · intro c hc d hd hcclean hdclean request t status result hgrants hredeems
    exact Pool.runBlocking_of_evaluate
      (hordered.evaluate_of_redeems hrun hc hd hcclean hdclean hgrants hredeems)
  · intro d hd e he hdclean heclean t status result status' result' hd' he'
    obtain ⟨v, hv, hexplains⟩ := hordered.explains hrun hd hd'.ok hdclean
    obtain ⟨w, hw, hexplains'⟩ := hordered.explains hrun he he'.ok heclean
    obtain rfl := hordered.deliver_once hv hw (hexplains.deliver hd') (hexplains'.deliver he')
    exact ⟨hexplains.client.symm.trans hexplains'.client,
      hexplains.number.symm.trans hexplains'.number⟩

/-- The result of the addition is that of the blocking call. -/
theorem redeemed_exactly_once_redeemed :
    ∃ s c d, run (step wireCodec) (start 1) redeemed = some s ∧ c ∈ s.completed ∧
      d ∈ s.completed ∧ c.Grants (Server.addBlocking 2 3) (ticketId 5 0) ∧
      d.Redeems (ticketId 5 0) .stSuccess { value := some (.intResult 5) } ∧
      runBlocking { Server.addBlocking 2 3 with mode := .blocking } =
        some { status := .stSuccess, result := some { value := some (.intResult 5) } } := by
  obtain ⟨s, hs, htest⟩ := exists_of_run_any (step wireCodec) (start 1) redeemed
    (fun s => s.server.mAlgoRunner.readings = [5] ∧
      (s.completed.any fun c =>
        c.ongoing = ⟨.submitNonBlocking (Server.addBlocking 2 3), 1, true⟩ ∧
          c.result = .submit true
            { status := .stNotFinished, ticket := some { reqId := ticketId 5 0 } }) ∧
      s.completed.any fun d =>
        d.ongoing = ⟨.getResult { reqId := ticketId 5 0 } .noWait 0, 2, true⟩ ∧
          d.result = .get true
            { status := .stSuccess, result := some { value := some (.intResult 5) } })
    (by decide +kernel)
  simp only [decide_eq_true_eq, List.any_eq_true] at htest
  obtain ⟨hreadings, ⟨c, hc, hcongoing, hcresult⟩, d, hd, hdongoing, hdresult⟩ := htest
  have hclock : SteadyClock s.server.mAlgoRunner.readings := by
    rw [hreadings]
    exact ⟨List.pairwise_singleton _ _, by simp, fun a => List.count_le_length.trans (by simp)⟩
  have hgrants : c.Grants (Server.addBlocking 2 3) (ticketId 5 0) :=
    ⟨by rw [hcongoing], _, _, hcresult, rfl, rfl⟩
  have hredeems : d.Redeems (ticketId 5 0) .stSuccess { value := some (.intResult 5) } :=
    ⟨{ reqId := ticketId 5 0 }, .noWait, 0, by rw [hdongoing], rfl, hdresult⟩
  refine ⟨s, c, d, hs, hc, hd, hgrants, hredeems, ?_⟩
  exact (redeemed_exactly_once wireCodec wireCodec_lawful 1 redeemed s hs hclock).1 c hc d hd
    (by rw [hcongoing]) (by rw [hdongoing]) _ _ _ _ hgrants hredeems

end Network

end InterProcess
