import InterProcess.Network.Agreement
import InterProcess.Runner.Outcome

/-!
# Results on their way

The server forgets a job when it hands out the result, and a client drops the ticket when
it receives it. In between the result is in a reply, which the client may receive in the
call that comes after the one that has timed out. If that call is another one than
`getResult` of the same ticket, the result is lost.
-/

namespace InterProcess

open Transition Wire

theorem Server.runner_computes {codec : Codec} {s s' : Server} {m : Server.Label}
    (h : Server.step codec s m = some s') :
    s'.mAlgoRunner = s.mAlgoRunner ∨
      ∃ k : InterProcess.Label, k.Single ∧ s.mAlgoRunner.step k = some s'.mAlgoRunner ∧
        ∀ t, s.mAlgoRunner.Computes k t →
          ∃ choice, m = .thread choice ∧ t ∈ s.mAlgoRunner.granting choice := by
  have hthread : ∀ choice t, s.mAlgoRunner.Computes (.caller 0 choice) t →
      t ∈ s.mAlgoRunner.granting choice := by
    rintro choice t ⟨_, _, hlabel, henqueuing, rfl⟩
    obtain ⟨rfl, rfl⟩ := Label.caller.inj hlabel
    exact ⟨henqueuing, rfl⟩
  cases (Server.step_cases h).2 with
  | badHandshake | accept | refuse | badRequest => exact Or.inl rfl
  | answer => exact Or.inl (by simp)
  | run client payload tag hfree caps hcaps request hparse sreq hhandle pool hpool =>
      exact Or.inr ⟨.run 0 sreq, rfl, hpool, fun t htc => by simp [Pool.Computes] at htc⟩
  | get client payload tag hfree caps hcaps request hparse greq hhandle pool hpool =>
      exact Or.inr ⟨.get 0 greq, rfl, hpool, fun t htc => by simp [Pool.Computes] at htc⟩
  | think client tag choice hbusy pool hpool =>
      exact Or.inr ⟨.caller 0 choice, rfl, hpool, fun t htc => ⟨choice, rfl, hthread choice t htc⟩⟩
  | ran client tag choice hbusy pool hpool | got client tag choice hbusy pool hpool =>
      exact Or.inr ⟨.caller 0 choice, rfl, by simpa using hpool,
        fun t htc => ⟨choice, rfl, hthread choice t htc⟩⟩
  | worker i pool hpool =>
      exact Or.inr ⟨.worker i, trivial, hpool, fun t htc => by simp [Pool.Computes] at htc⟩

theorem Server.mem_replied {codec : Codec} {client : Bytes} {tag : ℕ} {response : EnvelopeResp}
    {r : Sent} : r ∈ Server.replied codec client tag response ↔
      ∃ payload, codec.serializeResp response = some payload ∧ ⟨client, tag, payload⟩ = r := by
  simp [Server.replied]

theorem replyPhase_badResponse {codec : Codec} (hcodec : codec.Lawful) :
    replyPhase codec ((codec.serializeResp badResponse).getD []) = .denied := by
  obtain ⟨answer, hanswer⟩ := Option.ne_none_iff_exists'.mp
    (hcodec.brief (.get { status := .stErrorInvalidInput }) (Server.has_of_no_result rfl))
  rw [badResponse, hanswer]
  exact replyPhase_of_serialize hcodec hanswer (Server.has_of_no_result rfl)

theorem Link.entry_eq_some {link : Link} {tag : ℕ} {phase : Phase UInt64}
    {x : Want UInt64 × Phase UInt64} :
    link.entry tag phase = some x ↔
      ∃ call, link.log[tag]? = some (some call) ∧ (call.want, phase) = x := by
  simp [entry, Option.join_eq_some_iff]

theorem Network.Traffic.goods_of_got {codec : Codec} {s : Network} (h : s.Traffic codec)
    {client : Bytes} {tag : ℕ} (hbusy : s.server.thread = .handle client tag) {call : Call}
    (hcall : (s.link client).log[tag]? = some (some call)) {request : GetRequest}
    {response : GetResponse} (hgot : s.server.mAlgoRunner.callers 0 = .got request response)
    {t : UInt64} (hwant : call.want = .goods t) : request.reqId = t := by
  obtain ⟨call', hcall', hreq⟩ := h.busy client tag hbusy
  obtain rfl := Option.some.inj (Option.some.inj (hcall.symm.trans hcall'))
  rw [hgot] at hreq
  exact Want.goods.inj ((Call.want_of_get hreq.symm).symm.trans hwant)

/-! ### Final answers -/

theorem phase_submit_ne_final (response : SubmitResponse) :
    (RespCase.submit response).phase ≠ .final := by
  cases hticket : response.ticket <;> simp [RespCase.phase, hticket]

theorem result_of_final {response : GetResponse} (h : (RespCase.get response).phase = .final) :
    response.result ≠ none := by
  intro hnone
  by_cases hstatus : response.status = .stNotFinished <;>
    simp [RespCase.phase, hnone, hstatus] at h

theorem received_of_final {codec : Codec} {payload : Bytes} (h : replyPhase codec payload = .final) :
    ∃ response, received codec payload = some (.get response) ∧ response.result ≠ none := by
  unfold replyPhase at h
  rcases hreceived : received codec payload with _ | (response | response)
  · simp [hreceived] at h
  · rw [hreceived] at h
    exact absurd h (phase_submit_ne_final response)
  · rw [hreceived] at h
    exact ⟨response, rfl, result_of_final h⟩

theorem CallerPc.got_of_final {pc : CallerPc} (h : pc.phase = .final) :
    ∃ request response, pc = .got request response ∧ response.result ≠ none := by
  cases pc with
  | ran request response => exact absurd h (phase_submit_ne_final response)
  | got request response => exact ⟨request, response, rfl, result_of_final h⟩
  | _ => cases h

namespace Session

variable {codec : Codec} {s s' : Session} {l : Label}

/-- A reply to `getResult` of the ticket that carries its final status and result is on
the way to the client, or about to be sent. -/
def Coming (codec : Codec) (s : Session) (client : Bytes) (t : UInt64) : Prop :=
  ∃ response, s.network.server.mAlgoRunner.FinalOf t response ∧
    ∃ call, call.want = .goods t ∧
      ((∃ p ∈ (s.network.link client).down, (s.network.link client).log[p.tag]? = some (some call) ∧
          received codec p.payload = some (.get response)) ∨
        ∃ tag request, (s.network.link client).log[tag]? = some (some call) ∧
          s.network.server.thread = .handle client tag ∧
            s.network.server.mAlgoRunner.callers 0 = .got request response)

/-- The result of every ticket that a client in its loop lists is with the server or on
its way to the client. -/
def Survives (codec : Codec) (s : Session) : Prop :=
  ∀ client t, (s.shell client).left = false → t ∈ (s.shell client).pending.keys →
    s.network.server.mAlgoRunner.jobs t ≠ none ∨ s.Coming codec client t

/-- A ticket that is computed is not in use, and the final reply of a ticket is received
by the call that asks for it. -/
def Careful (codec : Codec) (s : Session) (l : Label) : Prop :=
  (∀ t ∈ s.fresh l, ¬ (s.custody codec).InUse t) ∧ s.Fetches codec l

/-- A final reply of a ticket carries its final status and result. -/
structure Truthful (codec : Codec) (s : Session) : Prop where
  pool : s.network.server.mAlgoRunner.Truthful
  down : ∀ client, ∀ p ∈ (s.network.link client).down, ∀ t response,
    (s.network.link client).reply codec p = some (.goods t, .final) →
      received codec p.payload = some (.get response) →
        s.network.server.mAlgoRunner.FinalOf t response

theorem truthful_start (codec : Codec) (n : ℕ) : (start n).Truthful codec where
  pool := Pool.truthful_start n
  down _ _ h := (List.not_mem_nil h).elim

theorem Truthful.client (h : s.Truthful codec) (htraffic : s.network.Traffic codec) {client : Bytes}
    {link : Link} (hserver : s'.network.server = s.network.server)
    (hlink : s'.network.link = Function.update s.network.link client link)
    (hlog : (s.network.link client).log <+: link.log)
    (hdown : link.down ⊆ (s.network.link client).down) : s'.Truthful codec where
  pool := hserver ▸ h.pool
  down c p hp t response hreply hreceived := by
    rw [hserver]
    by_cases hc : c = client
    · subst hc
      have hp' : p ∈ (s.network.link c).down := hdown (by simpa [hlink] using hp)
      refine h.down c p hp' t response ?_ hreceived
      obtain ⟨call, hcall⟩ := htraffic.down c p hp'
      rw [hlink, Function.update_self] at hreply
      rw [← hreply]
      exact (Link.entry_of_extends hlog (List.getElem?_eq_some_iff.mp hcall).1).symm
    · refine h.down c p ?_ t response ?_ hreceived
      · simpa [hlink, hc] using hp
      · simpa [hlink, hc] using hreply

theorem enqueuing_of_fresh {t : UInt64} (h : t ∈ s.fresh l) :
    s.network.server.mAlgoRunner.Enqueuing 0 := by
  cases l with
  | command => exact h.elim
  | network l =>
      cases l with
      | thread choice => exact h.1
      | init | call | timeout | deliver | serve | worker => exact h.elim

section Server

variable {s₁ : Network} {server : Server} {m : Server.Label}

theorem pool_truthful (h : s.Regular codec) (ht : s.network.server.mAlgoRunner.Truthful)
    (hfresh : ∀ t ∈ s.fresh l, ¬ (s.custody codec).InUse t)
    (hstep : Server.step codec s.network.server m = some server)
    (hl : ∀ choice, m = .thread choice → l = .network (.thread choice)) :
    server.mAlgoRunner.Truthful ∧ ∀ t, t ∉ s.fresh l →
      server.mAlgoRunner.requests t = s.network.server.mAlgoRunner.requests t := by
  rcases Server.runner_computes hstep with hsame | ⟨k, hk, hpool, hcomputes⟩
  · rw [hsame]
    exact ⟨ht, fun t _ => rfl⟩
  · have hmem : ∀ t, s.network.server.mAlgoRunner.Computes k t → t ∈ s.fresh l := fun t htc => by
      obtain ⟨choice, rfl, hgrant⟩ := hcomputes t htc
      rw [hl choice rfl]
      exact hgrant
    refine ⟨Pool.truthful_step ht h.serial h.ticketed hk (fun t htc => ?_) hpool,
      fun t hnot => Pool.requests_step hpool fun htc => hnot (hmem t htc)⟩
    by_contra hne
    exact hfresh t (hmem t htc) (Or.inl (Or.inl hne))

theorem final_sent (hcodec : codec.Lawful) (h : s.network.Traffic codec)
    (ht : s.network.Taken s₁ m) (hstep : Server.step codec s.network.server m = some server) :
    ∃ more, server.sent = s.network.server.sent ++ more ∧
      ∀ r ∈ more, replyPhase codec r.payload = .final →
        ∃ request response, s.network.server.thread = .handle r.client r.tag ∧
          s.network.server.mAlgoRunner.callers 0 = .got request response ∧
            received codec r.payload = some (.get response) := by
  have hbad : ∀ client tag, ∀ r ∈ [(⟨client, tag, (codec.serializeResp badResponse).getD []⟩ : Sent)],
      replyPhase codec r.payload ≠ .final := by
    intro client tag r hr
    rw [List.mem_singleton.mp hr, replyPhase_badResponse hcodec]
    simp
  cases (Server.step_cases hstep).2 with
  | badHandshake client payload tag | refuse client payload tag | badRequest client payload tag =>
      exact ⟨_, rfl, fun r hr hfinal => absurd hfinal (hbad client tag r hr)⟩
  | accept | run | get | think | worker =>
      exact ⟨[], (List.append_nil _).symm, fun r hr => (List.not_mem_nil hr).elim⟩
  | answer client payload tag hfree caps hcaps request hparse response hhandle =>
      obtain ⟨call, hcall, rfl, -⟩ := (h.requested ht hcaps).parse hcodec hparse
      obtain rfl := Call.reply_of_handle hhandle
      refine ⟨_, Server.reply_sent _ _ _ _ _, fun r hr hfinal => ?_⟩
      obtain ⟨answer, hanswer, rfl⟩ := Server.mem_replied.mp hr
      rw [replyPhase_of_serialize hcodec hanswer (Server.has_of_no_result rfl)] at hfinal
      cases hfinal
  | ran client tag choice hbusy pool hpool sreq response hran =>
      have hyields := h.yielding.callers 0
      rw [hran] at hyields
      refine ⟨_, Server.reply_sent _ _ _ _ _, fun r hr hfinal => ?_⟩
      obtain ⟨answer, hanswer, rfl⟩ := Server.mem_replied.mp hr
      rw [replyPhase_of_serialize hcodec hanswer fun result hresult => (hyields result hresult).text]
        at hfinal
      exact absurd hfinal (phase_submit_ne_final response)
  | got client tag choice hbusy pool hpool greq response hgot =>
      have hyields := h.yielding.callers 0
      rw [hgot] at hyields
      refine ⟨_, Server.reply_sent _ _ _ _ _, fun r hr _ => ?_⟩
      obtain ⟨answer, hanswer, rfl⟩ := Server.mem_replied.mp hr
      exact ⟨greq, response, hbusy, hgot,
        received_of_serialize hcodec hanswer fun result hresult => (hyields result hresult).text⟩

theorem truthful_server (hcodec : codec.Lawful) (h : s.Regular codec) (hr : s.Truthful codec)
    (hfresh : ∀ t ∈ s.fresh l, ¬ (s.custody codec).InUse t) (ht : s.network.Taken s₁ m)
    (hstep : Server.step codec s.network.server m = some server)
    (hl : ∀ choice, m = .thread choice → l = .network (.thread choice)) :
    Truthful codec ⟨s₁.route server, s.shell⟩ := by
  obtain ⟨hpool, hrequests⟩ := pool_truthful h hr.pool hfresh hstep hl
  refine ⟨hpool, fun c p hp t response hreply hreceived => ?_⟩
  obtain ⟨more, hsent, hmore⟩ := final_sent hcodec h.traffic ht hstep
  have hlink := Network.route_link (s := s₁) (by rw [ht.server, hsent]) c
  have hlog : ((s₁.route server).link c).log = (s.network.link c).log := by
    rw [hlink]
    exact ht.log c
  have hreply : (s.network.link c).reply codec p = some (.goods t, .final) := by
    rw [← hreply]
    exact (Link.entry_congr hlog).symm
  rw [hlink] at hp
  rcases List.mem_append.mp hp with hold | hnew
  · -- a reply under way names its ticket, which is not computed now
    have hp : p ∈ (s.network.link c).down := ht.down c ▸ hold
    refine (hr.down c p hp t response hreply hreceived).congr (hrequests t fun hcomputed => ?_)
    have hline : (.goods t, .final) ∈ s.network.line codec c :=
      List.mem_append_left _ (List.mem_filterMap.mpr ⟨p, hp, hreply⟩)
    exact hfresh t hcomputed (Or.inr ⟨c, Or.inr ⟨_, hline, Or.inl rfl⟩⟩)
  · obtain ⟨call, hcall, hentry⟩ := Link.entry_eq_some.mp hreply
    obtain ⟨hwant, hphase⟩ := Prod.mk.inj hentry
    obtain ⟨request, answer, hbusy, hgot, hanswer⟩ :=
      hmore _ (Network.mem_packetsFor hnew) hphase
    obtain rfl := RespCase.get.inj (Option.some.inj (hreceived.symm.trans hanswer))
    obtain rfl := h.traffic.goods_of_got hbusy hcall hgot hwant
    have hresult : response.result ≠ none := by
      rw [replyPhase, hreceived] at hphase
      exact result_of_final hphase
    refine (hr.pool.got request response hgot hresult).congr (hrequests _ fun hcomputed => ?_)
    obtain ⟨_, hpc, -⟩ := enqueuing_of_fresh hcomputed
    rw [hgot] at hpc
    cases hpc

end Server

theorem truthful_step (hcodec : codec.Lawful) (h : s.Regular codec) (hr : s.Truthful codec)
    (hfresh : ∀ t ∈ s.fresh l, ¬ (s.custody codec).InUse t) (hs : Step codec s l s') :
    s'.Truthful codec := by
  cases hs with
  | idle client command taken hfree hin => exact ⟨hr.pool, hr.down⟩
  | sent client | unsent client =>
      exact hr.client h.traffic rfl rfl (List.prefix_append _ _) (List.Subset.refl _)
  | failed client command taken hready hin call hcall hidle hsend network hserver hlink =>
      exact hr.client h.traffic hserver hlink (List.prefix_append _ _) (List.Subset.refl _)
  | init client execFunFlags hnew =>
      refine hr.client h.traffic rfl rfl ?_ ?_
      · simp [hnew]
      · simp
  | timeout client ongoing hongoing =>
      exact hr.client h.traffic rfl rfl List.prefix_rfl (List.Subset.refl _)
  | deliver client ongoing hongoing frame rest hdown =>
      refine hr.client h.traffic rfl rfl List.prefix_rfl ?_
      rw [hdown]
      exact List.subset_cons_self frame rest
  | server _ m s₁ ht server hserver hl =>
      exact truthful_server hcodec h hr hfresh ht hserver fun choice hm => by rw [hl choice hm]

/-- The invariant of the runs in which no result is lost. -/
structure Keeping (codec : Codec) (s : Session) : Prop where
  regular : s.Regular codec
  sound : (s.custody codec).Sound
  truthful : s.Truthful codec

theorem keeping_start (codec : Codec) (n : ℕ) : (start n).Keeping codec where
  regular := regular_start codec n
  sound := by
    rw [custody_start]
    exact Custody.sound_empty
  truthful := truthful_start codec n

theorem keeping_step (hcodec : codec.Lawful) (s : Session) (l : Label) (s' : Session)
    (h : s.Keeping codec) (hcareful : s.Careful codec l) (hstep : step codec s l = some s') :
    s'.Keeping codec := by
  have hc : Custody.Step False (s.fresh l) (s.custody codec) (s'.custody codec) :=
    custody_step hcodec h.regular (step_cases hstep) False.elim fun _ => hcareful.2
  exact ⟨regular_step hcodec s l s' h.regular hstep, Custody.sound_step hc h.sound hcareful.1,
    truthful_step hcodec h.regular h.truthful hcareful.1 (step_cases hstep)⟩

theorem jobs_of_held (h : s.Regular codec) {t : UInt64}
    (ht : t ∈ s.network.server.mAlgoRunner.held)
    (hgranted : ∀ c w, (w, .granted t) ∉ s.network.line codec c) :
    s.network.server.mAlgoRunner.jobs t ≠ none := by
  refine ht.resolve_right ?_
  rintro ⟨job, hinserts⟩
  cases hthread : s.network.server.thread with
  | receive => simp [h.traffic.idle hthread, CallerPc.inserts] at hinserts
  | handle c tag =>
      obtain ⟨call, hcall, -⟩ := h.traffic.busy c tag hthread
      have hphase : (s.network.server.mAlgoRunner.callers 0).phase = .granted t := by
        generalize s.network.server.mAlgoRunner.callers 0 = pc at hinserts
        cases pc <;> simp_all [CallerPc.inserts, CallerPc.phase]
      refine hgranted c call.want (List.mem_append_right _ (List.mem_append_left _ ?_))
      rw [Link.handled_self hthread hcall, hphase]
      exact List.mem_singleton_self _

theorem coming_of_final (h : s.Regular codec) (hr : s.Truthful codec) {client : Bytes} {t : UInt64}
    (ht : (.goods t, .final) ∈ s.network.line codec client) : s.Coming codec client t := by
  rcases List.mem_append.mp ht with hdown | hrest
  · obtain ⟨p, hp, hreply⟩ := List.mem_filterMap.mp hdown
    obtain ⟨call, hcall, hentry⟩ := Link.entry_eq_some.mp hreply
    obtain ⟨hwant, hphase⟩ := Prod.mk.inj hentry
    obtain ⟨response, hresponse, -⟩ := received_of_final hphase
    exact ⟨response, hr.down client p hp t response hreply hresponse, call, hwant,
      Or.inl ⟨p, hp, hcall, hresponse⟩⟩
  · rcases List.mem_append.mp hrest with hhandled | hup
    · unfold Link.handled at hhandled
      split at hhandled
      · exact (List.not_mem_nil hhandled).elim
      · next other tag hbusy =>
          split at hhandled
          · next hother =>
              subst hother
              obtain ⟨call, hcall, hentry⟩ := Link.entry_eq_some.mp (Option.mem_toList.mp hhandled)
              obtain ⟨hwant, hphase⟩ := Prod.mk.inj hentry
              obtain ⟨request, response, hgot, hresult⟩ := CallerPc.got_of_final hphase
              obtain rfl := h.traffic.goods_of_got hbusy hcall hgot hwant
              exact ⟨response, hr.pool.got request response hgot hresult, call, hwant,
                Or.inr ⟨tag, request, hcall, hbusy, hgot⟩⟩
          · exact (List.not_mem_nil hhandled).elim
    · obtain ⟨p, hp, hrequest⟩ := List.mem_filterMap.mp hup
      obtain ⟨call, hcall, hentry⟩ := Link.entry_eq_some.mp hrequest
      cases (Prod.mk.inj hentry).2

/-- If no ticket in use is computed and every final reply is received by the call that
asks for it, then no result of a ticket that a client lists is lost. -/
theorem results_survive_of_careful (codec : Codec) (hcodec : codec.Lawful) (n : ℕ)
    (ls : List Label) (s : Session) (hrun : run (step codec) (start n) ls = some s)
    (hcareful : Guarded (step codec) (Careful codec) (start n) ls) : s.Survives codec := by
  have h : s.Keeping codec :=
    run_invariant_of_guarded (keeping_step hcodec) (keeping_start codec n) hcareful hrun
  intro client t hin ht
  have hkept : t ∈ ((s.custody codec).client client).kept := by
    rw [show ((s.custody codec).client client).kept = (s.shell client).kept from rfl,
      Shell.kept_of_in hin]
    exact ht
  rcases h.sound.safe hkept with ⟨hheld, hgranted⟩ | hfinal
  · exact Or.inl (jobs_of_held h.regular hheld hgranted)
  · exact Or.inr (coming_of_final h.regular h.truthful hfinal)

/-- With distinct ids, it is enough that the final replies are received where they are
asked for. -/
theorem careful_of_ids (hcodec : codec.Lawful) {n : ℕ} {ls : List Label}
    (hrun : run (step codec) (start n) ls = some s)
    (hids : s.network.server.mAlgoRunner.ids.Nodup)
    (hfetches : Guarded (step codec) (Fetches codec) (start n) ls) :
    Guarded (step codec) (Careful codec) (start n) ls := by
  have hdistinct : Guarded (step codec)
      (fun s l => ∃ t, step codec s l = some t ∧ t.network.server.mAlgoRunner.ids.Nodup)
      (start n) ls := by
    refine (guarded_of_run (P := fun _ => True)
      (Q := fun s => s.network.server.mAlgoRunner.ids.Nodup) (fun _ _ _ _ _ => trivial) ?_ ?_
      trivial hrun hids).1
    · exact fun s l t _ hstep ht => ht.sublist (ids_extends hstep).sublist
    · exact fun s l t _ hstep ht => ⟨t, hstep, ht⟩
  refine Guarded.imp_of_invariant (P := fun s => s.Regular codec ∧ s.Known codec) ?_ ?_
    ⟨regular_start codec n, known_start codec n⟩ (guarded_and hfetches hdistinct)
  · rintro s l s' ⟨hregular, hknown⟩ ⟨hfetch, -⟩ hstep
    have hc : Custody.Step False (s.fresh l) (s.custody codec) (s'.custody codec) :=
      custody_step hcodec hregular (step_cases hstep) False.elim fun _ => hfetch
    exact ⟨regular_step hcodec s l s' hregular hstep, known_step hknown hstep hc⟩
  · rintro s l ⟨hregular, hknown⟩ ⟨hfetch, s', hstep, hnodup⟩
    exact ⟨hknown.fresh hstep hnodup, hfetch⟩

instance (codec : Codec) (s : Session) : ∀ l, Decidable (s.Fetches codec l)
  | .network (.deliver client) =>
      decidable_of_iff ((s.arriving codec client).all (fun t =>
        ((s.shell client).pending t).isNone ||
          decide (((s.network.link client).ongoing.map fun ongoing => ongoing.call.want) =
            some (.goods t)) || (s.shell client).command.any Shell.Leaves) = true) (by
        cases harriving : s.arriving codec client <;>
          simp [Fetches, harriving, or_iff_not_imp_left])
  | .command _ _ _ | .network (.init _ _) | .network (.call _ _ _) | .network (.timeout _)
  | .network (.serve _) | .network (.thread _) | .network (.worker _) =>
      inferInstanceAs (Decidable True)

/-- The client asks for the result of its finished job, and its receive times out when the
server has answered. -/
def unfetched : List Label :=
  joined ++ submitted ++ [.network (.deliver (List.replicate 8 65))] ++
    List.replicate 6 (.network (.worker 0)) ++
      [.command (List.replicate 8 65) (.get 0 none) true,
        .network (.serve (List.replicate 8 65))] ++
        List.replicate 4 (.network (.thread {})) ++ [.network (.timeout (List.replicate 8 65))]

/-- The result is on its way to the client, which can ask again. -/
theorem results_survive_unfetched :
    ∃ s, run (step wireCodec) (start 1) unfetched = some s ∧
      (0 : UInt64) ∈ (s.shell (List.replicate 8 65)).pending.keys ∧
      s.network.server.mAlgoRunner.jobs 0 = none ∧ s.Survives wireCodec := by
  obtain ⟨s, hs, htest⟩ := exists_of_run_any (step wireCodec) (start 1) unfetched
    (fun s => ((s.shell (List.replicate 8 65)).pending 0).isSome ∧
      s.network.server.mAlgoRunner.jobs 0 = none ∧ s.network.server.mAlgoRunner.ids.Nodup)
    (by decide)
  obtain ⟨hpending, hjobs, hids⟩ := of_decide_eq_true htest
  refine ⟨s, hs, Table.mem_keys.mpr (Option.isSome_iff_exists.mp hpending), hjobs, ?_⟩
  exact results_survive_of_careful wireCodec wireCodec_lawful 1 unfetched s hs
    (careful_of_ids wireCodec_lawful hs hids (by decide))

/-- The next call of the client receives the late reply and discards it: the ticket is
listed, and its result is nowhere. -/
theorem result_lost_late_reply :
    ∃ s, run (step wireCodec) (start 1) (unfetched ++
        [.command (List.replicate 8 65) (.str true .strConcat [104] [105]) true,
          .network (.deliver (List.replicate 8 65))]) = some s ∧ ¬ s.Survives wireCodec := by
  obtain ⟨s, hs, htest⟩ := exists_of_run_any (step wireCodec) (start 1) (unfetched ++
      [.command (List.replicate 8 65) (.str true .strConcat [104] [105]) true,
        .network (.deliver (List.replicate 8 65))])
    (fun s => (s.shell (List.replicate 8 65)).left = false ∧
      ((s.shell (List.replicate 8 65)).pending 0).isSome ∧
      s.network.server.mAlgoRunner.jobs 0 = none ∧ s.network.server.thread = .receive ∧
      (s.network.link (List.replicate 8 65)).down = [])
    (by decide)
  obtain ⟨hin, hpending, hjobs, hthread, hdown⟩ := of_decide_eq_true htest
  refine ⟨s, hs, fun hsurvives => ?_⟩
  have hkeys : (0 : UInt64) ∈ (s.shell (List.replicate 8 65)).pending.keys :=
    Table.mem_keys.mpr (Option.isSome_iff_exists.mp hpending)
  rcases hsurvives _ 0 hin hkeys with hheld | ⟨response, -, call, -, hcoming⟩
  · exact hheld hjobs
  · rcases hcoming with ⟨p, hp, -⟩ | ⟨tag, request, -, hbusy, -⟩
    · rw [hdown] at hp
      exact List.not_mem_nil hp
    · rw [hthread] at hbusy
      cases hbusy

end Session

end InterProcess
