import InterProcess.Library.Unwinding
import InterProcess.Runner.TwoPools
import InterProcess.Server.Enforcement

/-!
# What other clients can do to a client's replies

A ticket is the only thing `get` looks at: whoever names the ticket of a finished
job is given its result and uses the ticket up. So the replies to a client `A`
depend on the `GetRequest`s of other clients only through the results that these
are given. `isolated` is the two-run statement: if no other client is given the
result of a ticket that `A` asks for, the `GetRequest`s of all other clients can
be added and removed at will without a change in any reply to `A`.
-/

namespace InterProcess

open Transition

/-- The `GetRequest` a message is for a registered client. -/
def Codec.getOf (codec : Codec) (payload : Bytes) : Option GetRequest :=
  (codec.parseReq payload).bind fun request =>
    match request.req with
    | some (.get greq) => some greq
    | _ => none

/-- The call of `get` that a thread is in. -/
def CallerPc.getting : CallerPc → Option GetRequest
  | .find r | .noWait r _ | .waitUpTo r _ _ | .cvBlocked r _ | .cvNotified r _ | .erase r _
  | .got r _ => some r
  | _ => none

theorem CallerPc.getting_eq_some {pc : CallerPc} {request : GetRequest} :
    pc.getting = some request ↔ pc.Getting request := by
  cases pc <;> simp [getting, Getting]

theorem CallerPc.getting_congr {pc pc' : CallerPc} (h : pc'.req = pc.req) :
    pc'.getting = pc.getting := by
  cases pc <;> cases pc' <;> simp_all [req, getting]

theorem CallerPc.getting_notified (job : JobRef) (pc : CallerPc) :
    (pc.notified job).getting = pc.getting :=
  getting_congr (req_notified job pc)

theorem Codec.getOf_eq_some {codec : Codec} {payload : Bytes} {greq : GetRequest} :
    codec.getOf payload = some greq ↔
      ∃ request, codec.parseReq payload = some request ∧ request.req = some (.get greq) := by
  unfold getOf
  rw [Option.bind_eq_some_iff]
  constructor
  · rintro ⟨request, hparse, hreq⟩
    refine ⟨request, hparse, ?_⟩
    split at hreq
    · next heq => exact heq.trans (by rw [Option.some.inj hreq])
    · cases hreq
  · rintro ⟨request, hparse, hreq⟩
    exact ⟨request, hparse, by simp [hreq]⟩

namespace Pool

theorem getting_of_caller_step {p p' : Pool} {choice : Choice}
    (hs : p.step (.caller 0 choice) = some p')
    (hgot : ∀ request response, p.callers 0 ≠ .got request response) :
    (p'.callers 0).getting = (p.callers 0).getting := by
  by_cases hran : ∃ request response, p.callers 0 = .ran request response
  · -- neither the call of `run` nor what is after it is a call of `get`
    obtain ⟨request, response, hpc⟩ := hran
    obtain ⟨-, hs⟩ := step_cases hs
    cases hs with
    | caller _ _ hc => cases hc <;> simp_all [CallerPc.getting]
  · exact CallerPc.getting_congr
      (req_of_caller_step hs (fun r response hpc => hran ⟨r, response, hpc⟩) hgot)

theorem getting_of_worker_step {p p' : Pool} {i : ℕ} (hs : p.step (.worker i) = some p') :
    (p'.callers 0).getting = (p.callers 0).getting :=
  CallerPc.getting_congr (req_of_worker_step hs 0)

end Pool

namespace Server

def sentTo (s : Server) (client : Bytes) : List Sent := s.sent.filter fun r => r.client = client

/-- The server's thread is in a call of `get` for a client other than `A`. -/
def servesOther (A : Bytes) (s : Server) : Bool :=
  match s.thread with
  | .receive => false
  | .handle client _ => client ≠ A && (s.mAlgoRunner.callers 0).getting.isSome

/-- The step is the arrival of a `GetRequest` of a registered client other than
`A`, or the work on one. -/
def Hidden (codec : Codec) (A : Bytes) (s : Server) : Label → Bool
  | .recv client payload _ =>
      client ≠ A && (s.mClientExecCaps client).isSome && (codec.getOf payload).isSome
  | .thread _ => s.servesOther A
  | .worker _ => false

/-- The tickets that `A` asks for are in `N`. -/
def AsksIn (codec : Codec) (A : Bytes) (N : Set UInt64) (l : Label) : Prop :=
  ∀ payload tag greq, l = .recv A payload tag → codec.getOf payload = some greq →
    greq.reqId ∈ N

/-- The result that is just being given to a client other than `A` is not that of
a ticket in `N`. -/
def Spares (A : Bytes) (N : Set UInt64) (s : Server) : Prop :=
  ∀ client tag t, s.thread = .handle client tag → client ≠ A →
    (s.mAlgoRunner.callers 0).erases = some t → t ∉ N

/-- What the steps of the two runs have to meet. -/
def Separate (codec : Codec) (A : Bytes) (N : Set UInt64) (s : Server) (l : Label) : Prop :=
  AsksIn codec A N l ∧ ∀ s', step codec s l = some s' → s'.Spares A N

/-- What holds in each of the two runs. -/
structure Inside (A : Bytes) (N : Set UInt64) (s : Server) : Prop where
  ticketed : s.mAlgoRunner.Ticketed
  asked : ∀ tag request, s.thread = .handle A tag →
    (s.mAlgoRunner.callers 0).getting = some request → request.reqId ∈ N
  spares : s.Spares A N

/-- Where the thread is, as far as the calls of `get` for other clients are not
counted. -/
def front (A : Bytes) (s : Server) : ServerPc × CallerPc :=
  if s.servesOther A then (.receive, .idle) else (s.thread, s.mAlgoRunner.callers 0)

/-- The two servers differ only in what belongs to the tickets outside of `N`, and
in the calls of `get` for clients other than `A`. -/
structure Agree (A : Bytes) (N : Set UInt64) (s t : Server) : Prop where
  caps : s.mClientExecCaps = t.mClientExecCaps
  pool : s.mAlgoRunner.AgreesOn N t.mAlgoRunner
  front : s.front A = t.front A
  sent : s.sentTo A = t.sentTo A

theorem sentTo_reply_of_ne (s : Server) (codec : Codec) {A client : Bytes} (hne : client ≠ A)
    (tag : ℕ) (response : EnvelopeResp) :
    (s.reply codec client tag response).sentTo A = s.sentTo A := by
  unfold sentTo
  rw [reply_sent, List.filter_append]
  unfold replied
  cases codec.serializeResp response <;> simp [hne]

theorem inside_start (A : Bytes) (N : Set UInt64) (n : ℕ) : (start n).Inside A N where
  ticketed := Pool.ticketed_start n
  asked tag request h := by cases h
  spares client tag t h := by cases h

theorem inside_step {codec : Codec} {A : Bytes} {N : Set UInt64} {s s' : Server} {l : Label}
    (h : s.Inside A N) (hok : Separate codec A N s l) (hstep : step codec s l = some s') :
    s'.Inside A N := by
  have hticketed : s'.mAlgoRunner.Ticketed := by
    rcases runner_step hstep with heq | ⟨m, -, hm⟩
    · rw [heq]
      exact h.ticketed
    · exact Pool.ticketed_step _ m _ h.ticketed hm
  refine ⟨hticketed, ?_, hok.2 s' hstep⟩
  intro tag request hthread hget
  obtain ⟨-, hs⟩ := step_cases hstep
  cases hs with
  | badHandshake _ _ _ hfree | accept _ _ _ hfree | refuse _ _ _ hfree | badRequest _ _ _ hfree
  | answer _ _ _ hfree =>
      simp [hfree] at hthread
  | run client payload tag' hfree caps hcaps request' hparse sreq hhandle pool hpool =>
      obtain ⟨-, hp⟩ := Pool.step_cases hpool
      cases hp with
      | run => simp [CallerPc.getting] at hget
  | get client payload tag' hfree caps hcaps request' hparse greq hhandle pool hpool =>
      cases hthread
      obtain ⟨-, hp⟩ := Pool.step_cases hpool
      cases hp with
      | get =>
          obtain rfl : greq = request := by simpa [CallerPc.getting] using hget
          exact hok.1 payload tag greq rfl
            (Codec.getOf_eq_some.mpr ⟨request', hparse, handleEnvelope_eq_get.mp hhandle⟩)
  | think client tag' choice hbusy pool hpool hran hgot =>
      rw [withRunner_mAlgoRunner, Pool.getting_of_caller_step hpool hgot] at hget
      exact h.asked tag request (hbusy.trans hthread) hget
  | ran client tag' choice hbusy pool hpool | got client tag' choice hbusy pool hpool =>
      simp at hthread
  | worker i pool hpool =>
      rw [withRunner_mAlgoRunner, Pool.getting_of_worker_step hpool] at hget
      exact h.asked tag request hthread hget

theorem servesOther_of_receive {A : Bytes} {s : Server} (h : s.thread = .receive) :
    s.servesOther A = false := by
  simp [servesOther, h]

theorem servesOther_iff {A : Bytes} {s : Server} :
    s.servesOther A = true ↔ ∃ client tag request, s.thread = .handle client tag ∧
      client ≠ A ∧ (s.mAlgoRunner.callers 0).Getting request := by
  unfold servesOther
  cases hthread : s.thread with
  | receive => simp
  | handle client tag =>
      simp only [ne_eq, Bool.and_eq_true, decide_eq_true_eq, Option.isSome_iff_exists,
        CallerPc.getting_eq_some, ServerPc.handle.injEq]
      constructor
      · rintro ⟨hne, request, hget⟩
        exact ⟨client, tag, request, ⟨rfl, rfl⟩, hne, hget⟩
      · rintro ⟨_, _, request, ⟨rfl, rfl⟩, hne, hget⟩
        exact ⟨hne, request, hget⟩

theorem front_of_servesOther {A : Bytes} {s : Server} (h : s.servesOther A = true) :
    s.front A = (.receive, .idle) := by
  simp [front, h]

theorem front_of_not_servesOther {A : Bytes} {s : Server} (h : s.servesOther A = false) :
    s.front A = (s.thread, s.mAlgoRunner.callers 0) := by
  simp [front, h]

/-- A hidden step of one server keeps the agreement. -/
theorem Agree.hidden_step {codec : Codec} {A : Bytes} {N : Set UInt64} {s s' t : Server}
    {l : Label} (h : Agree A N s t) (hs : s.Inside A N) (hok : Separate codec A N s l)
    (hl : Hidden codec A s l = true) (hstep : step codec s l = some s') : Agree A N s' t := by
  have hspares := hok.2 s' hstep
  obtain ⟨-, hcases⟩ := step_cases hstep
  cases hcases with
  | worker => cases hl
  | badHandshake _ _ _ _ hnew | accept _ _ _ _ hnew | refuse _ _ _ _ hnew =>
      simp [Hidden, hnew] at hl
  | badRequest _ _ _ _ _ _ hparse => simp [Hidden, Codec.getOf, hparse] at hl
  | answer _ _ _ _ _ _ request hparse _ hhandle | run _ _ _ _ _ _ request hparse _ hhandle =>
      -- the message would be a `GetRequest`
      simp only [Hidden, Bool.and_eq_true, Option.isSome_iff_exists] at hl
      obtain ⟨greq, hget⟩ := hl.2
      obtain ⟨request', hparse', hreq⟩ := Codec.getOf_eq_some.mp hget
      obtain rfl : request = request' := Option.some.inj (hparse.symm.trans hparse')
      rw [handleEnvelope_eq_get.mpr hreq] at hhandle
      cases hhandle
  | get client payload tag hfree caps hcaps request hparse greq hhandle pool hpool =>
      have hne : client ≠ A := by
        simp only [Hidden, Bool.and_eq_true, decide_eq_true_eq] at hl
        exact hl.1.1
      obtain ⟨-, hp⟩ := Pool.step_cases hpool
      cases hp with
      | get _ _ hidle =>
          refine ⟨h.caps, h.pool.congr rfl rfl, ?_, h.sent⟩
          have hserves : servesOther A (s.withRunner
              (s.mAlgoRunner.setCaller 0 (.find greq)) (.handle client tag)) = true :=
            servesOther_iff.mpr ⟨client, tag, greq, rfl, hne, by simp [CallerPc.Getting]⟩
          rw [front_of_servesOther hserves, ← h.front,
            front_of_not_servesOther (servesOther_of_receive hfree), hfree, hidle]
  | think client tag choice hbusy pool hpool hran hgot =>
      obtain ⟨client', tag', request, hthread, hne, hget⟩ := servesOther_iff.mp hl
      obtain ⟨rfl, rfl⟩ : client = client' ∧ tag = tag' := by
        simpa [hbusy] using hthread
      refine ⟨h.caps, ?_, ?_, h.sent⟩
      · exact h.pool.get_step hs.ticketed hget hpool
          (fun u hu => hs.spares client tag u hbusy hne hu)
          (fun u hu => hspares client tag u rfl hne hu)
      · have hget' : (pool.callers 0).Getting request := by
          rw [← CallerPc.getting_eq_some, Pool.getting_of_caller_step hpool hgot]
          exact CallerPc.getting_eq_some.mpr hget
        have hserves : servesOther A (s.withRunner pool (.handle client tag)) = true :=
          servesOther_iff.mpr ⟨client, tag, request, rfl, hne, hget'⟩
        rw [front_of_servesOther hserves, ← h.front, front_of_servesOther hl]
  | ran client tag choice hbusy pool hpool sreq response hran =>
      obtain ⟨_, _, request, -, -, hget⟩ := servesOther_iff.mp hl
      rw [hran] at hget
      cases hget
  | got client tag choice hbusy pool hpool greq response hgot =>
      obtain ⟨client', tag', request, hthread, hne, hget⟩ := servesOther_iff.mp hl
      obtain ⟨rfl, rfl⟩ : client = client' ∧ tag = tag' := by
        simpa [hbusy] using hthread
      have hidle := Pool.idle_of_return (Or.inr ⟨_, _, hgot⟩) hpool
      refine ⟨?_, ?_, ?_, ?_⟩
      · rw [reply_mClientExecCaps]
        exact h.caps
      · rw [reply_mAlgoRunner]
        exact h.pool.get_step hs.ticketed hget hpool (by simp [hgot, CallerPc.erases])
          (by simp [hidle, CallerPc.erases])
      · rw [← h.front, front_of_servesOther hl, front_of_not_servesOther
          (servesOther_of_receive (reply_thread _ _ _ _ _)), reply_thread, reply_mAlgoRunner]
        simp [hidle]
      · rw [sentTo_reply_of_ne _ _ hne]
        exact h.sent

theorem front_congr {A : Bytes} {s s' : Server} (hthread : s'.thread = s.thread)
    (hpool : s'.mAlgoRunner = s.mAlgoRunner) : s'.front A = s.front A := by
  have hserves : s'.servesOther A = s.servesOther A := by
    simp only [servesOther, hthread, hpool]
  rw [front, front, hserves, hthread, hpool]

theorem sentTo_append {A : Bytes} {s s' t t' : Server} {more : List Sent}
    (h : s.sentTo A = t.sentTo A) (hs : s'.sent = s.sent ++ more)
    (ht : t'.sent = t.sent ++ more) : s'.sentTo A = t'.sentTo A := by
  unfold sentTo at h ⊢
  rw [hs, ht, List.filter_append, List.filter_append, h]

theorem Agree.answer {A : Bytes} {N : Set UInt64} {s s' t t' : Server}
    (h : Agree A N s t) (more : List Sent) (hcaps : s'.mClientExecCaps = t'.mClientExecCaps)
    (hs : s'.thread = s.thread ∧ s'.mAlgoRunner = s.mAlgoRunner ∧ s'.sent = s.sent ++ more)
    (ht : t'.thread = t.thread ∧ t'.mAlgoRunner = t.mAlgoRunner ∧ t'.sent = t.sent ++ more) :
    Agree A N s' t' where
  caps := hcaps
  pool := by
    rw [hs.2.1, ht.2.1]
    exact h.pool
  front := by
    rw [front_congr hs.1 hs.2.1, front_congr ht.1 ht.2.1]
    exact h.front
  sent := sentTo_append h.sent hs.2.2 ht.2.2

theorem Agree.enter {A : Bytes} {N : Set UInt64} {s t : Server} (h : Agree A N s t)
    {client : Bytes} {tag : ℕ} {pc : CallerPc} (hpc : client = A ∨ pc.getting = none) :
    Agree A N (s.withRunner (s.mAlgoRunner.setCaller 0 pc) (.handle client tag))
      (t.withRunner (t.mAlgoRunner.setCaller 0 pc) (.handle client tag)) where
  caps := h.caps
  pool := h.pool.congr rfl rfl
  front := by
    have hserves : ∀ u : Server, servesOther A
        (u.withRunner (u.mAlgoRunner.setCaller 0 pc) (.handle client tag)) = false := by
      intro u
      rcases hpc with rfl | hget
      · simp [servesOther]
      · simp [servesOther, hget]
    rw [front_of_not_servesOther (hserves s), front_of_not_servesOther (hserves t)]
    simp
  sent := h.sent

theorem Agree.finish {codec : Codec} {A : Bytes} {N : Set UInt64} {s t : Server}
    {pool pool' : Pool} {client : Bytes} {tag : ℕ} {response : EnvelopeResp}
    (h : Agree A N s t)
    (hpools : pool.AgreesOn N pool' ∧ pool'.callers 0 = pool.callers 0) :
    Agree A N ((s.withRunner pool .receive).reply codec client tag response)
      ((t.withRunner pool' .receive).reply codec client tag response) where
  caps := by
    rw [reply_mClientExecCaps, reply_mClientExecCaps]
    exact h.caps
  pool := by
    rw [reply_mAlgoRunner, reply_mAlgoRunner]
    exact hpools.1
  front := by
    rw [front_of_not_servesOther (servesOther_of_receive (reply_thread _ _ _ _ _)),
      front_of_not_servesOther (servesOther_of_receive (reply_thread _ _ _ _ _))]
    simp [hpools.2]
  sent := sentTo_append h.sent (reply_sent _ _ _ _ _) (reply_sent _ _ _ _ _)

theorem Agree.recv_step {codec : Codec} {A : Bytes} {N : Set UInt64} {s s' t t' : Server}
    {client payload : Bytes} {tag : ℕ} (h : Agree A N s t)
    (hsl : Hidden codec A s (.recv client payload tag) = false)
    (hstep : step codec s (.recv client payload tag) = some s')
    (htstep : step codec t (.recv client payload tag) = some t') : Agree A N s' t' := by
  have ht := recv_of_step htstep
  obtain ⟨-, hcases⟩ := step_cases hstep
  have hcaps := congrFun h.caps client
  cases hcases with
  | badHandshake _ _ _ hfree hnew hparse =>
      simp only [recv, ← hcaps, hnew, hparse, Option.some.injEq] at ht
      subst ht
      exact h.answer _ h.caps ⟨rfl, rfl, rfl⟩ ⟨rfl, rfl, rfl⟩
  | accept _ _ _ hfree hnew handshake hparse hverify =>
      simp only [recv, ← hcaps, hnew, hparse, hverify, if_true, Option.some.injEq] at ht
      subst ht
      exact h.answer [] (by simp only [register, h.caps])
        ⟨rfl, rfl, (List.append_nil _).symm⟩ ⟨rfl, rfl, (List.append_nil _).symm⟩
  | refuse _ _ _ hfree hnew handshake hparse hverify =>
      simp only [recv, ← hcaps, hnew, hparse, hverify, Bool.false_eq_true, if_false,
        Option.some.injEq] at ht
      subst ht
      exact h.answer _ (by simp only [register, sendBadResponse, h.caps]) ⟨rfl, rfl, rfl⟩
        ⟨rfl, rfl, rfl⟩
  | badRequest _ _ _ hfree caps hmask hparse =>
      simp only [recv, ← hcaps, hmask, hparse, Option.some.injEq] at ht
      subst ht
      exact h.answer _ h.caps ⟨rfl, rfl, rfl⟩ ⟨rfl, rfl, rfl⟩
  | answer _ _ _ hfree caps hmask request hparse response hhandle =>
      simp only [recv, ← hcaps, hmask, hparse, hhandle, Option.some.injEq] at ht
      subst ht
      exact h.answer _ (by simp only [reply_mClientExecCaps, h.caps])
        ⟨reply_thread _ _ _ _ _, reply_mAlgoRunner _ _ _ _ _, reply_sent _ _ _ _ _⟩
        ⟨reply_thread _ _ _ _ _, reply_mAlgoRunner _ _ _ _ _, reply_sent _ _ _ _ _⟩
  | run _ _ _ hfree caps hmask request hparse sreq hhandle pool hpool =>
      simp only [recv, ← hcaps, hmask, hparse, hhandle, Option.map_eq_some_iff] at ht
      obtain ⟨pool', hpool', rfl⟩ := ht
      obtain ⟨-, hp⟩ := Pool.step_cases hpool
      obtain ⟨-, hp'⟩ := Pool.step_cases hpool'
      cases hp with
      | run =>
          cases hp' with
          | run => exact h.enter (Or.inr rfl)
  | get _ _ _ hfree caps hmask request hparse greq hhandle pool hpool =>
      simp only [recv, ← hcaps, hmask, hparse, hhandle, Option.map_eq_some_iff] at ht
      obtain ⟨pool', hpool', rfl⟩ := ht
      have hA : client = A := by
        by_contra hne
        have hget := Codec.getOf_eq_some.mpr
          ⟨request, hparse, handleEnvelope_eq_get.mp hhandle⟩
        simp [Hidden, hne, hmask, hget] at hsl
      obtain ⟨-, hp⟩ := Pool.step_cases hpool
      obtain ⟨-, hp'⟩ := Pool.step_cases hpool'
      cases hp with
      | get =>
          cases hp' with
          | get => exact h.enter (Or.inl hA)

theorem Agree.thread_step {codec : Codec} {A : Bytes} {N : Set UInt64} {s s' t t' : Server}
    {choice : Choice} (h : Agree A N s t) (hs : s.Inside A N)
    (hsl : s.servesOther A = false) (htl : t.servesOther A = false)
    (hstep : step codec s (.thread choice) = some s')
    (htstep : step codec t (.thread choice) = some t') : Agree A N s' t' := by
  have hfront := h.front
  rw [front_of_not_servesOther hsl, front_of_not_servesOther htl, Prod.mk.injEq] at hfront
  obtain ⟨hthread, hpc⟩ := hfront
  obtain ⟨-, hcases⟩ := step_cases hstep
  obtain ⟨-, htcases⟩ := step_cases htstep
  -- a call of `get` that is not hidden is one of `A`
  have hget : ∀ client tag, s.thread = .handle client tag → ∀ request,
      (s.mAlgoRunner.callers 0).Getting request → client = A ∧ request.reqId ∈ N := by
    intro client tag hbusy request hget
    have hA : client = A := by
      by_contra hne
      rw [servesOther_iff.mpr ⟨client, tag, request, hbusy, hne, hget⟩] at hsl
      cases hsl
    exact ⟨hA, hs.asked tag request (hA ▸ hbusy) (CallerPc.getting_eq_some.mpr hget)⟩
  have hpools : ∀ {client tag pool pool'}, s.thread = .handle client tag →
      s.mAlgoRunner.step (.caller 0 choice) = some pool →
      t.mAlgoRunner.step (.caller 0 choice) = some pool' →
      pool.AgreesOn N pool' ∧ pool'.callers 0 = pool.callers 0 := fun hbusy hpool hpool' =>
    h.pool.caller_step hs.ticketed hpc.symm
      (fun request hr => (hget _ _ hbusy request hr).2) hpool hpool'
  cases hcases with
  | think client tag _ hbusy pool hpool hran hgot =>
      cases htcases with
      | think client' tag' _ hbusy' pool' hpool' =>
          obtain ⟨rfl, rfl⟩ : client = client' ∧ tag = tag' := by
            simpa [hbusy, hbusy'] using hthread
          obtain ⟨hagree, hpc'⟩ := hpools hbusy hpool hpool'
          refine ⟨h.caps, hagree, ?_, h.sent⟩
          -- neither thread starts to serve another client
          have hsame : ∀ u : Server, u.mAlgoRunner.callers 0 = s.mAlgoRunner.callers 0 →
              u.thread = .handle client tag → ∀ pool'',
              u.mAlgoRunner.step (.caller 0 choice) = some pool'' →
              servesOther A (u.withRunner pool'' (.handle client tag)) = false := by
            intro u hupc hubusy pool'' hpool''
            have hkeep := Pool.getting_of_caller_step hpool'' (by rw [hupc]; exact hgot)
            simp only [servesOther, withRunner_thread, withRunner_mAlgoRunner, hkeep, hupc]
            simpa only [servesOther, hbusy] using hsl
          rw [front_of_not_servesOther (hsame s rfl hbusy pool hpool),
            front_of_not_servesOther (hsame t hpc.symm hbusy' pool' hpool')]
          simp [hpc']
      | ran _ _ _ _ _ _ sreq response hran' => exact absurd (hpc.trans hran') (hran sreq response)
      | got _ _ _ _ _ _ greq response hgot' => exact absurd (hpc.trans hgot') (hgot greq response)
  | ran client tag _ hbusy pool hpool sreq response hran =>
      cases htcases with
      | think _ _ _ _ _ _ hran' => exact absurd (hpc.symm.trans hran) (hran' sreq response)
      | ran client' tag' _ hbusy' pool' hpool' sreq' response' hran' =>
          obtain ⟨rfl, rfl⟩ : client = client' ∧ tag = tag' := by
            simpa [hbusy, hbusy'] using hthread
          obtain ⟨rfl, rfl⟩ : sreq = sreq' ∧ response = response' := by
            simpa [hran, hran'] using hpc
          exact h.finish (hpools hbusy hpool hpool')
      | got _ _ _ _ _ _ greq response' hgot' =>
          rw [hran, hgot'] at hpc
          cases hpc
  | got client tag _ hbusy pool hpool greq response hgot =>
      cases htcases with
      | think _ _ _ _ _ _ _ hgot' => exact absurd (hpc.symm.trans hgot) (hgot' greq response)
      | ran _ _ _ _ _ _ sreq response' hran' =>
          rw [hgot, hran'] at hpc
          cases hpc
      | got client' tag' _ hbusy' pool' hpool' greq' response' hgot' =>
          obtain ⟨rfl, rfl⟩ : client = client' ∧ tag = tag' := by
            simpa [hbusy, hbusy'] using hthread
          obtain ⟨rfl, rfl⟩ : greq = greq' ∧ response = response' := by
            simpa [hgot, hgot'] using hpc
          exact h.finish (hpools hbusy hpool hpool')

theorem front_withRunner {A : Bytes} (s : Server) {pool : Pool} {f : CallerPc → CallerPc}
    (hf : f = id ∨ ∃ job, f = CallerPc.notified job)
    (hpool : pool.callers 0 = f (s.mAlgoRunner.callers 0)) :
    (s.withRunner pool s.thread).front A = ((s.front A).1, f (s.front A).2) := by
  have hidle : f .idle = .idle := by
    rcases hf with rfl | ⟨job, rfl⟩ <;> rfl
  have hget : (f (s.mAlgoRunner.callers 0)).getting = (s.mAlgoRunner.callers 0).getting := by
    rcases hf with rfl | ⟨job, rfl⟩
    · rfl
    · exact CallerPc.getting_notified job _
  have hserves : servesOther A (s.withRunner pool s.thread) = s.servesOther A := by
    simp only [servesOther, withRunner_thread, withRunner_mAlgoRunner, hpool, hget]
  cases h : s.servesOther A with
  | true => rw [front_of_servesOther (hserves.trans h), front_of_servesOther h, hidle]
  | false =>
      rw [front_of_not_servesOther (hserves.trans h), front_of_not_servesOther h,
        withRunner_thread, withRunner_mAlgoRunner, hpool]

theorem Agree.worker_step {codec : Codec} {A : Bytes} {N : Set UInt64} {s s' t t' : Server}
    {i : ℕ} (h : Agree A N s t) (hstep : step codec s (.worker i) = some s')
    (htstep : step codec t (.worker i) = some t') : Agree A N s' t' := by
  obtain ⟨-, hcases⟩ := step_cases hstep
  obtain ⟨-, htcases⟩ := step_cases htstep
  cases hcases with
  | worker _ pool hpool =>
      cases htcases with
      | worker _ pool' hpool' =>
          obtain ⟨hagree, f, hf, hs, ht⟩ := h.pool.worker_step hpool hpool'
          refine ⟨h.caps, hagree, ?_, h.sent⟩
          rw [front_withRunner s hf hs, front_withRunner t hf ht, h.front]

/-- The same step of both servers, hidden in neither. -/
theorem Agree.visible_step {codec : Codec} {A : Bytes} {N : Set UInt64} {s s' t t' : Server}
    {l : Label} (h : Agree A N s t) (hs : s.Inside A N) (hsl : Hidden codec A s l = false)
    (htl : Hidden codec A t l = false) (hstep : step codec s l = some s')
    (htstep : step codec t l = some t') : Agree A N s' t' := by
  cases l with
  | recv client payload tag => exact h.recv_step hsl hstep htstep
  | thread choice => exact h.thread_step hs hsl htl hstep htstep
  | worker i => exact h.worker_step hstep htstep

/-- What the one server can do, hidden steps apart, the other one can do as well. -/
theorem Agree.enabled {codec : Codec} {A : Bytes} {N : Set UInt64} {s s' t : Server}
    {l : Label} (h : Agree A N s t) (hsl : Hidden codec A s l = false)
    (htl : t.servesOther A = false) (hstep : step codec s l = some s') :
    ∃ t', step codec t l = some t' := by
  obtain ⟨halive, hcases⟩ := step_cases hstep
  rw [h.pool.trapped] at halive
  have hfront := h.front
  rw [front_of_not_servesOther htl] at hfront
  cases l with
  | recv client payload tag =>
      have hfree : s.thread = .receive := by cases hcases <;> assumption
      rw [front_of_not_servesOther (servesOther_of_receive hfree), hfree,
        Prod.mk.injEq] at hfront
      obtain ⟨htfree, hpc⟩ := hfront
      have hrecv : step codec t (.recv client payload tag) = t.recv codec client payload tag := by
        simp [step, halive, ← htfree]
      rw [hrecv]
      have henter : ∀ {m : InterProcess.Label} {pool}, s.mAlgoRunner.step m = some pool →
          (∃ sreq, m = .run 0 sreq) ∨ (∃ greq, m = .get 0 greq) →
            ∃ pool', t.mAlgoRunner.step m = some pool' := by
        rintro m pool hpool (⟨sreq, rfl⟩ | ⟨greq, rfl⟩)
        · have hidle := hpc.symm.trans (Pool.idle_of_run hpool)
          simp [Pool.step, halive, Pool.enter, hidle]
        · have hidle := hpc.symm.trans (Pool.idle_of_get hpool)
          simp [Pool.step, halive, Pool.enter, hidle]
      have hcaps := congrFun h.caps client
      cases hcases with
      | badHandshake _ _ _ _ hnew hparse => simp [recv, ← hcaps, hnew, hparse]
      | accept _ _ _ _ hnew handshake hparse | refuse _ _ _ _ hnew handshake hparse =>
          simp [recv, ← hcaps, hnew, hparse]
      | badRequest _ _ _ _ caps hmask hparse => simp [recv, ← hcaps, hmask, hparse]
      | answer _ _ _ _ caps hmask request hparse response hhandle =>
          simp [recv, ← hcaps, hmask, hparse, hhandle]
      | run _ _ _ _ caps hmask request hparse sreq hhandle pool hpool =>
          obtain ⟨pool', hpool'⟩ := henter hpool (Or.inl ⟨sreq, rfl⟩)
          simp [recv, ← hcaps, hmask, hparse, hhandle, hpool']
      | get _ _ _ _ caps hmask request hparse greq hhandle pool hpool =>
          obtain ⟨pool', hpool'⟩ := henter hpool (Or.inr ⟨greq, rfl⟩)
          simp [recv, ← hcaps, hmask, hparse, hhandle, hpool']
  | thread choice =>
      rw [front_of_not_servesOther hsl, Prod.mk.injEq] at hfront
      obtain ⟨hthread, hpc⟩ := hfront
      have hbusy : ∃ client tag pool, s.thread = .handle client tag ∧
          s.mAlgoRunner.step (.caller 0 choice) = some pool := by
        cases hcases with
        | think client tag _ hbusy pool hpool | ran client tag _ hbusy pool hpool
        | got client tag _ hbusy pool hpool => exact ⟨client, tag, pool, hbusy, hpool⟩
      obtain ⟨client, tag, pool, hbusy, hpool⟩ := hbusy
      obtain ⟨pool', hpool'⟩ := h.pool.caller_enabled hpc.symm hpool
      simp [step, halive, advance, ← hthread, hbusy, hpool']
  | worker i =>
      cases hcases with
      | worker _ pool hpool =>
          obtain ⟨pool', hpool'⟩ := h.pool.worker_enabled hpool
          simp [step, halive, hpool']

theorem servesOther_step {codec : Codec} {A : Bytes} {s s' : Server} {l : Label}
    (h : s.servesOther A = false) (hl : Hidden codec A s l = false)
    (hstep : step codec s l = some s') : s'.servesOther A = false := by
  obtain ⟨-, hcases⟩ := step_cases hstep
  cases hcases with
  | badHandshake _ _ _ hfree | accept _ _ _ hfree | refuse _ _ _ hfree
  | badRequest _ _ _ hfree => exact servesOther_of_receive hfree
  | answer _ _ _ hfree => exact servesOther_of_receive (by rw [reply_thread, hfree])
  | ran | got => exact servesOther_of_receive (reply_thread _ _ _ _ _)
  | run client payload tag hfree caps hcaps request hparse sreq hhandle pool hpool =>
      obtain ⟨-, hp⟩ := Pool.step_cases hpool
      cases hp with
      | run => simp [servesOther, CallerPc.getting]
  | get client payload tag hfree caps hcaps request hparse greq hhandle pool hpool =>
      have hA : client = A := by
        by_contra hne
        have hget := Codec.getOf_eq_some.mpr
          ⟨request, hparse, handleEnvelope_eq_get.mp hhandle⟩
        simp [Hidden, hne, hcaps, hget] at hl
      simp [servesOther, hA]
  | think client tag choice hbusy pool hpool hran hgot =>
      simpa only [servesOther, hbusy, withRunner_thread, withRunner_mAlgoRunner,
        Pool.getting_of_caller_step hpool hgot] using h
  | worker i pool hpool =>
      simpa only [servesOther, withRunner_thread, withRunner_mAlgoRunner,
        Pool.getting_of_worker_step hpool] using h

/-- Ticket isolation, where tickets are bearer tokens. As long as no other client
is given the result of a ticket that `A` asks for, the `GetRequest`s of other
clients have no influence on the replies to `A`: the run without them is a run
with the same replies to `A`, and so is every other run that differs in such
`GetRequest`s only. -/
theorem isolated (codec : Codec) (A : Bytes) (N : Set UInt64) (n : ℕ) (ls : List Label)
    (s : Server) (hok : Guarded (step codec) (Separate codec A N) (start n) ls)
    (hrun : run (step codec) (start n) ls = some s) :
    (∃ u, run (step codec) (start n) (visible (step codec) (Hidden codec A) (start n) ls) =
      some u ∧ s.sentTo A = u.sentTo A) ∧
    ∀ ms t, Guarded (step codec) (Separate codec A N) (start n) ms →
      run (step codec) (start n) ms = some t →
        visible (step codec) (Hidden codec A) (start n) ls =
          visible (step codec) (Hidden codec A) (start n) ms → s.sentTo A = t.sentTo A := by
  have hpurge : ∀ ms t, Guarded (step codec) (Separate codec A N) (start n) ms →
      run (step codec) (start n) ms = some t → ∃ u, run (step codec) (start n)
        (visible (step codec) (Hidden codec A) (start n) ms) = some u ∧
          t.sentTo A = u.sentTo A := by
    intro ms t hok hrun
    obtain ⟨u, hu, -, hagree, -⟩ := unwinding
      (R := fun s t => s.Inside A N ∧ Agree A N s t ∧ t.servesOther A = false)
      (fun s t l s' ⟨hin, h, htl⟩ hok hl hstep =>
        ⟨inside_step hin hok hstep, h.hidden_step hin hok hl hstep, htl⟩)
      (fun s t l s' ⟨hin, h, htl⟩ hok hl hstep => by
        obtain ⟨t', htstep⟩ := h.enabled hl htl hstep
        have htl' : Hidden codec A t l = false := by
          cases l with
          | recv client payload tag => simpa only [Hidden, ← h.caps] using hl
          | thread choice => exact htl
          | worker i => rfl
        exact ⟨t', htstep, inside_step hin hok hstep, h.visible_step hin hl htl' hstep htstep,
          servesOther_step htl htl' htstep⟩)
      ⟨inside_start A N n, ⟨rfl, .refl _, rfl, rfl⟩, rfl⟩ hok hrun
    exact ⟨u, hu, hagree.sent⟩
  refine ⟨hpurge ls s hok hrun, ?_⟩
  intro ms t htok ht hview
  obtain ⟨u, hu, hs⟩ := hpurge ls s hok hrun
  obtain ⟨v, hv, ht⟩ := hpurge ms t htok ht
  rw [hview, hv] at hu
  rw [hs, ht, Option.some.inj hu]

instance (codec : Codec) (A : Bytes) (N : Set UInt64) [DecidablePred (· ∈ N)] :
    ∀ l, Decidable (AsksIn codec A N l)
  | .recv client payload tag =>
      decidable_of_iff (client = A → ∀ greq ∈ codec.getOf payload, greq.reqId ∈ N)
        ⟨by rintro h _ _ greq ⟨⟩ hget; exact h rfl greq hget,
          by rintro h rfl greq hget; exact h payload tag greq rfl hget⟩
  | .thread _ | .worker _ => .isTrue (by rintro _ _ _ ⟨⟩)

instance (A : Bytes) (N : Set UInt64) [DecidablePred (· ∈ N)] (s : Server) :
    Decidable (s.Spares A N) :=
  match hthread : s.thread, herases : (s.mAlgoRunner.callers 0).erases with
  | .receive, _ => .isTrue (by simp [Spares, hthread])
  | .handle _ _, none => .isTrue (by simp [Spares, herases])
  | .handle client tag, some t =>
      decidable_of_iff (client ≠ A → t ∉ N)
        ⟨by rintro h _ _ _ hbusy hne ht; cases hthread.symm.trans hbusy
            cases herases.symm.trans ht; exact h hne,
          fun h hne => h client tag t hthread hne herases⟩

instance (codec : Codec) (A : Bytes) (N : Set UInt64) [DecidablePred (· ∈ N)] (s : Server)
    (l : Label) : Decidable (Separate codec A N s l) :=
  inferInstanceAs (Decidable (_ ∧ ∀ s' ∈ step codec s l, s'.Spares A N))

instance (t : UInt64) : DecidablePred (· ∈ ({t} : Set UInt64)) := fun u =>
  inferInstanceAs (Decidable (u = t))

/-- Clients `A` and `B` register, and `A` submits an addition that a worker executes.
`B` sends the messages `early` before the submission. -/
def beforeFetch (early : List Label) : List Label :=
  [.recv [65] (sentHandshake 1) 0, .recv [66] (sentHandshake 1) 0] ++ early ++
    .recv [65] (sentSubmit (Pool.addRequest 2 3)) 1 ::
    List.replicate 6 (.thread { reading := 5 }) ++ List.replicate 6 (.worker 0)

/-- A client asks for the result of a ticket, and the server's thread takes `k` steps
to answer. -/
def fetch (client : Bytes) (reqId : UInt64) (tag k : ℕ) : List Label :=
  .recv client (sentGet { ticket := some { reqId } }) tag :: List.replicate k (.thread {})

/-- `B` asks for the ticket of `A` too early and for a ticket that is not out, and
`A` gets the same replies as without that. -/
theorem isolated_early :
    ∃ s t, run (step wireCodec) (start 1)
        (beforeFetch [] ++ fetch [65] (ticketId 5 0) 2 4) = some s ∧
      run (step wireCodec) (start 1) (beforeFetch (fetch [66] (ticketId 5 0) 1 2) ++
        fetch [66] 7 2 2 ++ fetch [65] (ticketId 5 0) 2 4) = some t ∧
      s.sentTo [65] = t.sentTo [65] := by
  obtain ⟨s, hs, -⟩ := exists_of_run_any (step wireCodec) (start 1)
    (beforeFetch [] ++ fetch [65] (ticketId 5 0) 2 4) (fun _ => true) (by decide)
  obtain ⟨t, ht, -⟩ := exists_of_run_any (step wireCodec) (start 1)
    (beforeFetch (fetch [66] (ticketId 5 0) 1 2) ++ fetch [66] 7 2 2 ++
      fetch [65] (ticketId 5 0) 2 4) (fun _ => true) (by decide)
  refine ⟨s, t, hs, ht, ?_⟩
  exact (isolated wireCodec [65] {ticketId 5 0} 1 _ s (by decide +kernel) hs).2 _ t
    (by decide +kernel) ht (by decide +kernel)

def lastReply (s : Server) (client : Bytes) : Option EnvelopeResp :=
  (s.sentTo client).getLast?.bind fun r => wireCodec.parseResp r.payload

/-- `B` asks for the ticket of `A` when the result is there, and the same request of
`A` is then answered with an error. The two runs differ in that `GetRequest` of `B`
only, and in both all messages are answered. -/
theorem ticket_taken_by_other :
    ∃ s t, run (step wireCodec) (start 1)
        (beforeFetch [] ++ fetch [65] (ticketId 5 0) 2 4) = some s ∧
      run (step wireCodec) (start 1) (beforeFetch [] ++ fetch [66] (ticketId 5 0) 1 4 ++
        fetch [65] (ticketId 5 0) 2 2) = some t ∧
      s.thread = .receive ∧ t.thread = .receive ∧
      s.lastReply [65] = some { resp := some (.get
        { status := .stSuccess, result := some { value := some (.intResult 5) } }) } ∧
      t.lastReply [65] = some { resp := some (.get { status := .stErrorInvalidInput }) } ∧
      s.sentTo [65] ≠ t.sentTo [65] := by
  obtain ⟨s, hs, hstest⟩ := exists_of_run_any (step wireCodec) (start 1)
    (beforeFetch [] ++ fetch [65] (ticketId 5 0) 2 4)
    (fun s => s.thread = .receive ∧ s.lastReply [65] = some { resp := some (.get
      { status := .stSuccess, result := some { value := some (.intResult 5) } }) }) (by decide)
  obtain ⟨t, ht, httest⟩ := exists_of_run_any (step wireCodec) (start 1)
    (beforeFetch [] ++ fetch [66] (ticketId 5 0) 1 4 ++ fetch [65] (ticketId 5 0) 2 2)
    (fun t => t.thread = .receive ∧
      t.lastReply [65] = some { resp := some (.get { status := .stErrorInvalidInput }) })
    (by decide)
  simp only [decide_eq_true_eq] at hstest httest
  refine ⟨s, t, hs, ht, hstest.1, httest.1, hstest.2, httest.2, fun heq => ?_⟩
  have hlast : s.lastReply [65] = t.lastReply [65] := by
    rw [lastReply, heq, ← lastReply]
  rw [hstest.2, httest.2] at hlast
  cases hlast

end Server

end InterProcess
