import InterProcess.Server.Replies

/-!
# Invalid input

`ST_ERROR_INVALID_INPUT` is answered in many places: for a message that is not understood
or not permitted, for a mode that is unknown, for a ticket that is not there. In none of
them has anything been done for the message. The operations have that status too, for an
operation that they do not know; but the capability check lets no such request through,
so that no job ever finishes with it.
-/

namespace InterProcess

open Transition

/-- The status is not that of an invalid input. -/
def Understood (status : Status) (_ : Result) : Prop := status ≠ .stErrorInvalidInput

theorem runMath_understood {args : MathArgs} {response result : Result} {status : Status}
    (hop : ∀ number h, args.op ≠ .unrecognized number h)
    (h : runMath args response = some (status, result)) : Understood status result := by
  unfold runMath at h
  cases hargs : args.op with
  | mathDiv =>
      by_cases hb : args.b = 0
      · simp only [hargs, hb, if_true, Option.some.injEq, Prod.mk.injEq] at h
        simp [Understood, ← h.1]
      · simp only [hargs, hb, if_false, Option.map_eq_some_iff, Prod.mk.injEq] at h
        obtain ⟨q, -, hstatus, -⟩ := h
        simp [Understood, ← hstatus]
  | mathAdd | mathSub | mathMul =>
      simp only [hargs, Option.some.injEq, Prod.mk.injEq] at h
      simp [Understood, ← h.1]
  | unrecognized number hnumber => exact absurd hargs (hop number hnumber)

theorem runStr_understood {args : StrArgs} {response : Result}
    (hop : ∀ number h, args.op ≠ .unrecognized number h) :
    Understood (runStr args response).1 (runStr args response).2 := by
  unfold runStr Understood
  cases hargs : args.op with
  | strConcat => dsimp only; split <;> simp
  | strFindStart => dsimp only; split <;> simp
  | unrecognized number hnumber => exact absurd hargs (hop number hnumber)

theorem understood_of_capability {sreq : SubmitRequest} {clientCaps : UInt8}
    (h : clientHasCapabilityFor sreq clientCaps = true) : sreq.Yields Understood := by
  obtain ⟨required, hrequired, -⟩ := clientHasCapabilityFor_iff.mp h
  intro status result heval
  unfold requiredFlag at hrequired
  unfold evaluate at heval
  rcases hpayload : sreq.payload with _ | (args | args)
  · simp [hpayload] at hrequired
  · simp only [hpayload] at hrequired heval
    refine runMath_understood (fun number hnumber hop => ?_) heval
    simp [hop] at hrequired
  · simp only [hpayload, Option.some.injEq] at hrequired heval
    have hunderstood : Understood (runStr args {}).1 (runStr args {}).2 := by
      refine runStr_understood fun number hnumber hop => ?_
      simp [hop] at hrequired
    rwa [heval] at hunderstood

def RespCase.status : RespCase → Status
  | .submit response => response.status
  | .get response => response.status

/-- The response has the status `ST_ERROR_INVALID_INPUT`. -/
def EnvelopeResp.Invalid (response : EnvelopeResp) : Prop :=
  response.resp.map RespCase.status = some .stErrorInvalidInput

/-- The call has made a job or taken a result, or has an answer that is not
`ST_ERROR_INVALID_INPUT`. -/
def CallerPc.Settled : CallerPc → Prop
  | .insert _ _ _ | .lockQueue _ _ _ | .push _ _ _ | .signal _ _ _ => True
  | .ran _ response => response.status ≠ .stErrorInvalidInput
  | .erase _ response | .got _ response => response.status ≠ .stErrorInvalidInput
  | _ => False

/-- In its next step the call evaluates an operation or makes a job. -/
def CallerPc.Executes : CallerPc → Prop
  | .run request =>
      request.mode = .blocking ∨ (request.mode = .nonblocking ∧ request.payload ≠ none)
  | _ => False

theorem CallerPc.settled_notified (job : JobRef) (pc : CallerPc) :
    (pc.notified job).Settled ↔ pc.Settled :=
  iff_of_eq (notified_congr Settled (fun _ _ => rfl) job pc)

namespace Pool

variable {p p' : Pool} {choice : Choice}

/-- A step of the calling thread executes nothing and leaves the map, the queue and the
records as they are, or the call is settled after it. -/
theorem untouched_or_settled (h : p.Yielding Understood)
    (hs : p.step (.caller 0 choice) = some p') :
    (¬ (p.callers 0).Executes ∧ p'.jobs = p.jobs ∧ p'.jobQueue = p.jobQueue ∧ p'.heap = p.heap) ∨
      p'.trapped = true ∨ (p'.callers 0).Settled := by
  have hyields := h.callers 0
  obtain ⟨-, hs⟩ := step_cases hs
  cases hs with
  | caller _ _ hc =>
      cases hc with
      | trap => exact Or.inr (Or.inl rfl)
      | blocking request hpc hmode response heval =>
          rw [hpc] at hyields
          obtain ⟨result, hresult⟩ : ∃ result, response.result = some result := by
            rw [runBlocking_eq] at heval
            obtain ⟨_, -, rfl⟩ := Option.map_eq_some_iff.mp heval
            exact ⟨_, rfl⟩
          have hstatus := SubmitRequest.Yields.blocking hyields heval result hresult
          exact Or.inr (Or.inr (by simpa [CallerPc.Settled, Understood] using hstatus))
      | refuse request hpc hmode hbad =>
          refine Or.inl ⟨?_, rfl, rfl, rfl⟩
          rw [hpc]
          rintro (hblocking | ⟨hnonblocking, hpayload⟩)
          · exact hmode hblocking
          · exact hpayload (hbad hnonblocking)
      | consume request job hpc j hj hdone =>
          have hstatus := (h.records j (List.mem_of_getElem? hj)).2 hdone
          exact Or.inr (Or.inr (by simpa [Pool.consume, CallerPc.Settled, Understood] using hstatus))
      | erase request response hpc =>
          rw [hpc] at hyields
          obtain ⟨result, -, hstatus⟩ := hyields
          exact Or.inr (Or.inr (by simpa [CallerPc.Settled, Understood] using hstatus))
      | enqueue | insert | push | signal =>
          exact Or.inr (Or.inr (by simp [CallerPc.Settled]))
      | notFinished request job hpc | wake request job hpc =>
          refine Or.inl ⟨?_, rfl, rfl, rfl⟩
          rcases hpc with hpc | hpc <;> simp [hpc, CallerPc.Executes]
      | stopTest hpc | stopStore hpc | stopBroadcast hpc | join _ hpc | joined _ hpc | stopped hpc
      | lockQueue _ _ _ hpc | ran _ _ hpc | findNone _ hpc | findNoWait _ hpc | findWaitUpTo _ hpc
      | findBadMode _ hpc | block _ _ hpc | got _ _ hpc =>
          exact Or.inl ⟨by simp [hpc, CallerPc.Executes], rfl, rfl, rfl⟩

theorem settled_of_caller_step (h : (p.callers 0).Settled)
    (hs : p.step (.caller 0 choice) = some p')
    (hran : ∀ request response, p.callers 0 ≠ .ran request response)
    (hgot : ∀ request response, p.callers 0 ≠ .got request response) :
    p'.trapped = true ∨ (p'.callers 0).Settled := by
  obtain ⟨-, hs⟩ := step_cases hs
  cases hs with
  | caller _ _ hc =>
      cases hc with
      | trap => exact Or.inl rfl
      | ran r response hpc => exact absurd hpc (hran r response)
      | got r response hpc => exact absurd hpc (hgot r response)
      | notFinished r job hpc | wake r job hpc =>
          rcases hpc with hpc | hpc <;> rw [hpc] at h <;> cases h
      | consume r job hpc =>
          rcases hpc with hpc | ⟨timeout, hpc⟩ <;> rw [hpc] at h <;> cases h
      | _ => simp_all [CallerPc.Settled]

theorem frame_of_return (hs : p.step (.caller 0 choice) = some p')
    (hpc : (∃ request response, p.callers 0 = .ran request response) ∨
      ∃ request response, p.callers 0 = .got request response) :
    p'.jobs = p.jobs ∧ p'.jobQueue = p.jobQueue ∧ p'.heap = p.heap := by
  obtain ⟨-, hs⟩ := step_cases hs
  rcases hpc with ⟨request, response, hpc⟩ | ⟨request, response, hpc⟩
  · cases hs with
    | caller _ _ hc =>
        cases hc with
        | ran => exact ⟨rfl, rfl, rfl⟩
        | _ => simp_all
  · cases hs with
    | caller _ _ hc =>
        cases hc with
        | got => exact ⟨rfl, rfl, rfl⟩
        | _ => simp_all

theorem settled_of_worker_step {i : ℕ} (h : (p.callers 0).Settled)
    (hs : p.step (.worker i) = some p') : (p'.callers 0).Settled := by
  obtain ⟨-, hs⟩ := step_cases hs
  cases hs with
  | worker _ hw =>
      cases hw with
      | notify job => exact (CallerPc.settled_notified job _).mpr h
      | _ => exact h

end Pool

namespace Server

variable {codec : Codec} {s s' : Server} {l : Label}

/-- If the step is the server thread's own, it executes nothing and leaves the masks of
the clients, the map, the queue and the records as they are. -/
def Inert (codec : Codec) (s : Server) (l : Label) : Prop :=
  (∀ i, l ≠ .worker i) →
    (∀ choice, l = .thread choice → ¬ (s.mAlgoRunner.callers 0).Executes) ∧
      ∀ s', step codec s l = some s' → s'.mClientExecCaps = s.mClientExecCaps ∧
        s'.mAlgoRunner.jobs = s.mAlgoRunner.jobs ∧
        s'.mAlgoRunner.jobQueue = s.mAlgoRunner.jobQueue ∧
        s'.mAlgoRunner.heap = s.mAlgoRunner.heap

/-- What is answered from here on, before the next message, is not that the input is
invalid. -/
def Settled (s : Server) : Prop :=
  s.mAlgoRunner.trapped = true ∨ s.thread = .receive ∨ (s.mAlgoRunner.callers 0).Settled

theorem inert_recv {client payload : Bytes} {tag : ℕ} {caps : UInt8}
    (hcaps : s.mClientExecCaps client = some caps) : Inert codec s (.recv client payload tag) := by
  refine fun _ => ⟨nofun, fun s' hstep => ?_⟩
  obtain ⟨-, hs⟩ := step_cases hstep
  cases hs with
  | badHandshake _ _ _ _ hnew | accept _ _ _ _ hnew | refuse _ _ _ _ hnew =>
      rw [hcaps] at hnew
      cases hnew
  | badRequest => exact ⟨rfl, rfl, rfl, rfl⟩
  | answer => simp
  | run client payload tag hfree _ _ request hparse sreq hhandle pool hpool =>
      obtain ⟨-, hp⟩ := Pool.step_cases hpool
      cases hp with
      | run => exact ⟨rfl, rfl, rfl, rfl⟩
  | get client payload tag hfree _ _ request hparse greq hhandle pool hpool =>
      obtain ⟨-, hp⟩ := Pool.step_cases hpool
      cases hp with
      | get => exact ⟨rfl, rfl, rfl, rfl⟩

/-- A step between two messages is inert, or the server is settled after it. -/
theorem inert_or_settled (h : s.mAlgoRunner.Yielding Understood) (hl : l.message = none)
    (hstep : step codec s l = some s') : Inert codec s l ∨ s'.Settled := by
  have hdet : ∀ t, step codec s l = some t → t = s' := fun t ht =>
    Option.some.inj (ht.symm.trans hstep)
  obtain ⟨-, hs⟩ := step_cases hstep
  cases hs with
  | badHandshake | accept | refuse | badRequest | answer | run | get => cases hl
  | think client tag choice hbusy pool hpool hran hgot =>
      rcases Pool.untouched_or_settled h hpool with ⟨hquiet, hsame⟩ | htrap | hsettled
      · refine Or.inl fun _ => ⟨fun _ _ => hquiet, fun t ht => ?_⟩
        rw [hdet t ht]
        exact ⟨rfl, hsame⟩
      · exact Or.inr (Or.inl htrap)
      · exact Or.inr (Or.inr (Or.inr hsettled))
  | ran | got => exact Or.inr (Or.inr (Or.inl (by simp)))
  | worker i => exact Or.inl fun hne => absurd rfl (hne i)

theorem settled_step (h : s.Settled) (hl : l.message = none) (hstep : step codec s l = some s') :
    s'.Settled := by
  obtain ⟨halive, hs⟩ := step_cases hstep
  have hcall : s.thread = .receive ∨ (s.mAlgoRunner.callers 0).Settled :=
    h.resolve_left (by simp [halive])
  cases hs with
  | badHandshake | accept | refuse | badRequest | answer | run | get => cases hl
  | think client tag choice hbusy pool hpool hran hgot =>
      have hsettled := hcall.resolve_left (by simp [hbusy])
      exact (Pool.settled_of_caller_step hsettled hpool hran hgot).imp id Or.inr
  | ran | got => exact Or.inr (Or.inl (by simp))
  | worker i pool hpool =>
      exact Or.inr (hcall.imp id fun hsettled => Pool.settled_of_worker_step hsettled hpool)

theorem returns_of_answer {response : EnvelopeResp} (hl : l.message = none)
    (hstep : step codec s l = some s') (hanswer : s.answer codec l = some response) :
    s.thread ≠ .receive ∧
      ((∃ sreq sresp, s.mAlgoRunner.callers 0 = .ran sreq sresp ∧
          response = { resp := some (.submit sresp) }) ∨
        ∃ greq gresp, s.mAlgoRunner.callers 0 = .got greq gresp ∧
          response = { resp := some (.get gresp) }) := by
  obtain ⟨-, hs⟩ := step_cases hstep
  cases hs with
  | badHandshake | accept | refuse | badRequest | answer | run | get => cases hl
  | think client tag choice hbusy pool hpool hran hgot =>
      unfold answer at hanswer
      split at hanswer <;> simp_all
  | ran client tag choice hbusy pool hpool sreq sresp hran =>
      refine ⟨by simp [hbusy], Or.inl ⟨sreq, sresp, hran, ?_⟩⟩
      simpa [Server.answer, hran, eq_comm] using hanswer
  | got client tag choice hbusy pool hpool greq gresp hgot =>
      refine ⟨by simp [hbusy], Or.inr ⟨greq, gresp, hgot, ?_⟩⟩
      simpa [Server.answer, hgot, eq_comm] using hanswer
  | worker => cases hanswer

/-- A settled server does not answer that the input is invalid. -/
theorem not_invalid_of_settled {response : EnvelopeResp} (h : s.Settled) (hl : l.message = none)
    (hstep : step codec s l = some s') (hanswer : s.answer codec l = some response) :
    ¬ response.Invalid := by
  have halive := (step_cases hstep).1
  obtain ⟨hbusy, hreturns⟩ := returns_of_answer hl hstep hanswer
  have hsettled := (h.resolve_left (by simp [halive])).resolve_left hbusy
  rcases hreturns with ⟨sreq, sresp, hpc, rfl⟩ | ⟨greq, gresp, hpc, rfl⟩
  · rw [hpc] at hsettled
    simpa [EnvelopeResp.Invalid, RespCase.status, CallerPc.Settled] using hsettled
  · rw [hpc] at hsettled
    simpa [EnvelopeResp.Invalid, RespCase.status, CallerPc.Settled] using hsettled

theorem inert_of_answer {response : EnvelopeResp} (hl : l.message = none)
    (hstep : step codec s l = some s') (hanswer : s.answer codec l = some response) :
    Inert codec s l := by
  obtain ⟨-, hreturns⟩ := returns_of_answer hl hstep hanswer
  intro _
  refine ⟨fun _ _ => ?_, fun t ht => ?_⟩
  · rcases hreturns with ⟨sreq, sresp, hpc, -⟩ | ⟨greq, gresp, hpc, -⟩ <;>
      simp [hpc, CallerPc.Executes]
  · have hpc : (∃ request response, s.mAlgoRunner.callers 0 = .ran request response) ∨
        ∃ request response, s.mAlgoRunner.callers 0 = .got request response :=
      hreturns.imp (fun ⟨r, a, h, _⟩ => ⟨r, a, h⟩) fun ⟨r, a, h, _⟩ => ⟨r, a, h⟩
    obtain ⟨-, hs⟩ := step_cases ht
    cases hs with
    | badHandshake | accept | refuse | badRequest | answer | run | get => cases hl
    | think client tag choice hbusy pool hpool => exact ⟨rfl, Pool.frame_of_return hpool hpc⟩
    | ran client tag choice hbusy pool hpool | got client tag choice hbusy pool hpool =>
        rw [reply_mAlgoRunner, reply_mClientExecCaps]
        exact ⟨rfl, Pool.frame_of_return hpool hpc⟩
    | worker => cases hanswer

theorem inert_of_invalid {ks : List Label} {t t' : Server} {response : EnvelopeResp}
    (h : s.mAlgoRunner.Yielding Understood) (hks : ∀ k ∈ ks, k.message = none)
    (hl : l.message = none) (hrun : run (step codec) s ks = some t)
    (hstep : step codec t l = some t') (hanswer : t.answer codec l = some response)
    (hinvalid : response.Invalid) : Guarded (step codec) (Inert codec) s (ks ++ [l]) := by
  induction ks generalizing s with
  | nil =>
      obtain rfl := Option.some.inj hrun
      exact ⟨inert_of_answer hl hstep hanswer, fun _ _ => trivial⟩
  | cons k ks ih =>
      obtain ⟨u, hu, hrest⟩ := run_cons_eq_some.mp hrun
      have hk := hks k List.mem_cons_self
      have hks' : ∀ k ∈ ks, k.message = none := fun m hm => hks m (List.mem_cons_of_mem k hm)
      have hyielding : u.mAlgoRunner.Yielding Understood :=
        yielding_step (fun _ _ h => h) (fun _ _ => understood_of_capability) s k u h hu
      rcases inert_or_settled h hk hu with hinert | hsettled
      · refine ⟨hinert, fun u' hu' => ?_⟩
        obtain rfl : u = u' := Option.some.inj (hu.symm.trans hu')
        exact ih hyielding hks' hrest
      · -- a settled server would not give that answer
        have hlast : t.Settled := run_invariant_of_guarded
          (fun _ _ _ hs hok hstep => settled_step hs hok hstep) hsettled
          (guarded_of_forall fun _ => hks') hrest
        exact absurd hinvalid (not_invalid_of_settled hlast hl hstep hanswer)

/-- If the reply to a message of a registered client has the status
`ST_ERROR_INVALID_INPUT`, the server's thread did nothing for the message. -/
theorem invalid_reply_inert (codec : Codec) (n : ℕ) (ls : List Label) (s : Server)
    (hrun : run (step codec) (start n) ls = some s) (client payload : Bytes) (tag : ℕ)
    (caps : UInt8) (hcaps : s.mClientExecCaps client = some caps) (ks before : List Label)
    (last : Label) (hks : ∀ k ∈ ks, k.message = none)
    (hlast : .recv client payload tag :: ks = before ++ [last]) (t t' : Server)
    (ht : run (step codec) s before = some t) (ht' : step codec t last = some t')
    (response : EnvelopeResp) (hanswer : t.answer codec last = some response)
    (hinvalid : response.Invalid) :
    Guarded (step codec) (Inert codec) s (.recv client payload tag :: ks) := by
  have hyielding : s.mAlgoRunner.Yielding Understood :=
    run_invariant (yielding_step (fun _ _ h => h) (fun _ _ => understood_of_capability))
      (Pool.yielding_start Understood n) hrun
  refine ⟨inert_recv hcaps, fun u hu => ?_⟩
  have hyielding' : u.mAlgoRunner.Yielding Understood :=
    yielding_step (fun _ _ h => h) (fun _ _ => understood_of_capability) s _ u hyielding hu
  cases before with
  | nil =>
      obtain ⟨-, rfl⟩ := List.cons.inj hlast
      trivial
  | cons l before =>
      obtain ⟨rfl, rfl⟩ := List.cons.inj hlast
      obtain ⟨u', hu', hbefore⟩ := run_cons_eq_some.mp ht
      obtain rfl : u = u' := Option.some.inj (hu.symm.trans hu')
      exact inert_of_invalid hyielding' (fun k hk => hks k (List.mem_append_left _ hk))
        (hks last (by simp)) hbefore ht' hanswer hinvalid

/-- A client asks for a ticket that was never issued. -/
theorem invalid_reply_inert_unknown :
    ∃ s, run (step wireCodec) (start 1) [.recv [65] (sentHandshake 1) 0] = some s ∧
      Guarded (step wireCodec) (Inert wireCodec) s
        [.recv [65] (sentGet { ticket := some { reqId := 7 } }) 1, .thread {}, .thread {}] := by
  obtain ⟨s, hs, htest⟩ := exists_of_run_any (step wireCodec) (start 1)
    [.recv [65] (sentHandshake 1) 0] (fun s => s.mClientExecCaps [65] = some 1 ∧
      (run (step wireCodec) s
        [.recv [65] (sentGet { ticket := some { reqId := 7 } }) 1, .thread {}]).any fun t =>
          (step wireCodec t (.thread {})).isSome ∧ t.answer wireCodec (.thread {}) =
            some { resp := some (.get { status := .stErrorInvalidInput }) }) (by decide)
  simp only [Bool.decide_and, Bool.and_eq_true, decide_eq_true_eq] at htest
  obtain ⟨hcaps, hanswered⟩ := htest
  obtain ⟨t, ht, hanswer⟩ := exists_of_run_any _ _ _ _ hanswered
  simp only [Bool.and_eq_true, decide_eq_true_eq, Option.isSome_iff_exists] at hanswer
  obtain ⟨⟨t', ht'⟩, hanswer⟩ := hanswer
  exact ⟨s, hs, invalid_reply_inert wireCodec 1 _ s hs _ _ _ 1 hcaps [.thread {}, .thread {}]
    [.recv [65] (sentGet { ticket := some { reqId := 7 } }) 1, .thread {}] (.thread {})
    (by decide) rfl t t' ht ht' _ hanswer rfl⟩

end Server

end InterProcess
