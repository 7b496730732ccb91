import InterProcess.Message.Wire
import InterProcess.Server.Application

/-!
# Capability enforcement

A client that is not registered yet is registered by its first message that
parses as a handshake, and the mask that is stored is the one it sent, also when
`verifyExecCaps` refused it: the error reply is not followed by a `continue`. So
the stored masks are valid exactly in the runs in which no handshake with a
refused mask arrives. In these runs an operation is executed only for a client
that sent an accepted handshake with the flag of that operation.
-/

namespace InterProcess

open Transition

namespace Pool

theorem eq_run_of_step {p p' : Pool} {l : Label} {c : ℕ} {request : SubmitRequest}
    (hs : p.step l = some p') (hpc : p'.callers c = .run request) :
    l = .run c request ∨ p.callers c = .run request := by
  obtain ⟨-, hs⟩ := step_cases hs
  cases hs with
  | run d r =>
      rcases setCaller_callers_eq_iff.mp hpc with ⟨rfl, h⟩ | ⟨-, h⟩
      · cases h
        exact Or.inl rfl
      · exact Or.inr h
  | get d | deinit d =>
      rcases setCaller_callers_eq_iff.mp hpc with ⟨-, h⟩ | ⟨-, h⟩
      · cases h
      · exact Or.inr h
  | caller d choice hc =>
      cases hc with
      | trap => exact Or.inr hpc
      | stopTest =>
          rcases setCaller_callers_eq_iff.mp hpc with ⟨-, h⟩ | ⟨-, h⟩
          · split at h <;> cases h
          · exact Or.inr h
      | _ =>
          rcases setCaller_callers_eq_iff.mp hpc with ⟨-, h⟩ | ⟨-, h⟩
          · cases h
          · exact Or.inr h
  | worker i hw =>
      cases hw with
      | notify job =>
          refine Or.inr ?_
          cases hold : p.callers c <;> simp_all [CallerPc.notified]
          split at hpc <;> cases hpc
      | _ => exact Or.inr hpc

theorem idle_of_run {p p' : Pool} {c : ℕ} {request : SubmitRequest}
    (hs : p.step (.run c request) = some p') : p.callers c = .idle := by
  obtain ⟨-, hs⟩ := step_cases hs
  cases hs with
  | run _ _ hidle => exact hidle

theorem idle_of_get {p p' : Pool} {c : ℕ} {request : GetRequest}
    (hs : p.step (.get c request) = some p') : p.callers c = .idle := by
  obtain ⟨-, hs⟩ := step_cases hs
  cases hs with
  | get _ _ hidle => exact hidle

end Pool

namespace Server

/-- A handshake that arrives has a mask that `verifyExecCaps` accepts. -/
def HandshakeOk (codec : Codec) (s : Server) (l : Label) : Prop :=
  ∀ client payload tag handshake, l = .recv client payload tag →
    s.mClientExecCaps client = none → codec.parseHandshake payload = some handshake →
      verifyExecCaps handshake.execFunctions.toUInt8 = true

/-- Among the messages of the run there is a handshake of this client with this
mask, which was not answered. -/
def Accepted (codec : Codec) (n : ℕ) (ls : List Label) (client : Bytes) (mask : UInt8) : Prop :=
  ∃ before payload tag after s s' handshake,
    ls = before ++ .recv client payload tag :: after ∧
      run (step codec) (start n) before = some s ∧
      step codec s (.recv client payload tag) = some s' ∧ s.mClientExecCaps client = none ∧
      codec.parseHandshake payload = some handshake ∧
      handshake.execFunctions.toUInt8 = mask ∧ s'.sent = s.sent

/-- The server's thread enters `AlgoRunner::run` for this client, where a blocking
request is evaluated and a non-blocking one is enqueued. -/
def Executing (s : Server) (client : Bytes) (sreq : SubmitRequest) : Prop :=
  (∃ tag, s.thread = .handle client tag) ∧ s.mAlgoRunner.callers 0 = .run sreq

theorem Accepted.later {codec : Codec} {n : ℕ} {ls : List Label} {client : Bytes} {mask : UInt8}
    (h : Accepted codec n ls client mask) (l : Label) :
    Accepted codec n (ls ++ [l]) client mask := by
  obtain ⟨before, payload, tag, after, s, s', handshake, rfl, hrest⟩ := h
  exact ⟨before, payload, tag, after ++ [l], s, s', handshake, by simp, hrest⟩

theorem caps_step {codec : Codec} {s s' : Server} {l : Label} (h : step codec s l = some s')
    {client : Bytes} {mask : UInt8} (hmask : s.mClientExecCaps client = some mask) :
    s'.mClientExecCaps client = some mask := by
  obtain ⟨-, hs⟩ := step_cases h
  cases hs with
  | accept client' payload tag hfree hnew | refuse client' payload tag hfree hnew =>
      have hne : client ≠ client' := by
        rintro rfl
        simp [hmask] at hnew
      simpa [Table.insert_of_ne _ hne] using hmask
  | answer | ran | got => simpa using hmask
  | _ => exact hmask

/-- What is known about the clients after the messages `ls`. -/
structure Enforced (codec : Codec) (n : ℕ) (ls : List Label) (s : Server) : Prop where
  masks : ∀ client mask, s.mClientExecCaps client = some mask →
    verifyExecCaps mask = true ∧ Accepted codec n ls client mask
  executing : ∀ client sreq, s.Executing client sreq →
    ∃ mask, s.mClientExecCaps client = some mask ∧ clientHasCapabilityFor sreq mask = true

theorem enforced_start (codec : Codec) (n : ℕ) : Enforced codec n [] (start n) where
  masks client mask h := by cases h
  executing client sreq h := by
    obtain ⟨⟨tag, htag⟩, -⟩ := h
    cases htag

theorem Enforced.same {codec : Codec} {n : ℕ} {ls : List Label} {s s' : Server}
    (h : Enforced codec n ls s) (l : Label)
    (hcaps : s'.mClientExecCaps = s.mClientExecCaps)
    (hexec : ∀ client sreq, s'.Executing client sreq → s.Executing client sreq ∨
      ∃ mask, s.mClientExecCaps client = some mask ∧ clientHasCapabilityFor sreq mask = true) :
    Enforced codec n (ls ++ [l]) s' where
  masks client mask hmask := by
    obtain ⟨hverify, haccepted⟩ := h.masks client mask (hcaps ▸ hmask)
    exact ⟨hverify, haccepted.later l⟩
  executing client sreq hrun := by
    rw [hcaps]
    exact (hexec client sreq hrun).elim (h.executing client sreq) id

theorem enforced_step {codec : Codec} {n : ℕ} (ls : List Label) (s : Server) (l : Label)
    (s' : Server) (hrun : run (step codec) (start n) ls = some s) (h : Enforced codec n ls s)
    (hok : HandshakeOk codec s l) (hstep : step codec s l = some s') :
    Enforced codec n (ls ++ [l]) s' := by
  obtain ⟨-, hs⟩ := step_cases hstep
  cases hs with
  | accept client payload tag hfree hnew handshake hparse hverify =>
      refine ⟨fun d mask hmask => ?_, fun d sreq hrun' => ?_⟩
      · simp only [register_mClientExecCaps, Table.insert_apply] at hmask
        split at hmask
        · next heq =>
            cases hmask
            subst heq
            exact ⟨hverify, ls, payload, tag, [], s, _, handshake, rfl, hrun, hstep, hnew,
              hparse, rfl, rfl⟩
        · obtain ⟨hmask', haccepted⟩ := h.masks d mask hmask
          exact ⟨hmask', haccepted.later _⟩
      · obtain ⟨⟨tag', htag⟩, -⟩ := hrun'
        rw [register_thread, hfree] at htag
        cases htag
  | refuse client payload tag hfree hnew handshake hparse hverify =>
      rw [hok client payload tag handshake rfl hnew hparse] at hverify
      cases hverify
  | badHandshake | badRequest => exact h.same _ rfl fun _ _ hexec => Or.inl hexec
  | answer =>
      refine h.same _ (by simp) fun client sreq hexec => Or.inl ?_
      simpa [Executing] using hexec
  | run client payload tag hfree caps hcaps request hparse sreq hhandle pool hpool =>
      refine h.same _ rfl fun d r hexec => Or.inr ?_
      obtain ⟨⟨tag', htag⟩, hpc⟩ := hexec
      cases htag
      rcases Pool.eq_run_of_step hpool hpc with heq | hold
      · cases heq
        exact ⟨caps, hcaps, (handleEnvelope_eq_run.mp hhandle).2⟩
      · simp [Pool.idle_of_run hpool] at hold
  | get client payload tag hfree caps hcaps request hparse greq hhandle pool hpool =>
      refine h.same _ rfl fun d r hexec => ?_
      rcases Pool.eq_run_of_step hpool hexec.2 with heq | hold
      · cases heq
      · simp [Pool.idle_of_get hpool] at hold
  | think client tag choice hbusy pool hpool =>
      refine h.same _ rfl fun d r hexec => Or.inl ?_
      rcases Pool.eq_run_of_step hpool hexec.2 with heq | hold
      · cases heq
      · exact ⟨by rw [hbusy]; exact hexec.1, hold⟩
  | ran client tag choice hbusy pool hpool | got client tag choice hbusy pool hpool =>
      refine h.same _ (reply_mClientExecCaps _ _ _ _ _) fun d r hexec => ?_
      obtain ⟨⟨tag', htag⟩, -⟩ := hexec
      simp at htag
  | worker i pool hpool =>
      refine h.same _ rfl fun d r hexec => Or.inl ?_
      rcases Pool.eq_run_of_step hpool hexec.2 with heq | hold
      · cases heq
      · exact ⟨hexec.1, hold⟩

/-- The stored masks are valid exactly when no handshake with a refused mask has
arrived, and then an operation is executed only for a client that sent an
accepted handshake with the flag of the operation. -/
theorem capability_enforced_iff (codec : Codec) (n : ℕ) (ls : List Label) (s : Server)
    (hrun : run (step codec) (start n) ls = some s) :
    (Guarded (step codec) (HandshakeOk codec) (start n) ls ↔
      ∀ client mask, s.mClientExecCaps client = some mask → verifyExecCaps mask = true) ∧
    (Guarded (step codec) (HandshakeOk codec) (start n) ls →
      (∀ client mask, s.mClientExecCaps client = some mask →
        Accepted codec n ls client mask) ∧
      ∀ client sreq, s.Executing client sreq → ∃ mask required,
        Accepted codec n ls client mask ∧ verifyExecCaps mask = true ∧
          requiredFlag sreq = some required ∧ mask &&& required ≠ 0) := by
  have henforced : Guarded (step codec) (HandshakeOk codec) (start n) ls →
      Enforced codec n ls s := fun hok =>
    run_history_of_guarded enforced_step (enforced_start codec n) hok hrun
  refine ⟨⟨fun hok client mask hmask => ((henforced hok).masks client mask hmask).1, ?_⟩, ?_⟩
  · intro hmasks
    refine (guarded_of_run (P := fun _ => True) (Q := fun s => ∀ client mask,
      s.mClientExecCaps client = some mask → verifyExecCaps mask = true)
      (fun _ _ _ _ _ => trivial) ?_ ?_ trivial hrun hmasks).1
    · intro s l t _ hs ht client mask hmask
      exact ht client mask (caps_step hs hmask)
    · rintro s _ t - hs ht client payload tag handshake rfl hnew hparse
      refine ht client _ ?_
      obtain ⟨-, hs⟩ := step_cases hs
      cases hs <;> simp_all
  · intro hok
    refine ⟨fun client mask hmask => ((henforced hok).masks client mask hmask).2, ?_⟩
    intro client sreq hexec
    obtain ⟨mask, hmask, hcap⟩ := (henforced hok).executing client sreq hexec
    obtain ⟨hverify, haccepted⟩ := (henforced hok).masks client mask hmask
    obtain ⟨required, hrequired, hflag⟩ := clientHasCapabilityFor_iff.mp hcap
    exact ⟨mask, required, haccepted, hverify, hrequired, hflag⟩

def addBlocking (a b : Int32) : SubmitRequest :=
  { mode := .blocking, payload := some (.math { a := a, b := b }) }

/-- A client sends a handshake with this mask and then has two numbers added. -/
def addAfter (execFunctions : UInt32) : List Label :=
  [.recv [65] (sentHandshake execFunctions) 0, .recv [65] (sentSubmit (addBlocking 2 3)) 1]

/-- A client with the flag for additions has its addition executed. -/
theorem capability_enforced_add :
    ∃ s, run (step wireCodec) (start 1) (addAfter 1) = some s ∧
      s.Executing [65] (addBlocking 2 3) ∧
      ∃ mask required, Accepted wireCodec 1 (addAfter 1) [65] mask ∧ verifyExecCaps mask = true ∧
        requiredFlag (addBlocking 2 3) = some required ∧ mask &&& required ≠ 0 := by
  obtain ⟨s, hs, htest⟩ := exists_of_run_any (step wireCodec) (start 1) (addAfter 1)
    (fun s => s.thread = .handle [65] 1 ∧ s.mAlgoRunner.callers 0 = .run (addBlocking 2 3))
    (by decide)
  simp only [decide_eq_true_eq] at htest
  have hexec : s.Executing [65] (addBlocking 2 3) := ⟨⟨1, htest.1⟩, htest.2⟩
  refine ⟨s, hs, hexec, ?_⟩
  refine ((capability_enforced_iff wireCodec 1 (addAfter 1) s hs).2 ?_).2 _ _ hexec
  refine ⟨?_, fun t ht => ⟨?_, fun _ _ => trivial⟩⟩
  · rintro client payload tag handshake ⟨⟩ - hparse
    obtain rfl : { clientName := [65], execFunctions := 1 } = handshake :=
      Option.some.inj ((show wireCodec.parseHandshake (sentHandshake 1) = _ by decide).symm.trans
        hparse)
    decide
  · rintro client payload tag handshake ⟨⟩ hnew -
    obtain rfl := Option.some.inj ht
    cases hnew

/-- A client whose handshake was answered with an error, because of the two bits
that are no flags, has its addition executed all the same. -/
theorem refused_handshake_executes :
    verifyExecCaps 0xFF = false ∧
    ∃ s, run (step wireCodec) (start 1) (addAfter 0xFF) = some s ∧
      s.Executing [65] (addBlocking 2 3) ∧ s.mClientExecCaps [65] = some 0xFF ∧
      s.sent.map Sent.tag = [0] ∧ ∀ mask, ¬ Accepted wireCodec 1 (addAfter 0xFF) [65] mask := by
  refine ⟨by decide, ?_⟩
  obtain ⟨s, hs, htest⟩ := exists_of_run_any (step wireCodec) (start 1) (addAfter 0xFF)
    (fun s => (s.thread = .handle [65] 1 ∧ s.mAlgoRunner.callers 0 = .run (addBlocking 2 3)) ∧
      s.mClientExecCaps [65] = some 0xFF ∧ s.sent.map Sent.tag = [0]) (by decide)
  simp only [decide_eq_true_eq] at htest
  obtain ⟨⟨hthread, hpc⟩, hmask, hsent⟩ := htest
  refine ⟨s, hs, ⟨⟨1, hthread⟩, hpc⟩, hmask, hsent, ?_⟩
  rintro mask ⟨before, payload, tag, after, t, t', handshake, hls, ht, hstep, hnew, -, -, hquiet⟩
  rcases before with _ | ⟨l, before⟩
  · -- the handshake itself is answered
    obtain rfl := Option.some.inj ht
    obtain ⟨h, -⟩ := List.cons.inj hls
    cases h
    obtain rfl := Option.some.inj hstep
    exact absurd hquiet (by decide)
  · -- and the client is registered after it
    obtain ⟨rfl, hrest⟩ := List.cons.inj hls
    obtain ⟨u, hu, hbefore⟩ := run_cons_eq_some.mp ht
    have hmask' : u.mClientExecCaps [65] = some 0xFF := by
      obtain rfl := Option.some.inj hu
      rfl
    have hkept := run_invariant (P := fun s : Server => s.mClientExecCaps [65] = some 0xFF)
      (fun s l s' h hs => caps_step hs h) hmask' hbefore
    rw [hkept] at hnew
    cases hnew

end Server

end InterProcess
