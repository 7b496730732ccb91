import InterProcess.Server.Enforcement

/-!
# Trapping divisions

`runMath` answers a zero divisor before it divides, so the only undefined
division it can perform is that of the least `int32` by minus one. A request for
it kills the process when it is executed, on the server's thread or on a worker.
-/

namespace InterProcess

open Transition

namespace Pool

/-- Nothing that is queued, held by a worker or about to be executed traps. -/
structure Harmless (p : Pool) : Prop where
  alive : p.trapped = false
  records : ∀ j ∈ p.heap, ¬ j.req.Traps
  entering : ∀ c request, p.callers c = .run request → ¬ request.Kills

theorem harmless_start (n : ℕ) : (start n).Harmless where
  alive := rfl
  records j hj := by cases hj
  entering c request h := by cases h

theorem Harmless.modify {p : Pool} (h : p.Harmless) (job : JobRef) {f : Job → Job}
    (hf : ∀ j, (f j).req = j.req) : ∀ j ∈ p.heap.modify job f, ¬ j.req.Traps :=
  forall_req_modify (P := fun request => ¬ request.Traps) h.records job hf

theorem harmless_step (p : Pool) (l : Label) (p' : Pool) (h : p.Harmless)
    (hl : ∀ c request, l = .run c request → ¬ request.Kills) (hs : p.step l = some p') :
    p'.Harmless := by
  have hentering : ∀ c request, p'.callers c = .run request → ¬ request.Kills := by
    intro c request hpc
    rcases eq_run_of_step hs hpc with heq | hold
    · exact hl c request heq
    · exact h.entering c request hold
  obtain ⟨-, hs⟩ := step_cases hs
  cases hs with
  | run | get | deinit => exact ⟨h.alive, h.records, hentering⟩
  | caller c choice hc =>
      cases hc with
      | trap request hpc hmode heval =>
          exact absurd ⟨Or.inl hmode, (runBlocking_eq_none_iff request).mp heval⟩
            (h.entering c request hpc)
      | enqueue request hpc hmode =>
          refine ⟨h.alive, fun j hj => ?_, hentering⟩
          rcases List.mem_append.mp hj with hold | hnew
          · exact h.records j hold
          · rw [List.mem_singleton.mp hnew]
            exact fun htraps => h.entering c request hpc ⟨Or.inr hmode, htraps⟩
      | consume request job =>
          exact ⟨h.alive, h.modify job fun _ => rfl, hentering⟩
      | _ => exact ⟨h.alive, h.records, hentering⟩
  | worker i hw =>
      cases hw with
      | trap job hpc j hj heval =>
          exact absurd ((evaluate_eq_none_iff j.req).mp heval)
            (h.records j (List.mem_of_getElem? hj))
      | publish job status result =>
          exact ⟨h.alive, h.modify job fun _ => rfl, hentering⟩
      | _ => exact ⟨h.alive, h.records, hentering⟩

/-- A blocking request that traps kills the process at the next step of its
thread. -/
theorem trapped_of_blocking {p : Pool} {c : ℕ} {request : SubmitRequest}
    (halive : p.trapped = false) (hpc : p.callers c = .run request)
    (hmode : request.mode = .blocking) (htraps : request.Traps) (choice : Choice) :
    p.step (.caller c choice) = some { p with trapped := true } := by
  have heval := (runBlocking_eq_none_iff request).mpr htraps
  simp [step, halive, callerStep, hpc, hmode, heval]

end Pool

namespace Server

/-- The message is not a permitted request for a trapping division. -/
def NoTrapRequest (codec : Codec) (s : Server) (l : Label) : Prop :=
  ∀ client payload tag caps request sreq, l = .recv client payload tag →
    s.mClientExecCaps client = some caps → codec.parseReq payload = some request →
      handleEnvelope request caps = .run sreq → ¬ sreq.Kills

theorem harmless_step (codec : Codec) (s : Server) (l : Label) (s' : Server)
    (h : s.mAlgoRunner.Harmless) (hok : NoTrapRequest codec s l)
    (hstep : step codec s l = some s') : s'.mAlgoRunner.Harmless := by
  obtain ⟨-, hs⟩ := step_cases hstep
  cases hs with
  | badHandshake | accept | refuse | badRequest => exact h
  | answer => simpa using h
  | run client payload tag hfree caps hcaps request hparse sreq hhandle pool hpool =>
      refine Pool.harmless_step _ _ _ h ?_ hpool
      rintro c r ⟨⟩
      exact hok client payload tag caps request sreq rfl hcaps hparse hhandle
  | get _ _ _ _ _ _ _ _ _ _ pool hpool | think _ _ _ _ pool hpool | worker _ pool hpool =>
      exact Pool.harmless_step _ _ _ h (by rintro c r ⟨⟩) hpool
  | ran _ _ _ _ pool hpool | got _ _ _ _ pool hpool =>
      rw [reply_mAlgoRunner]
      exact Pool.harmless_step _ _ _ h (by rintro c r ⟨⟩) hpool

/-- In a run in which no registered client sends a permitted request for a
trapping division, no evaluation of `runMath` traps; and when such a request
arrives in blocking mode, the next step of the server's thread does. -/
theorem no_trap_of_guarded (codec : Codec) (n : ℕ) (ls : List Label) (s : Server)
    (hrun : run (step codec) (start n) ls = some s) :
    (Guarded (step codec) (NoTrapRequest codec) (start n) ls →
      s.mAlgoRunner.trapped = false) ∧
    ∀ client payload tag caps request sreq s',
      s.mClientExecCaps client = some caps → codec.parseReq payload = some request →
        handleEnvelope request caps = .run sreq → sreq.mode = .blocking → sreq.Traps →
          step codec s (.recv client payload tag) = some s' →
            ∀ choice, ∃ s'', step codec s' (.thread choice) = some s'' ∧
              s''.mAlgoRunner.trapped = true := by
  constructor
  · intro hok
    exact (run_invariant_of_guarded (P := fun s : Server => s.mAlgoRunner.Harmless)
      (harmless_step codec) (Pool.harmless_start n) hok hrun).alive
  · intro client payload tag caps request sreq s' hcaps hparse hhandle hmode htraps hrecv choice
    obtain ⟨hbusy, hpc, halive⟩ : s'.thread = .handle client tag ∧
        s'.mAlgoRunner.callers 0 = .run sreq ∧ s'.mAlgoRunner.trapped = false := by
      obtain ⟨halive, hs⟩ := step_cases hrecv
      cases hs with
      | run _ _ _ _ _ hcaps' _ hparse' _ hhandle' pool hpool =>
          obtain ⟨-, hp⟩ := Pool.step_cases hpool
          cases hp with
          | run => simp_all
      | _ => simp_all
    have hpool := Pool.trapped_of_blocking halive hpc hmode htraps choice
    refine ⟨s'.withRunner { s'.mAlgoRunner with trapped := true } (.handle client tag), ?_, rfl⟩
    simp [step, halive, advance, hbusy, hpool, hpc]

/-- An addition is executed without a trap. -/
theorem no_trap_add :
    ∃ s, run (step wireCodec) (start 1) (addAfter 1 ++ [.thread {}]) = some s ∧
      s.mAlgoRunner.trapped = false := by
  obtain ⟨s, hs, -⟩ := exists_of_run_any (step wireCodec) (start 1)
    (addAfter 1 ++ [.thread {}]) (fun _ => true) (by decide)
  refine ⟨s, hs, (no_trap_of_guarded wireCodec 1 _ s hs).1 ?_⟩
  refine ⟨?_, fun t ht => ⟨?_, fun u _ => ⟨?_, fun _ _ => trivial⟩⟩⟩
  · rintro client payload tag caps request sreq - hcaps
    cases hcaps
  · rintro client payload tag caps request sreq ⟨⟩ - hparse hhandle ⟨-, args, hargs, hop, -⟩
    obtain rfl : { req := some (.submit (addBlocking 2 3)) } = request :=
      Option.some.inj ((show wireCodec.parseReq (sentSubmit (addBlocking 2 3)) = _ by
        decide).symm.trans hparse)
    obtain ⟨hreq, -⟩ := handleEnvelope_eq_run.mp hhandle
    cases hreq
    cases hargs
    cases hop
  · rintro client payload tag caps request sreq ⟨⟩

def divRequest (mode : SubmitMode) : SubmitRequest :=
  { mode, payload := some (.math { op := .mathDiv, a := Int32.minValue, b := -1 }) }

def divAfter (mode : SubmitMode) : List Label :=
  [.recv [65] (sentHandshake 8) 0, .recv [65] (sentSubmit (divRequest mode)) 1]

/-- The division traps on the server's thread, and on a worker. -/
theorem division_traps :
    (run (step wireCodec) (start 1) (divAfter .blocking ++ [.thread {}])).any
      (fun s => s.mAlgoRunner.trapped) = true ∧
    (run (step wireCodec) (start 1) (divAfter .nonblocking ++
      List.replicate 6 (.thread {}) ++ List.replicate 5 (.worker 0))).any
        (fun s => s.mAlgoRunner.trapped) = true := by
  decide

end Server

end InterProcess
