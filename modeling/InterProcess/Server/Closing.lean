import InterProcess.Server.Attending

/-!
# How the server process ends

When `main` returns the code is `EC_SUCCESS`, whatever went wrong on the way. Either the
socket was never bound, and then nothing was received; or the loop has run, the messages are
answered but for replies that were lost, the workers are joined, and the jobs that are not
done are those left in the queue.

A process that serves can always be brought to its end, unless a division traps. Only the
broadcast of `deinit` can strand it, and there is a schedule that avoids that.
-/

namespace InterProcess

open Transition

namespace Pool

variable {p : Pool} {c : ℕ}

theorem exists_clear (h : p.Locked) (halive : p.trapped = false) :
    ∃ q, Reaches step (fun _ l => ¬ l.Starts) p q ∧ q.trapped = false ∧ q.callers = p.callers ∧
      ∀ i, ¬ q.WorkerAt i .enterWait := by
  by_cases hwindow : ∃ i, p.WorkerAt i .enterWait
  · obtain ⟨i, hi⟩ := hwindow
    refine ⟨setWorker { p with qMtx := none } i .blocked, .head (l := .worker i) id ?_ (.refl _),
      halive, rfl, fun j hj => ?_⟩
    · simp [step, halive, workerStep, hi]
    · rcases workerAt_set_cases hj with ⟨-, heq⟩ | ⟨hne, hj⟩
      · cases heq
      · have howner := (h.worker i _ hi rfl).symm.trans (h.worker j _ hj rfl)
        exact hne (Owner.worker.inj (Option.some.inj howner))
  · exact ⟨p, .refl p, halive, rfl, not_exists.mp hwindow⟩

/-- There is a way for `deinit` to return, or a division traps. -/
theorem exists_stopped {n : ℕ} {before : List Label} (hbefore : run step (start n) before = some p)
    (hothers : ∀ d, d ≠ c → p.callers d = .idle) (hpc : p.callers c = .stopTest)
    (hrunning : p.running = true) (halive : p.trapped = false) :
    ∃ q, Reaches step (fun _ l => ¬ l.Starts) p q ∧ (q.trapped = true ∨ q.callers c = .idle) := by
  have htest : p.step (.caller c {}) = some (p.setCaller c .stopStore) := by
    simp [step, halive, callerStep, hpc, hrunning]
  have hstore : (p.setCaller c .stopStore).step (.caller c {}) =
      some (setCaller { p.setCaller c .stopStore with running := false } c .stopBroadcast) := by
    simp [step, halive, callerStep]
  have hfirst : Reaches step (fun _ l => ¬ l.Starts) p
      (setCaller { p.setCaller c .stopStore with running := false } c .stopBroadcast) :=
    .head (l := .caller c {}) id htest (.head (l := .caller c {}) id hstore (.refl _))
  obtain ⟨ks, hks⟩ := hfirst.exists_run
  have hmid := run_append_eq_some.mpr ⟨p, hbefore, hks⟩
  obtain ⟨q, hclear, halive', hcallers, hwindow⟩ :=
    exists_clear (run_invariant sturdy_step (sturdy_start n) hmid).locked halive
  obtain ⟨ks', hks'⟩ := hclear.exists_run
  have hqrun := run_append_eq_some.mpr ⟨_, hmid, hks'⟩
  have hat : q.callers c = .stopBroadcast := by simp [hcallers]
  have hidle : ∀ d, d ≠ c → q.callers d = .idle := by
    intro d hd
    simp [hcallers, hd, hothers d hd]
  obtain ⟨q', hq'⟩ : ∃ q', q.step (.caller c {}) = some q' := by
    simp [step, halive', callerStep, hat]
  have hflag : q.running = false :=
    run_invariant stopStored_step (stopStored_start n) hqrun c hat
  obtain ⟨ls, r, hguard, hr, hsettled⟩ := exists_settled_of_broadcast hidle hat hflag hq'
  have hlast : Reaches step (fun _ l => ¬ l.Starts) q' r :=
    Reaches.mono (fun _ _ hl => hl.1) ⟨ls, hguard, hr⟩
  refine ⟨r, hfirst.trans (hclear.trans (.head (l := .caller c {}) id hq' hlast)), ?_⟩
  cases htrap : r.trapped with
  | true => exact Or.inl rfl
  | false =>
      exact Or.inr (returned_of_settled hqrun hidle hat hq' hwindow hguard hr hsettled htrap).1

end Pool

namespace Process

variable {codec : Codec} {p : Process} {as : List Arrival}

/-- The loop has run: the messages are answered, but for replies that were lost, the workers are
joined, and what is not done is in the queue. -/
structure Closed (codec : Codec) (as : List Arrival) (p : Process) : Prop where
  runner : p.app.mAlgoRunner.outImpl = none ∧ p.app.mAlgoRunner.threads = 0
  exited : p.server.mAlgoRunner.AllExited
  done : ∀ job ∈ p.server.mAlgoRunner.pushed,
    p.server.mAlgoRunner.isDone job = true ↔ job ∉ p.server.mAlgoRunner.jobQueue
  replied : Replied codec as p.server.sent

/-- If nothing has thrown and the socket has taken all frames, all messages are answered. -/
theorem Closed.answered (h : p.Closed codec as) (hsmooth : ∀ a ∈ as, a.2.Smooth) :
    List.Forall₂ (Due.Met codec) (dues codec [] (as.map Prod.fst)) p.server.sent := by
  rw [← owed_of_smooth hsmooth]
  exact h.replied.sent

theorem Sound.returned (h : p.Sound codec as) {code : Int32} (hmain : p.main = .returned code) :
    code = ecSuccess ∧ (p.Closed codec as ∨ as = [] ∧ p.app.mAlgoRunner.outImpl ≠ none) := by
  cases h with
  | closed hat hcons hoff hclosing hout hreplied =>
      refine ⟨by simpa [hmain] using hat, Or.inl ?_⟩
      obtain ⟨n, ks, hks⟩ := hclosing.reached
      obtain ⟨jobs, hstopping⟩ := hclosing.stopping
      have hall : p.server.mAlgoRunner.AllExited := by
        have hpoint := hstopping.point
        rwa [hout] at hpoint
      have hholds : ∀ pc ∈ p.server.mAlgoRunner.workers, pc.holds = none := by
        intro pc hpc
        rw [hall pc hpc]
        rfl
      exact ⟨hcons.off hoff, hall, fun job => (Pool.conserved_of_run hks).isDone_iff hholds, hreplied⟩
  | unbound hat has _ himpl => exact ⟨by simpa [hmain] using hat, Or.inr ⟨has, himpl⟩⟩
  | serving hat | starting hat | leaving hat | closing hat | terminated hat => simp [hmain] at hat

/-! ### The way to the end -/

/-- `main` has returned, or a division has trapped. -/
def Ended (p : Process) : Prop :=
  p.main = .returned ecSuccess ∨ p.server.mAlgoRunner.trapped = true

/-- No message comes in on the way. -/
abbrev Leads (codec : Codec) : Process → Process → Prop :=
  Reaches (step codec) fun _ l => l.arrival = none

/-- A turn that is in the runner comes to its end, as the call of the runner does. -/
theorem leads_reply (hmain : p.main = .body) (hbusy : p.server.thread ≠ .receive)
    {ks : List Server.Label} {server : Server} (hks : ∀ k ∈ ks, k.message = none)
    (hrun : run (Server.step codec) p.server ks = some server)
    (hend : server.thread = .receive ∨ server.mAlgoRunner.trapped = true) :
    ∃ q, Leads codec p q ∧ (q.server.mAlgoRunner.trapped = true ∨ q.main = .loopTest ∨
      q.main = .deinit) := by
  induction ks generalizing p with
  | nil =>
      obtain rfl := Option.some.inj hrun
      exact ⟨p, .refl p, Or.inl (hend.resolve_left hbusy)⟩
  | cons k ks ih =>
      obtain ⟨s, hs, hrest⟩ := run_cons_eq_some.mp hrun
      have htrap := (Server.step_cases hs).1
      have hlater : ∀ k' ∈ ks, k'.message = none := fun k' hk' => hks k' (List.mem_cons_of_mem k hk')
      have hgo : ∀ l, l.arrival = none → step codec p l = some { p with server := s } →
          s.thread ≠ .receive → ∃ q, Leads codec p q ∧
            (q.server.mAlgoRunner.trapped = true ∨ q.main = .loopTest ∨ q.main = .deinit) := by
        intro l hl hstep hbusy'
        obtain ⟨q, hq, hqend⟩ := ih (p := { p with server := s }) hmain hbusy' hlater hrest
        exact ⟨q, .head hl hstep hq, hqend⟩
      cases k with
      | recv client payload tag => cases hks _ List.mem_cons_self
      | thread choice =>
          cases hanswer : p.server.answer codec (.thread choice) with
          | none =>
              refine hgo (.thread choice) rfl ?_ (Server.busy_of_think hs hanswer).2.1
              simp [step, htrap, hmain, Main.alive_of_ne, advance, hs, hanswer]
          | some response =>
              refine ⟨p.conclude s p.turn.replies ((p.turn.reply codec response).run.run p.loop),
                .head (l := .thread choice) rfl ?_ (.refl _), Or.inr ?_⟩
              · simp [step, htrap, hmain, Main.alive_of_ne, advance, hs, hanswer]
              · rw [conclude_main]
                split
                · exact Or.inl rfl
                · exact Or.inr rfl
      | worker i =>
          refine hgo (.worker i) rfl ?_ ?_
          · simp [step, htrap, hmain, Main.alive_of_ne, hs, withServer]
          · cases (Server.step_cases hs).2 with
            | worker i pool hpool => exact hbusy

theorem leads_stop (hmain : p.main = .loopTest) (htrap : p.server.mAlgoRunner.trapped = false) :
    Leads codec p { p with sigStop := true, main := .deinit } := by
  refine .head (l := .signal) (t := { p with sigStop := true }) rfl ?_
    (.head (l := .test) rfl ?_ (.refl _))
  · simp [step, htrap, hmain, Main.alive_of_ne]
  · simp [step, htrap, hmain, Main.alive_of_ne]

def interrupted : Serving.Turn where
  throws := fun statement => if statement = .recvMultipart then some (.zmq Serving.eintr) else none

theorem leads_interrupted (codec : Codec) (hmain : p.main = .body) (hfree : p.server.thread = .receive)
    (htrap : p.server.mAlgoRunner.trapped = false) :
    ∃ q, Leads codec p q ∧ q.main = .deinit := by
  refine ⟨p.conclude p.server false ((interrupted.body codec).run.run p.loop),
    .head (l := .recv 0 interrupted) rfl ?_ (.refl _), rfl⟩
  simp [step, htrap, hmain, hfree, Main.alive_of_ne, recv, Serving.Turn.takes,
    Serving.Turn.passes, interrupted]

/-- A process that serves can be brought out of its loop. -/
theorem exists_deinit (h : p.Sound codec as) (hmain : p.main = .loopTest ∨ p.main = .body) :
    ∃ q, Leads codec p q ∧ (q.server.mAlgoRunner.trapped = true ∨ q.main = .deinit) := by
  have hstop : ∀ q, Leads codec p q → q.main = .loopTest →
      ∃ r, Leads codec p r ∧ (r.server.mAlgoRunner.trapped = true ∨ r.main = .deinit) := by
    intro q hq hloop
    by_cases htrap : q.server.mAlgoRunner.trapped = true
    · exact ⟨q, hq, Or.inl htrap⟩
    · exact ⟨_, hq.trans (leads_stop hloop (Bool.eq_false_of_not_eq_true htrap)), Or.inr rfl⟩
  rcases hmain with hmain | hmain
  · exact hstop p (.refl p) hmain
  · by_cases htrap : p.server.mAlgoRunner.trapped = true
    · exact ⟨p, .refl p, Or.inl htrap⟩
    · rw [Bool.not_eq_true] at htrap
      by_cases hfree : p.server.thread = .receive
      · obtain ⟨q, hq, hdeinit⟩ := leads_interrupted codec hmain hfree htrap
        exact ⟨q, hq, Or.inr hdeinit⟩
      · obtain ⟨-, -, ⟨before, full, hat⟩, -⟩ := h.of_loop (Or.inr hmain)
        obtain ⟨n, hav⟩ := hat.available
        obtain ⟨ks, server, hks, hserver, hend⟩ := Server.exists_reply codec hav.ready
        obtain ⟨q, hq, hqtrap | hloop | hdeinit⟩ := leads_reply hmain hfree hks hserver hend
        · exact ⟨q, hq, Or.inl hqtrap⟩
        · exact hstop q hq hloop
        · exact ⟨q, hq, Or.inr hdeinit⟩

theorem leads_join (codec : Codec) (hmain : p.main = .join) (hclosing : p.server.Closing)
    (hin : p.server.mAlgoRunner.callers 0 ≠ .idle) {ks : List InterProcess.Label} {pool : Pool}
    (hguard : Guarded Pool.step (fun _ l => ¬ l.Starts) p.server.mAlgoRunner ks)
    (hrun : run Pool.step p.server.mAlgoRunner ks = some pool)
    (hend : pool.trapped = true ∨ pool.callers 0 = .idle) :
    ∃ q, Leads codec p q ∧ q.Ended := by
  induction ks generalizing p with
  | nil =>
      obtain rfl := Option.some.inj hrun
      exact ⟨p, .refl p, Or.inr (hend.resolve_right hin)⟩
  | cons k ks ih =>
      obtain ⟨next, hnext, hrest⟩ := run_cons_eq_some.mp hrun
      obtain ⟨htrap, hcases⟩ := Pool.step_cases hnext
      have hclosing' := Server.closing_step hclosing hguard.1 hnext
      have hgo : ∀ l, l.arrival = none → step codec p l = some (p.withRunner next .join) →
          next.callers 0 ≠ .idle → ∃ q, Leads codec p q ∧ q.Ended := by
        intro l hl hstep hin'
        obtain ⟨q, hq, hended⟩ :=
          ih (p := p.withRunner next .join) rfl hclosing' hin' (hguard.2 next hnext) hrest
        exact ⟨q, .head hl hstep hq, hended⟩
      cases hcases with
      | run | get | deinit => exact absurd trivial hguard.1
      | caller c choice hc =>
          obtain ⟨jobs, hstopping⟩ := hclosing.stopping
          obtain rfl : c = 0 := by
            by_contra hne
            exact hc.not_idle (hstopping.others c hne)
          by_cases hpc : p.server.mAlgoRunner.callers 0 = .stopped
          · refine ⟨(p.withRunner next .join).finish p.app.deinit,
              .head (l := .thread choice) rfl ?_ (.refl _), Or.inl rfl⟩
            simp [step, htrap, hmain, Main.alive_of_ne, hnext, hpc]
          · refine hgo (.thread choice) rfl ?_ ((hclosing.idle_iff hnext).not.mpr hpc)
            simp [step, htrap, hmain, Main.alive_of_ne, hnext, hpc]
      | worker i hw =>
          refine hgo (.worker i) rfl ?_ ((Pool.idle_of_worker_step hnext).not.mpr hin)
          simp [step, htrap, hmain, Main.alive_of_ne, Server.step_worker hnext, withRunner]

/-- Once the loop was left the process can be brought to its end. -/
theorem exists_ended (h : p.Sound codec as) (hmain : p.main = .deinit) :
    ∃ q, Leads codec p q ∧ q.Ended := by
  by_cases htrap : p.server.mAlgoRunner.trapped = true
  · exact ⟨p, .refl p, Or.inr htrap⟩
  · rw [Bool.not_eq_true] at htrap
    cases hon : p.app.mInitialized with
    | false =>
        refine ⟨p.finish p.app.deinit, .head (l := .deinit) rfl ?_ (.refl _), Or.inl rfl⟩
        simp [step, htrap, hmain, Main.alive_of_ne, hon]
    | true =>
        obtain ⟨-, ⟨n, hav⟩, hfree, -⟩ := h.of_deinit hmain hon
        have hpool : p.server.mAlgoRunner.step (.deinit 0) =
            some (p.server.mAlgoRunner.setCaller 0 .stopTest) := by
          simp [Pool.step, htrap, Pool.enter, hav.idle hfree]
        obtain ⟨hclosing, hpc⟩ := hav.close hfree hpool
        obtain ⟨k, before, hbefore⟩ := hclosing.reached
        obtain ⟨jobs, hstopping⟩ := hclosing.stopping
        obtain ⟨pool, ⟨ks, hguard, hrun⟩, hend⟩ :=
          Pool.exists_stopped hbefore hstopping.others hpc hav.attended.running htrap
        obtain ⟨q, hq, hended⟩ := leads_join codec (p := p.withRunner _ .join) rfl hclosing
          (by simp) hguard hrun hend
        refine ⟨q, .head (l := .deinit) rfl ?_ hq, hended⟩
        simp [step, htrap, hmain, Main.alive_of_ne, hon, hpool]

/-- After the signal at most one more message comes in. When `main` has returned its code
is `EC_SUCCESS`, and the server is closed, or its socket was never bound; and before that a
process that serves can be brought to its end without a message. -/
theorem shuts_down (codec : Codec) (hcodec : codec.Lawful) (threads : Int32) (ls : List Label)
    (p : Process) (hrun : run (step codec) (start threads) ls = some p) :
    (∀ before after, ls = before ++ .signal :: after →
      (after.filterMap Label.arrival).length ≤ 1) ∧
    (∀ code, p.main = .returned code → code = ecSuccess ∧
      (p.Closed codec (ls.filterMap Label.arrival) ∨
        ls.filterMap Label.arrival = [] ∧ p.app.mAlgoRunner.outImpl ≠ none)) ∧
    (p.main = .loopTest ∨ p.main = .body → ∃ q, Leads codec p q ∧ q.Ended) := by
  have hsound : p.Sound codec (ls.filterMap Label.arrival) :=
    sound_run hcodec (sound_start codec threads) hrun
  refine ⟨?_, fun code hmain => hsound.returned hmain, fun hmain => ?_⟩
  · rintro before after rfl
    obtain ⟨t, -, hrest⟩ := run_append_eq_some.mp hrun
    obtain ⟨u, hu, hafter⟩ := run_cons_eq_some.mp hrest
    have hflag : u.sigStop = true := by
      cases (step_cases hu).2.2
      rfl
    exact (arrivals_after_stop hflag hafter).trans u.awaits_le_one
  · obtain ⟨q, hq, htrap | hdeinit⟩ := exists_deinit hsound hmain
    · exact ⟨q, hq, Or.inr htrap⟩
    · obtain ⟨ks, hks⟩ := hq.exists_run
      obtain ⟨r, hr, hended⟩ := exists_ended (sound_run hcodec hsound hks) hdeinit
      exact ⟨r, hq.trans hr, hended⟩

/-- A client submits an addition, and the socket takes the frames of the reply as `taken` says.
When the server has accepted the job it is told to stop; `leave` takes it out of its loop. -/
def acceptedSchedule (taken : Serving.Statement → Bool) (leave : List Label) : List Label :=
  [.init true fun _ => true, .test, .recv 0 { received := some ([65], sentHandshake 63) }, .test,
    .recv 1 { received := some ([65], sentSubmit
      { mode := .nonblocking, payload := some (.math { op := .mathAdd, a := 2, b := 3 }) }), taken }] ++
  List.replicate 6 (.thread {}) ++ [.signal] ++ leave ++
  [.deinit, .thread {}, .thread {}, .thread {}, .worker 0, .thread {}, .thread {}, .thread {}]

/-- The job is left in the queue. Its client has been answered, or the socket did not take the
second frame of the reply, and the process ends with the same code. -/
theorem shuts_down_accepted :
    (∃ p, run (step wireCodec) (start 1) (acceptedSchedule (fun _ => true) [.test]) = some p ∧
      p.main = .returned ecSuccess ∧ p.server.mAlgoRunner.jobQueue = [0] ∧
      List.Forall₂ (Due.Met wireCodec) [⟨[65], 1, .submit⟩] p.server.sent) ∧
    ∃ p, run (step wireCodec) (start 1) (acceptedSchedule (fun st => decide (st ≠ .sendBody)) []) =
        some p ∧ p.main = .returned ecSuccess ∧ p.server.mAlgoRunner.jobQueue = [0] ∧
      p.Closed wireCodec
        ((acceptedSchedule (fun st => decide (st ≠ .sendBody)) []).filterMap Label.arrival) ∧
      p.server.sent = [] := by
  have hclosed : ∀ (taken : Serving.Statement → Bool) (leave : List Label) (p : Process),
      run (step wireCodec) (start 1) (acceptedSchedule taken leave) = some p →
      p.main = .returned ecSuccess →
        p.Closed wireCodec ((acceptedSchedule taken leave).filterMap Label.arrival) := by
    intro taken leave p hp hmain
    refine (((shuts_down wireCodec wireCodec_lawful 1 _ p hp).2.1 ecSuccess hmain).2).resolve_right ?_
    rintro ⟨hnone, -⟩
    simp [acceptedSchedule, Label.arrival, Serving.Turn.takes, Serving.Turn.passes] at hnone
  constructor
  · obtain ⟨p, hp, htest⟩ := exists_of_run_any (step wireCodec) (start 1)
      (acceptedSchedule (fun _ => true) [.test])
      (fun p => p.main = .returned ecSuccess ∧ p.server.mAlgoRunner.jobQueue = [0])
      (by decide +kernel)
    simp only [decide_eq_true_eq] at htest
    have howed : owed wireCodec [] ((acceptedSchedule (fun _ => true) [.test]).filterMap
        Label.arrival) = [⟨[65], 1, .submit⟩] := by decide +kernel
    exact ⟨p, hp, htest.1, htest.2, howed ▸ (hclosed _ _ p hp htest.1).replied.sent⟩
  · obtain ⟨p, hp, htest⟩ := exists_of_run_any (step wireCodec) (start 1)
      (acceptedSchedule (fun st => decide (st ≠ .sendBody)) [])
      (fun p => p.main = .returned ecSuccess ∧ p.server.mAlgoRunner.jobQueue = [0] ∧
        p.server.sent = []) (by decide +kernel)
    simp only [decide_eq_true_eq] at htest
    exact ⟨p, hp, htest.1, htest.2.1, hclosed _ _ p hp htest.1, htest.2.2⟩

end Process

end InterProcess
