import InterProcess.Runner.Store
import InterProcess.Runner.Wakeup

/-!
# Progress of a call

A call of `run` or `get` cannot be stopped for good. It waits for `qMtx` only while a
worker owns it, and that worker gives it up in at most two steps; the wait for a job to
be done is a timed one. So from every reachable state there are steps of the thread and
of one worker at a time that bring the call to its end, or to an undefined division.
-/

namespace InterProcess

open Transition

/-- A bound on the steps that are left of a call of `run` or `get`; zero outside. -/
def CallerPc.distance : CallerPc → ℕ
  | .ran _ _ | .got _ _ => 1
  | .erase _ _ | .signal _ _ _ => 2
  | .noWait _ _ | .waitUpTo _ _ true | .push _ _ _ => 3
  | .cvBlocked _ _ | .cvNotified _ _ | .lockQueue _ _ _ => 4
  | .waitUpTo _ _ false | .insert _ _ _ => 5
  | .find _ | .run _ => 6
  | .idle | .stopTest | .stopStore | .stopBroadcast | .join _ | .stopped => 0

namespace Pool

variable {p p' : Pool}

/-- The owner of `qMtx` is in the part that it guards, and a worker that is about to take
a job will find one. -/
structure Held (p : Pool) : Prop where
  worker : ∀ i, p.qMtx = some (.worker i) → ∃ pc, p.WorkerAt i pc ∧ pc.owns = true
  caller : ∀ c, p.qMtx = some (.caller c) → (p.callers c).owns = true
  ready : ∀ i, p.WorkerAt i .exitTest → p.running = true → p.jobQueue ≠ []

theorem held_start (n : ℕ) : (start n).Held where
  worker i h := by cases h
  caller c h := by cases h
  ready i h := by
    have := List.mem_of_getElem? h
    simp [start] at this

theorem Held.moveCaller (h : p.Held) {c : ℕ} {pc : CallerPc}
    (hcallers : p'.callers = Function.update p.callers c pc)
    (hown : p'.qMtx = some (.caller c) → pc.owns = true)
    (hkeep : ∀ o, o ≠ .caller c → p'.qMtx = some o → p.qMtx = some o)
    (hworkers : ∀ i old, p.WorkerAt i old → old.owns = true → p'.WorkerAt i old)
    (hback : ∀ i, p'.WorkerAt i .exitTest → p.WorkerAt i .exitTest)
    (hqueue : p'.running = true → p.running = true ∧ (p.jobQueue ≠ [] → p'.jobQueue ≠ [])) :
    p'.Held where
  worker i hi := by
    obtain ⟨pc', hpc', howns⟩ := h.worker i (hkeep _ (by simp) hi)
    exact ⟨pc', hworkers i pc' hpc' howns, howns⟩
  caller d hd := by
    rw [hcallers, Function.update_apply]
    split
    · next heq => exact hown (heq ▸ hd)
    · next hne => exact h.caller d (hkeep _ (by simpa using hne) hd)
  ready i hi hrun := by
    obtain ⟨hrun', hne⟩ := hqueue hrun
    exact hne (h.ready i (hback i hi) hrun')

theorem Held.moveWorker (h : p.Held) {i : ℕ} {old pc : WorkerPc} (hold : p.WorkerAt i old)
    (hworkers : p'.workers = p.workers.set i pc)
    (hcallers : ∀ c, (p'.callers c).owns = (p.callers c).owns)
    (hown : p'.qMtx = some (.worker i) → pc.owns = true)
    (hkeep : ∀ o, o ≠ .worker i → p'.qMtx = some o → p.qMtx = some o)
    (hrunning : p'.running = p.running)
    (hready : pc = .exitTest → p.running = true → p'.jobQueue ≠ [])
    (hqueue : ∀ j, j ≠ i → p.WorkerAt j .exitTest → p.jobQueue ≠ [] → p'.jobQueue ≠ []) :
    p'.Held where
  worker j hj := by
    by_cases hji : j = i
    · subst hji
      exact ⟨pc, hold.moved hworkers, hown hj⟩
    · obtain ⟨pc', hpc', howns⟩ := h.worker j (hkeep _ (by simpa using hji) hj)
      exact ⟨pc', hpc'.stays hworkers (Ne.symm hji), howns⟩
  caller c hc := by
    rw [hcallers]
    exact h.caller c (hkeep _ (by simp) hc)
  ready j hj hrun := by
    rw [WorkerAt, hworkers] at hj
    rcases workerAt_set_cases hj with ⟨-, hpc⟩ | ⟨hne, hold'⟩
    · exact hready hpc (hrunning ▸ hrun)
    · exact hqueue j (Ne.symm hne) hold' (h.ready j hold' (hrunning ▸ hrun))

theorem held_workerStep (h : p.Held) (hl : p.Locked) {i : ℕ} (hw : WorkerStep p i p') : p'.Held := by
  have hsame : ∀ o, o ≠ Owner.worker i → p.qMtx = some o → p.qMtx = some o := fun _ _ ho => ho
  have hqueue : ∀ j, j ≠ i → p.WorkerAt j .exitTest → p.jobQueue ≠ [] → p.jobQueue ≠ [] :=
    fun _ _ _ hne => hne
  -- a worker that does not own the mutex is not recorded as its owner
  have hother : ∀ pc : WorkerPc, p.WorkerAt i pc → pc.owns = false → p.qMtx ≠ some (.worker i) := by
    intro pc hpc hout howner
    obtain ⟨pc', hpc', howns⟩ := h.worker i howner
    obtain rfl : pc = pc' := hpc.unique hpc'
    rw [hout] at howns
    cases howns
  cases hw with
  | loopTest hpc =>
      refine h.moveWorker hpc rfl (fun _ => rfl) (fun ho => absurd ho (hother _ hpc rfl)) hsame rfl ?_
        hqueue
      split <;> simp
  | acquire hpc hfree =>
      obtain ⟨old, hold⟩ : ∃ old, p.WorkerAt i old := hpc.elim (fun h => ⟨_, h⟩) fun h => ⟨_, h⟩
      refine h.moveWorker hold rfl (fun _ => rfl) (fun _ => rfl) ?_ rfl (by simp) hqueue
      intro o hne ho
      exact absurd (Option.some.inj ho).symm hne
  | wait hpc =>
      exact h.moveWorker hpc rfl (fun _ => rfl) (fun _ => rfl) hsame rfl (by simp) hqueue
  | leaveWait hpc hgo =>
      refine h.moveWorker hpc rfl (fun _ => rfl) (fun _ => rfl) hsame rfl ?_ hqueue
      intro _ hrun
      exact hgo.resolve_left (by simp [hrun])
  | enterWait hpc | exit hpc =>
      exact h.moveWorker hpc rfl (fun _ => rfl) (by simp) (by simp) rfl (by simp) hqueue
  | take hpc job rest hjobs =>
      refine h.moveWorker hpc rfl (fun _ => rfl) (by simp) (by simp) rfl (by simp) ?_
      -- nobody else is in the guarded part
      intro j hne hj
      have howner := (hl.worker j _ hj rfl).symm.trans (hl.worker i _ hpc rfl)
      simp [hne] at howner
  | trap => exact ⟨h.worker, h.caller, h.ready⟩
  | spurious hpc | evaluate _ hpc | publish _ _ _ hpc =>
      exact h.moveWorker hpc rfl (fun _ => rfl) (fun ho => absurd ho (hother _ hpc rfl)) hsame rfl
        (by simp) hqueue
  | notify job hpc =>
      exact h.moveWorker hpc rfl (fun c => owns_notified job (p.callers c))
        (fun ho => absurd ho (hother _ hpc rfl)) hsame rfl (by simp) hqueue

theorem held_callerStep (h : p.Held) {c : ℕ} {choice : Choice} (hc : CallerStep p c choice p') :
    p'.Held := by
  have hsame : ∀ o, o ≠ Owner.caller c → p.qMtx = some o → p.qMtx = some o := fun _ _ ho => ho
  have hworkers : ∀ i old, p.WorkerAt i old → old.owns = true → p.WorkerAt i old :=
    fun _ _ hold _ => hold
  have hquiet : p.running = true → p.running = true ∧ (p.jobQueue ≠ [] → p.jobQueue ≠ []) :=
    fun hrun => ⟨hrun, id⟩
  have hother : (p.callers c).owns = false → p.qMtx ≠ some (.caller c) := by
    intro hout howner
    rw [h.caller c howner] at hout
    cases hout
  -- a worker that is woken was blocked, and a blocked one owns nothing
  have hwake : ∀ (f : ℕ → Bool) i old, p.WorkerAt i old → old.owns = true →
      (if f i then old.wake else old) = old := by
    intro f i old _ howns
    cases old <;> simp_all [WorkerPc.owns, WorkerPc.wake]
  cases hc with
  | trap => exact ⟨h.worker, h.caller, h.ready⟩
  | lockQueue request id job hpc hfree =>
      refine h.moveCaller rfl (fun _ => rfl) ?_ hworkers (fun _ hi => hi) hquiet
      intro o hne ho
      exact absurd (Option.some.inj ho).symm hne
  | push request id job hpc =>
      refine h.moveCaller rfl (by simp) (by simp) hworkers (fun _ hi => hi) fun hrun => ⟨hrun, ?_⟩
      simp
  | signal request id job hpc =>
      refine h.moveCaller rfl (fun ho => absurd ho (hother (by rw [hpc]; rfl))) hsame ?_ ?_ hquiet
      · intro i old hold howns
        have := hwake (fun i => decide (i ∈ choice.wake)) i old hold howns
        simp only [decide_eq_true_eq] at this
        simp [WorkerAt, hold, this]
      · intro i hi
        obtain ⟨old, hold, hback⟩ : ∃ old, p.WorkerAt i old ∧
            (if i ∈ choice.wake then old.wake else old) = .exitTest := by
          simpa [WorkerAt] using hi
        obtain rfl : old = .exitTest := by
          split at hback
          · cases old <;> simp_all [WorkerPc.wake]
          · exact hback
        exact hold
  | stopBroadcast hpc =>
      refine h.moveCaller rfl (fun ho => absurd ho (hother (by rw [hpc]; rfl))) hsame ?_ ?_ hquiet
      · intro i old hold howns
        have : old.wake = old := hwake (fun _ => true) i old hold howns
        simp [WorkerAt, hold, this]
      · intro i hi
        obtain ⟨old, hold, hback⟩ : ∃ old, p.WorkerAt i old ∧ old.wake = .exitTest := by
          simpa [WorkerAt] using hi
        obtain rfl : old = .exitTest := by cases old <;> simp_all [WorkerPc.wake]
        exact hold
  | stopStore hpc =>
      exact h.moveCaller rfl (fun ho => absurd ho (hother (by rw [hpc]; rfl))) hsame hworkers
        (fun _ hi => hi) (by rintro ⟨⟩)
  | notFinished _ _ hpc | wake _ _ hpc =>
      refine h.moveCaller rfl (fun ho => absurd ho (hother ?_)) hsame hworkers (fun _ hi => hi) hquiet
      rcases hpc with hpc | hpc <;> rw [hpc] <;> rfl
  | consume _ _ hpc =>
      refine h.moveCaller rfl (fun ho => absurd ho (hother ?_)) hsame hworkers (fun _ hi => hi) hquiet
      rcases hpc with hpc | ⟨_, hpc⟩ <;> rw [hpc] <;> rfl
  | blocking _ hpc | refuse _ hpc | enqueue _ hpc | insert _ _ _ hpc | ran _ _ hpc | findNone _ hpc
  | findNoWait _ hpc | findWaitUpTo _ hpc | findBadMode _ hpc | block _ _ hpc | erase _ _ hpc
  | got _ _ hpc | stopTest hpc | join _ hpc | joined _ hpc | stopped hpc =>
      exact h.moveCaller rfl (fun ho => absurd ho (hother (by rw [hpc]; rfl))) hsame hworkers
        (fun _ hi => hi) hquiet

/-- What holds of every reachable pool and lets a call go on. -/
structure Sturdy (p : Pool) : Prop where
  locked : p.Locked
  held : p.Held
  ticketed : p.Ticketed

theorem sturdy_start (n : ℕ) : (start n).Sturdy := ⟨locked_start n, held_start n, ticketed_start n⟩

theorem sturdy_step (p : Pool) (l : Label) (p' : Pool) (h : p.Sturdy) (hs : p.step l = some p') :
    p'.Sturdy := by
  refine ⟨locked_step p l p' h.locked hs, ?_, ticketed_step p l p' h.ticketed hs⟩
  obtain ⟨-, hs⟩ := step_cases hs
  cases hs with
  | run c _ hidle | get c _ hidle | deinit c hidle =>
      refine h.held.moveCaller rfl (fun ho => ?_) (fun _ _ ho => ho) (fun _ _ hold _ => hold)
        (fun _ hi => hi) fun hrun => ⟨hrun, id⟩
      have howns := h.held.caller c ho
      rw [hidle] at howns
      cases howns
  | caller c choice hc => exact held_callerStep h.held hc
  | worker i hw => exact held_workerStep h.held h.locked hw

theorem release_next (h : p.Sturdy) (halive : p.trapped = false) {i : ℕ} {pc : WorkerPc}
    (hpc : p.WorkerAt i pc) (htested : pc = .enterWait ∨ pc = .exitTest) :
    ∃ q, p.step (.worker i) = some q ∧ q.qMtx = none ∧ q.callers = p.callers ∧
      q.trapped = false := by
  rcases htested with rfl | rfl
  · have hstep : p.step (.worker i) = some (setWorker { p with qMtx := none } i .blocked) := by
      simp [step, halive, workerStep, hpc]
    exact ⟨_, hstep, rfl, rfl, halive⟩
  · cases hqueue : p.jobQueue with
    | nil =>
        have hrun : p.running = false := by
          by_contra hrun
          exact h.held.ready i hpc (by simpa using hrun) hqueue
        have hstep : p.step (.worker i) = some (setWorker { p with qMtx := none } i .exited) := by
          simp [step, halive, workerStep, hpc, hqueue, hrun]
        exact ⟨_, hstep, rfl, rfl, halive⟩
    | cons job rest =>
        have hstep : p.step (.worker i) = some ((setWorker
            { p with qMtx := none, jobQueue := rest } i (.evaluate job)).emit (.taken i job)) := by
          simp [step, halive, workerStep, hpc, hqueue]
        exact ⟨_, hstep, rfl, rfl, halive⟩

/-- The worker that owns the mutex can give it up. -/
theorem release (h : p.Sturdy) (halive : p.trapped = false) {i : ℕ}
    (howner : p.qMtx = some (.worker i)) :
    ∃ k q, run step p (List.replicate k (.worker i)) = some q ∧ q.qMtx = none ∧
      q.callers = p.callers ∧ q.trapped = false := by
  obtain ⟨pc, hpc, howns⟩ := h.held.worker i howner
  by_cases htest : pc = .waitTest
  · subst htest
    obtain ⟨pc', htested, hq⟩ : ∃ pc', (pc' = .enterWait ∨ pc' = .exitTest) ∧
        p.step (.worker i) = some (p.setWorker i pc') := by
      refine ⟨if p.running && p.jobQueue.isEmpty then .enterWait else .exitTest, ?_, ?_⟩
      · split <;> simp
      · simp [step, halive, workerStep, hpc]
    have hpc' : (p.setWorker i pc').WorkerAt i pc' := hpc.moved rfl
    obtain ⟨q, hq', hfree⟩ := release_next (sturdy_step p _ _ h hq) halive hpc' htested
    exact ⟨2, q, by simp [List.replicate, run_cons, hq, hq'], hfree⟩
  · have htested : pc = .enterWait ∨ pc = .exitTest := by
      cases pc <;> simp_all [WorkerPc.owns]
    obtain ⟨q, hq, hfree⟩ := release_next h halive hpc htested
    exact ⟨1, q, by simp [hq], hfree⟩

theorem exists_signalOk (p : Pool) : ∃ ws, p.SignalOk ws := by
  by_cases hblocked : .blocked ∈ p.workers
  · obtain ⟨i, hi⟩ := List.mem_iff_getElem?.mp hblocked
    exact ⟨[i], by simpa [SignalOk] using hi⟩
  · exact ⟨[], by simp [SignalOk, hblocked]⟩

/-- Only thread `0` makes calls. -/
def Alone (p : Pool) : Prop := ∀ c, c ≠ 0 → p.callers c = .idle

theorem alone_step (h : p.Alone) {l : Label} (hl : l.Single) (hs : p.step l = some p') :
    p'.Alone := by
  intro d hd
  cases (step_cases hs).2 with
  | run c | get c | deinit c =>
      obtain rfl : c = 0 := hl
      simpa [hd] using h d hd
  | caller c choice =>
      obtain rfl : c = 0 := hl
      exact (callers_of_caller_step hs hd).trans (h d hd)
  | worker i hw =>
      cases hw with
      | notify job => simp [h d hd, CallerPc.notified]
      | _ => exact h d hd

theorem alone_of_run {n : ℕ} {ls : List Label} (hrun : run step (start n) ls = some p)
    (hsingle : ∀ l ∈ ls, l.Single) : p.Alone := by
  have hguard : Guarded step (fun _ l => l.Single) (start n) ls := guarded_of_forall fun _ => hsingle
  refine run_invariant_of_guarded (fun p l p' halone hl hs => ?_) (fun _ _ => rfl) hguard hrun
  exact alone_step halone hl hs

/-- Every step of the thread brings its call closer to the end, if timed waits time out. -/
theorem callerStep_closer {c : ℕ} {choice : Choice} (hc : CallerStep p c choice p')
    (hcall : 0 < (p.callers c).distance) (htime : choice.timedOut = true) :
    p'.trapped = true ∨ (p'.callers c).distance < (p.callers c).distance := by
  cases hc with
  | trap => exact Or.inl rfl
  | notFinished request job hpc | wake request job hpc =>
      rcases hpc with hpc | hpc <;> exact Or.inr (by simp [hpc, htime, CallerPc.distance])
  | consume request job hpc =>
      rcases hpc with hpc | ⟨timeout, hpc⟩
      · exact Or.inr (by simp [hpc, Pool.consume, CallerPc.distance])
      · cases timeout <;> exact Or.inr (by simp [hpc, Pool.consume, CallerPc.distance])
  | stopTest hpc | stopStore hpc | stopBroadcast hpc | join _ hpc | joined _ hpc | stopped hpc =>
      rw [hpc] at hcall
      cases hcall
  | blocking _ hpc | refuse _ hpc | enqueue _ hpc | insert _ _ _ hpc | lockQueue _ _ _ hpc
  | push _ _ _ hpc | signal _ _ _ hpc | ran _ _ hpc | findNone _ hpc | findNoWait _ hpc
  | findWaitUpTo _ hpc | findBadMode _ hpc | block _ _ hpc | erase _ _ hpc | got _ _ hpc =>
      exact Or.inr (by simp [hpc, CallerPc.distance])

/-- Inside a call the thread can take a step, if it need not wait for the mutex. -/
theorem callerStep_enabled (h : p.Sturdy) {c : ℕ} (hcall : 0 < (p.callers c).distance)
    (hfree : ∀ request id job, p.callers c = .lockQueue request id job → p.qMtx = none) :
    ∃ choice p', choice.timedOut = true ∧ p.callerStep c choice = some p' := by
  obtain ⟨ws, hws⟩ := p.exists_signalOk
  suffices hsome : p.callerStep c { wake := ws, timedOut := true } ≠ none by
    obtain ⟨p', hp'⟩ := Option.ne_none_iff_exists'.mp hsome
    exact ⟨_, p', rfl, hp'⟩
  have hrecord : ∀ t job, (p.callers c).reads = some (t, job) → ∃ j, p.heap[job]? = some j := by
    intro t job hreads
    obtain ⟨j, hj, -⟩ := h.ticketed.reading c t job hreads
    exact ⟨j, hj⟩
  unfold callerStep
  cases hpc : p.callers c with
  | run request =>
      cases hmode : request.mode with
      | blocking => cases heval : runBlocking request <;> simp [hmode, heval]
      | nonblocking => cases hpayload : request.payload <;> simp [hmode, hpayload]
      | unrecognized => simp [hmode]
  | find request =>
      cases hjob : p.jobs request.reqId with
      | none => simp [hjob]
      | some job => cases hmode : request.waitMode <;> simp [hjob, hmode]
  | lockQueue request id job => simp [hfree request id job hpc]
  | signal request id job => simp [hws]
  | noWait request job =>
      obtain ⟨j, hj⟩ := hrecord _ job (by rw [hpc]; rfl)
      cases hdone : j.done <;> simp [hj, hdone]
  | waitUpTo request job timeout =>
      obtain ⟨j, hj⟩ := hrecord _ job (by rw [hpc]; rfl)
      cases hdone : j.done <;> cases timeout <;> simp [hj, hdone]
  | idle | stopTest | stopStore | stopBroadcast | join | stopped =>
      rw [hpc] at hcall
      cases hcall
  | _ => simp

/-- From every reachable pool in which only thread `c` is inside a call, steps of a worker
and then one of the thread bring the call closer to its end. -/
theorem exists_closer {c : ℕ} (h : p.Sturdy) (halone : ∀ d, d ≠ c → p.callers d = .idle)
    (halive : p.trapped = false) (hcall : 0 < (p.callers c).distance) :
    ∃ i k q choice p', run step p (List.replicate k (.worker i)) = some q ∧
      q.callers = p.callers ∧ q.trapped = false ∧ q.step (.caller c choice) = some p' ∧
        (p'.trapped = true ∨ (p'.callers c).distance < (p.callers c).distance) := by
  obtain ⟨i, k, q, hq, hcallers, htrapped, hfree⟩ : ∃ i k q,
      run step p (List.replicate k (.worker i)) = some q ∧ q.callers = p.callers ∧
        q.trapped = false ∧ ∀ request id job, p.callers c = .lockQueue request id job → q.qMtx = none := by
    cases howner : p.qMtx with
    | none => exact ⟨0, 0, p, rfl, rfl, halive, fun _ _ _ _ => howner⟩
    | some owner =>
        cases owner with
        | worker i =>
            obtain ⟨k, q, hq, hfree, hcallers, htrapped⟩ := release h halive howner
            exact ⟨i, k, q, hq, hcallers, htrapped, fun _ _ _ _ => hfree⟩
        | caller d =>
            -- the owner is the thread itself, which is not at the lock then
            refine ⟨0, 0, p, rfl, rfl, halive, fun request id job hpc => ?_⟩
            have howns := h.held.caller d howner
            by_cases hd : d = c
            · rw [hd, hpc] at howns
              cases howns
            · rw [halone d hd] at howns
              cases howns
  have hsturdy : q.Sturdy := run_invariant sturdy_step h hq
  rw [← hcallers] at hcall hfree
  obtain ⟨choice, p', htime, hp'⟩ := callerStep_enabled hsturdy hcall hfree
  refine ⟨i, k, q, choice, p', hq, hcallers, htrapped, by simp [step, htrapped, hp'], ?_⟩
  rw [← hcallers]
  exact callerStep_closer (callerStep_cases hp') hcall htime

end Pool

end InterProcess
