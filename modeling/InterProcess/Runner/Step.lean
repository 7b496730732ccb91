import InterProcess.Runner.Pool

/-!
# What a step of the pool can do

`Pool.Step p l p'` lists the steps of the pool, one constructor for each way a
step can go, with the test that was taken as a hypothesis and the new state
written out. `Pool.step_cases` is the inversion of `Pool.step`; everything proved
about the pool goes through it instead of unfolding the step function.
-/

namespace InterProcess

/-- Whatever does not tell a blocked thread from a notified one is the same after a
broadcast. -/
theorem CallerPc.notified_congr {α : Type*} (f : CallerPc → α)
    (h : ∀ request job, f (.cvNotified request job) = f (.cvBlocked request job)) (job : JobRef)
    (pc : CallerPc) : f (pc.notified job) = f pc := by
  cases pc with
  | cvBlocked request j =>
      simp only [notified]
      split
      · exact h request j
      · rfl
  | _ => rfl

namespace Pool

theorem setCaller_callers_eq_iff {p : Pool} {c d : ℕ} {pc pc' : CallerPc} :
    (p.setCaller c pc).callers d = pc' ↔
      (d = c ∧ pc = pc') ∨ (d ≠ c ∧ p.callers d = pc') := by
  rw [setCaller_callers, Function.update_apply]
  by_cases h : d = c <;> simp [h]

section Workers

variable {p p' : Pool} {i j : ℕ} {old pc pc' : WorkerPc}

theorem WorkerAt.lt (h : p.WorkerAt i pc) : i < p.workers.length :=
  (List.getElem?_eq_some_iff.mp h).1

theorem WorkerAt.unique (h : p.WorkerAt i pc) (h' : p.WorkerAt i pc') : pc = pc' :=
  Option.some.inj (h.symm.trans h')

theorem WorkerAt.moved (hold : p.WorkerAt i old) (hworkers : p'.workers = p.workers.set i pc) :
    p'.WorkerAt i pc := by
  rw [WorkerAt, hworkers]
  exact List.getElem?_set_self hold.lt

theorem WorkerAt.stays (h : p.WorkerAt j pc') (hworkers : p'.workers = p.workers.set i pc)
    (hij : i ≠ j) : p'.WorkerAt j pc' := by
  rw [WorkerAt, hworkers, List.getElem?_set_ne hij]
  exact h

theorem workerAt_set_cases {workers : List WorkerPc}
    (h : (workers.set i pc)[j]? = some pc') :
    (i = j ∧ pc = pc') ∨ (i ≠ j ∧ workers[j]? = some pc') := by
  rw [List.getElem?_set] at h
  split at h
  · next heq =>
      split at h
      · exact Or.inl ⟨heq, Option.some.inj h⟩
      · cases h
  · next hne => exact Or.inr ⟨hne, h⟩

end Workers

section Records

variable {heap : List Job} {job r : JobRef} {f : Job → Job} {j : Job}

theorem record_modify_cases (h : (heap.modify job f)[r]? = some j) :
    ∃ j₀, heap[r]? = some j₀ ∧ ((job = r ∧ j = f j₀) ∨ (job ≠ r ∧ j = j₀)) := by
  rw [List.getElem?_modify] at h
  obtain ⟨j₀, hj₀, rfl⟩ := Option.map_eq_some_iff.mp h
  refine ⟨j₀, hj₀, ?_⟩
  split
  · next heq => exact Or.inl ⟨heq, rfl⟩
  · next hne => exact Or.inr ⟨hne, rfl⟩

theorem forall_req_modify {P : SubmitRequest → Prop} (h : ∀ j ∈ heap, P j.req) (job : JobRef)
    (hf : ∀ j, (f j).req = j.req) : ∀ j ∈ heap.modify job f, P j.req := by
  intro j hj
  obtain ⟨r, hr⟩ := List.mem_iff_getElem?.mp hj
  obtain ⟨j₀, hj₀, ⟨-, rfl⟩ | ⟨-, rfl⟩⟩ := record_modify_cases hr
  · rw [hf]
    exact h j₀ (List.mem_of_getElem? hj₀)
  · exact h _ (List.mem_of_getElem? hj₀)

end Records

inductive WorkerStep (p : Pool) (i : ℕ) : Pool → Prop
  | loopTest (hpc : p.workers[i]? = some .loopTest) :
      WorkerStep p i (p.setWorker i (if p.running then .lock else .exited))
  | acquire (hpc : p.workers[i]? = some .lock ∨ p.workers[i]? = some .woken)
      (hfree : p.qMtx = none) :
      WorkerStep p i (setWorker { p with qMtx := some (.worker i) } i .waitTest)
  | wait (hpc : p.workers[i]? = some .waitTest) (hrun : p.running = true)
      (hempty : p.jobQueue = []) : WorkerStep p i (p.setWorker i .enterWait)
  | leaveWait (hpc : p.workers[i]? = some .waitTest)
      (hgo : p.running = false ∨ p.jobQueue ≠ []) :
      WorkerStep p i (p.setWorker i .exitTest)
  | enterWait (hpc : p.workers[i]? = some .enterWait) :
      WorkerStep p i (setWorker { p with qMtx := none } i .blocked)
  | spurious (hpc : p.workers[i]? = some .blocked) : WorkerStep p i (p.setWorker i .woken)
  | exit (hpc : p.workers[i]? = some .exitTest) (hrun : p.running = false)
      (hempty : p.jobQueue = []) :
      WorkerStep p i (setWorker { p with qMtx := none } i .exited)
  | take (hpc : p.workers[i]? = some .exitTest) (job : JobRef) (rest : List JobRef)
      (hqueue : p.jobQueue = job :: rest) :
      WorkerStep p i ((setWorker { p with qMtx := none, jobQueue := rest } i
        (.evaluate job)).emit (.taken i job))
  | evaluate (job : JobRef) (hpc : p.workers[i]? = some (.evaluate job)) (j : Job)
      (hj : p.heap[job]? = some j) (status : Status) (result : Result)
      (heval : InterProcess.evaluate j.req = some (status, result)) :
      WorkerStep p i ((p.setWorker i (.publish job status result)).emit (.evaluated i job))
  | trap (job : JobRef) (hpc : p.workers[i]? = some (.evaluate job)) (j : Job)
      (hj : p.heap[job]? = some j) (heval : InterProcess.evaluate j.req = none) :
      WorkerStep p i { p with trapped := true }
  | publish (job : JobRef) (status : Status) (result : Result)
      (hpc : p.workers[i]? = some (.publish job status result)) :
      WorkerStep p i (((p.publish job status result).setWorker i (.notify job)).emit
        (.published job))
  | notify (job : JobRef) (hpc : p.workers[i]? = some (.notify job)) :
      WorkerStep p i (setWorker
        { p with callers := fun c => (p.callers c).notified job } i .loopTest)

inductive CallerStep (p : Pool) (c : ℕ) (choice : Choice) : Pool → Prop
  | blocking (request : SubmitRequest) (hpc : p.callers c = .run request)
      (hmode : request.mode = .blocking) (response : SubmitResponse)
      (heval : runBlocking request = some response) :
      CallerStep p c choice (p.setCaller c (.ran request response))
  | trap (request : SubmitRequest) (hpc : p.callers c = .run request)
      (hmode : request.mode = .blocking) (heval : runBlocking request = none) :
      CallerStep p c choice { p with trapped := true }
  | refuse (request : SubmitRequest) (hpc : p.callers c = .run request)
      (hmode : request.mode ≠ .blocking)
      (hbad : request.mode = .nonblocking → request.payload = none) :
      CallerStep p c choice
        (p.setCaller c (.ran request { status := .stErrorInvalidInput }))
  | enqueue (request : SubmitRequest) (hpc : p.callers c = .run request)
      (hmode : request.mode = .nonblocking) (hpayload : request.payload ≠ none) :
      CallerStep p c choice
        (((p.allocate request (ticketId choice.reading p.seq)).setCaller c
          (.insert request (ticketId choice.reading p.seq) p.heap.length)).emit
            (.enqueued choice.reading))
  | insert (request : SubmitRequest) (id : UInt64) (job : JobRef)
      (hpc : p.callers c = .insert request id job) :
      CallerStep p c choice
        (setCaller { p with jobs := p.jobs.insert id job } c (.lockQueue request id job))
  | lockQueue (request : SubmitRequest) (id : UInt64) (job : JobRef)
      (hpc : p.callers c = .lockQueue request id job) (hfree : p.qMtx = none) :
      CallerStep p c choice
        (setCaller { p with qMtx := some (.caller c) } c (.push request id job))
  | push (request : SubmitRequest) (id : UInt64) (job : JobRef)
      (hpc : p.callers c = .push request id job) :
      CallerStep p c choice
        ((setCaller { p with qMtx := none, jobQueue := p.jobQueue ++ [job] } c
          (.signal request id job)).emit (.pushed job))
  | signal (request : SubmitRequest) (id : UInt64) (job : JobRef)
      (hpc : p.callers c = .signal request id job) (hok : p.SignalOk choice.wake) :
      CallerStep p c choice
        ((p.signalled choice.wake).setCaller c
          (.ran request { status := .stNotFinished, ticket := some { reqId := id } }))
  | ran (request : SubmitRequest) (response : SubmitResponse)
      (hpc : p.callers c = .ran request response) :
      CallerStep p c choice ((p.setCaller c .idle).emit (.ran c request response))
  | findNone (request : GetRequest) (hpc : p.callers c = .find request)
      (hjob : p.jobs request.reqId = none) :
      CallerStep p c choice
        (p.setCaller c (.got request { status := .stErrorInvalidInput }))
  | findNoWait (request : GetRequest) (hpc : p.callers c = .find request) (job : JobRef)
      (hjob : p.jobs request.reqId = some job) (hmode : request.waitMode = .noWait) :
      CallerStep p c choice (p.setCaller c (.noWait request job))
  | findWaitUpTo (request : GetRequest) (hpc : p.callers c = .find request) (job : JobRef)
      (hjob : p.jobs request.reqId = some job) (hmode : request.waitMode = .waitUpTo) :
      CallerStep p c choice (p.setCaller c (.waitUpTo request job false))
  | findBadMode (request : GetRequest) (hpc : p.callers c = .find request) (job : JobRef)
      (hjob : p.jobs request.reqId = some job) (hno : request.waitMode ≠ .noWait)
      (hwait : request.waitMode ≠ .waitUpTo) :
      CallerStep p c choice
        (p.setCaller c (.got request { status := .stErrorInvalidInput }))
  | notFinished (request : GetRequest) (job : JobRef)
      (hpc : p.callers c = .noWait request job ∨ p.callers c = .waitUpTo request job true)
      (j : Job) (hj : p.heap[job]? = some j) (hdone : j.done = false) :
      CallerStep p c choice (p.setCaller c (.got request { status := .stNotFinished }))
  | block (request : GetRequest) (job : JobRef)
      (hpc : p.callers c = .waitUpTo request job false)
      (j : Job) (hj : p.heap[job]? = some j) (hdone : j.done = false) :
      CallerStep p c choice (p.setCaller c (.cvBlocked request job))
  | consume (request : GetRequest) (job : JobRef)
      (hpc : p.callers c = .noWait request job ∨
        ∃ timeout, p.callers c = .waitUpTo request job timeout)
      (j : Job) (hj : p.heap[job]? = some j) (hdone : j.done = true) :
      CallerStep p c choice (p.consume c request job j)
  | wake (request : GetRequest) (job : JobRef)
      (hpc : p.callers c = .cvBlocked request job ∨ p.callers c = .cvNotified request job) :
      CallerStep p c choice (p.setCaller c (.waitUpTo request job choice.timedOut))
  | erase (request : GetRequest) (response : GetResponse)
      (hpc : p.callers c = .erase request response) :
      CallerStep p c choice
        (setCaller { p with jobs := p.jobs.erase request.reqId } c (.got request response))
  | got (request : GetRequest) (response : GetResponse)
      (hpc : p.callers c = .got request response) :
      CallerStep p c choice ((p.setCaller c .idle).emit (.got c request response))
  | stopTest (hpc : p.callers c = .stopTest) :
      CallerStep p c choice (p.setCaller c (if p.running then .stopStore else .stopped))
  | stopStore (hpc : p.callers c = .stopStore) :
      CallerStep p c choice (setCaller { p with running := false } c .stopBroadcast)
  | stopBroadcast (hpc : p.callers c = .stopBroadcast) :
      CallerStep p c choice
        (setCaller { p with workers := p.workers.map WorkerPc.wake } c (.join 0))
  | join (i : ℕ) (hpc : p.callers c = .join i) (hexit : p.workers[i]? = some .exited) :
      CallerStep p c choice (p.setCaller c (.join (i + 1)))
  | joined (i : ℕ) (hpc : p.callers c = .join i) (hlen : p.workers[i]? = none) :
      CallerStep p c choice (p.setCaller c .stopped)
  | stopped (hpc : p.callers c = .stopped) : CallerStep p c choice (p.setCaller c .idle)

inductive Step (p : Pool) : Label → Pool → Prop
  | run (c : ℕ) (request : SubmitRequest) (hidle : p.callers c = .idle) :
      Step p (.run c request) (p.setCaller c (.run request))
  | get (c : ℕ) (request : GetRequest) (hidle : p.callers c = .idle) :
      Step p (.get c request) (p.setCaller c (.find request))
  | deinit (c : ℕ) (hidle : p.callers c = .idle) :
      Step p (.deinit c) (p.setCaller c .stopTest)
  | caller {p' : Pool} (c : ℕ) (choice : Choice) (h : CallerStep p c choice p') :
      Step p (.caller c choice) p'
  | worker {p' : Pool} (i : ℕ) (h : WorkerStep p i p') : Step p (.worker i) p'

theorem workerStep_cases {p p' : Pool} {i : ℕ} (h : p.workerStep i = some p') :
    WorkerStep p i p' := by
  unfold workerStep at h
  split at h
  · cases h
  · next hpc => cases h; exact .loopTest hpc
  · next hpc =>
      split at h
      · next hfree => cases h; exact .acquire (Or.inl hpc) hfree
      · cases h
  · next hpc =>
      split at h
      · next hfree => cases h; exact .acquire (Or.inr hpc) hfree
      · cases h
  · next hpc =>
      cases h
      by_cases hwait : p.running = true ∧ p.jobQueue = []
      · simpa [hwait.1, hwait.2] using WorkerStep.wait hpc hwait.1 hwait.2
      · have hgo : p.running = false ∨ p.jobQueue ≠ [] := by
          simpa [imp_iff_not_or] using hwait
        have htest : (p.running && p.jobQueue.isEmpty) = false := by
          rcases hgo with hrun | hne
          · simp [hrun]
          · simp [hne]
        simpa [htest] using WorkerStep.leaveWait hpc hgo
  · next hpc => cases h; exact .enterWait hpc
  · next hpc => cases h; exact .spurious hpc
  · next hpc =>
      split at h
      · next hexit => cases h; exact .exit hpc hexit.1 hexit.2
      · split at h
        · cases h
        · next job rest hqueue => cases h; exact .take hpc job rest hqueue
  · next job hpc =>
      split at h
      · cases h
      · next j hj =>
          split at h
          · next heval => cases h; exact .trap job hpc j hj heval
          · next status result heval =>
              cases h
              exact .evaluate job hpc j hj status result heval
  · next job status result hpc => cases h; exact .publish job status result hpc
  · next job hpc => cases h; exact .notify job hpc
  · cases h

theorem callerStep_cases {p p' : Pool} {c : ℕ} {choice : Choice}
    (h : p.callerStep c choice = some p') : CallerStep p c choice p' := by
  unfold callerStep at h
  split at h
  · cases h
  · next request hpc =>
      split at h
      · next hmode =>
          split at h
          · next heval => cases h; exact .trap request hpc hmode heval
          · next response heval => cases h; exact .blocking request hpc hmode response heval
      · next hmode =>
          split at h
          · next hpayload =>
              cases h
              exact .refuse request hpc (by simp [hmode]) fun _ => hpayload
          · next hpayload =>
              cases h
              exact .enqueue request hpc hmode (by simp [hpayload])
      · next hmode =>
          cases h
          exact .refuse request hpc (by simp [hmode]) (by simp [hmode])
  · next request id job hpc => cases h; exact .insert request id job hpc
  · next request id job hpc =>
      split at h
      · next hfree => cases h; exact .lockQueue request id job hpc hfree
      · cases h
  · next request id job hpc => cases h; exact .push request id job hpc
  · next request id job hpc =>
      split at h
      · next hok => cases h; exact .signal request id job hpc hok
      · cases h
  · next request response hpc => cases h; exact .ran request response hpc
  · next request hpc =>
      split at h
      · next hjob => cases h; exact .findNone request hpc hjob
      · next job hjob =>
          split at h
          · next hmode => cases h; exact .findNoWait request hpc job hjob hmode
          · next hmode => cases h; exact .findWaitUpTo request hpc job hjob hmode
          · next hmode =>
              cases h
              exact .findBadMode request hpc job hjob (by simp [hmode]) (by simp [hmode])
  · next request job hpc =>
      split at h
      · cases h
      · next j hj =>
          split at h
          · next hdone => cases h; exact .notFinished request job (Or.inl hpc) j hj hdone
          · next hdone =>
              cases h
              exact .consume request job (Or.inl hpc) j hj (by simpa using hdone)
  · next request job timeout hpc =>
      split at h
      · cases h
      · next j hj =>
          split at h
          · next hdone =>
              split at h
              · next htime =>
                  cases h
                  exact .block request job (htime ▸ hpc) j hj hdone
              · next htime =>
                  have htrue : timeout = true := by simpa using htime
                  cases h
                  exact .notFinished request job (Or.inr (htrue ▸ hpc)) j hj hdone
          · next hdone =>
              cases h
              exact .consume request job (Or.inr ⟨timeout, hpc⟩) j hj (by simpa using hdone)
  · next request job hpc => cases h; exact .wake request job (Or.inl hpc)
  · next request job hpc => cases h; exact .wake request job (Or.inr hpc)
  · next request response hpc => cases h; exact .erase request response hpc
  · next request response hpc => cases h; exact .got request response hpc
  · next hpc => cases h; exact .stopTest hpc
  · next hpc => cases h; exact .stopStore hpc
  · next hpc => cases h; exact .stopBroadcast hpc
  · next i hpc =>
      split at h
      · next hexit => cases h; exact .join i hpc hexit
      · cases h
      · next hlen => cases h; exact .joined i hpc hlen
  · next hpc => cases h; exact .stopped hpc

theorem enter_eq_some {p p' : Pool} {c : ℕ} {pc : CallerPc} (h : p.enter c pc = some p') :
    p.callers c = .idle ∧ p' = p.setCaller c pc := by
  unfold enter at h
  split at h
  · next hidle => exact ⟨hidle, (Option.some.inj h).symm⟩
  · cases h

/-- The inversion of `Pool.step`. -/
theorem step_cases {p p' : Pool} {l : Label} (h : p.step l = some p') :
    p.trapped = false ∧ Step p l p' := by
  unfold step at h
  split at h
  · cases h
  · next htrap =>
      refine ⟨by simpa using htrap, ?_⟩
      cases l with
      | run c request =>
          obtain ⟨hidle, rfl⟩ := enter_eq_some h
          exact .run c request hidle
      | get c request =>
          obtain ⟨hidle, rfl⟩ := enter_eq_some h
          exact .get c request hidle
      | deinit c =>
          obtain ⟨hidle, rfl⟩ := enter_eq_some h
          exact .deinit c hidle
      | caller c choice => exact .caller c choice (callerStep_cases h)
      | worker i => exact .worker i (workerStep_cases h)

end Pool

def CallerPc.req : CallerPc → Option ReqCase
  | .run r | .insert r _ _ | .lockQueue r _ _ | .push r _ _ | .signal r _ _ | .ran r _ =>
      some (.submit r)
  | .find r | .noWait r _ | .waitUpTo r _ _ | .cvBlocked r _ | .cvNotified r _ | .erase r _
  | .got r _ => some (.get r)
  | .idle | .stopTest | .stopStore | .stopBroadcast | .join _ | .stopped => none

theorem CallerPc.req_notified (job : JobRef) (pc : CallerPc) :
    (pc.notified job).req = pc.req :=
  notified_congr req (fun _ _ => rfl) job pc

namespace Pool

theorem req_of_caller_step {p p' : Pool} {c : ℕ} {choice : Choice}
    (hs : p.step (.caller c choice) = some p')
    (hran : ∀ request response, p.callers c ≠ .ran request response)
    (hgot : ∀ request response, p.callers c ≠ .got request response) :
    (p'.callers c).req = (p.callers c).req := by
  obtain ⟨-, hs⟩ := step_cases hs
  cases hs with
  | caller _ _ hc =>
      cases hc with
      | trap => rfl
      | notFinished r job hpc | wake r job hpc =>
          rcases hpc with hpc | hpc <;> rw [hpc] <;> simp [CallerPc.req]
      | consume r job hpc =>
          rcases hpc with hpc | ⟨timeout, hpc⟩ <;> rw [hpc] <;>
            simp [Pool.consume, CallerPc.req]
      | stopTest hpc =>
          rw [hpc]
          simp only [setCaller_callers, Function.update_self]
          split <;> rfl
      | ran r response hpc => exact absurd hpc (hran r response)
      | got r response hpc => exact absurd hpc (hgot r response)
      | _ => simp_all [CallerPc.req]

theorem callers_of_caller_step {p p' : Pool} {c d : ℕ} {choice : Choice}
    (hs : p.step (.caller c choice) = some p') (hd : d ≠ c) : p'.callers d = p.callers d := by
  obtain ⟨-, hs⟩ := step_cases hs
  cases hs with
  | caller _ _ hc => cases hc <;> simp [Pool.consume, hd]

theorem idle_of_return {p p' : Pool} {c : ℕ} {choice : Choice}
    (hpc : (∃ request response, p.callers c = .ran request response) ∨
      ∃ request response, p.callers c = .got request response)
    (hs : p.step (.caller c choice) = some p') : p'.callers c = .idle := by
  obtain ⟨-, hs⟩ := step_cases hs
  rcases hpc with ⟨request, response, hpc⟩ | ⟨request, response, hpc⟩
  · cases hs with
    | caller _ _ hc => cases hc <;> simp_all
  · cases hs with
    | caller _ _ hc => cases hc <;> simp_all

theorem CallerStep.not_idle {p p' : Pool} {c : ℕ} {choice : Choice}
    (hc : CallerStep p c choice p') : p.callers c ≠ .idle := by
  intro hidle
  cases hc with
  | notFinished _ _ hpc | consume _ _ hpc | wake _ _ hpc => simp [hidle] at hpc
  | _ => simp_all only [reduceCtorEq]

theorem not_idle_of_caller_step {p p' : Pool} {c : ℕ} {choice : Choice}
    (hs : p.step (.caller c choice) = some p') : p.callers c ≠ .idle := by
  obtain ⟨-, hs⟩ := step_cases hs
  cases hs with
  | caller _ _ hc => exact hc.not_idle

theorem req_of_worker_step {p p' : Pool} {i : ℕ} (hs : p.step (.worker i) = some p') (c : ℕ) :
    (p'.callers c).req = (p.callers c).req := by
  obtain ⟨-, hs⟩ := step_cases hs
  cases hs with
  | worker _ hw =>
      cases hw with
      | notify job => exact CallerPc.req_notified job _
      | _ => rfl

end Pool

end InterProcess
