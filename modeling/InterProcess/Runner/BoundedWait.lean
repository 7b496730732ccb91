import InterProcess.Runner.Progress
import InterProcess.Runner.Record

/-!
# The bounded wait

A call of `get` with `WAIT_UP_TO` tests `job->done` under `job->m`, waits, and tests it
again when it was notified, when it timed out, and when nothing happened at all. The
worker sets `done` under the same mutex and broadcasts after it released it. `Heard` is
why no wakeup is missed: a thread that is blocked on the `cv` of a done job blocked
before the job was done, so the broadcast is still to come. What the call answers is
what its last test has read.
-/

namespace InterProcess

open Transition

/-- The job whose `done` the thread is about to test in the `WAIT_UP_TO` branch. -/
def CallerPc.tests : CallerPc → Option JobRef
  | .waitUpTo _ job _ => some job
  | _ => none

/-- The step is one of a worker, or one inside the call of thread `c`. -/
def Label.Within (c : ℕ) : Label → Prop
  | .worker _ => True
  | .caller d _ => d = c
  | .run _ _ | .get _ _ | .deinit _ => False

instance (c : ℕ) : DecidablePred (Label.Within c)
  | .worker _ => inferInstanceAs (Decidable True)
  | .caller d _ => inferInstanceAs (Decidable (d = c))
  | .run _ _ | .get _ _ | .deinit _ => inferInstanceAs (Decidable False)

namespace Pool

variable {p p' : Pool}

/-- A thread is blocked on the `cv` of a done job only until the worker that published
it has broadcast. -/
def Heard (p : Pool) : Prop :=
  ∀ c request job, p.callers c = .cvBlocked request job → p.isDone job = true →
    .notify job ∈ p.workers

theorem heard_start (n : ℕ) : (start n).Heard := by
  intro c request job hpc
  cases hpc

theorem Heard.mono (h : p.Heard)
    (hcallers : ∀ c request job, p'.callers c = .cvBlocked request job →
      p.callers c = .cvBlocked request job)
    (hdone : ∀ job, p'.isDone job = true → p.isDone job = true)
    (hworkers : ∀ job, .notify job ∈ p.workers → .notify job ∈ p'.workers) : p'.Heard := by
  intro c request job hpc hjob
  exact hworkers job (h c request job (hcallers c request job hpc) (hdone job hjob))

theorem Heard.moveCaller (h : p.Heard) {c : ℕ} {pc : CallerPc}
    (hcallers : p'.callers = Function.update p.callers c pc)
    (hpc : ∀ request job, pc ≠ .cvBlocked request job)
    (hdone : ∀ job, p'.isDone job = true → p.isDone job = true)
    (hworkers : ∀ job, .notify job ∈ p.workers → .notify job ∈ p'.workers) : p'.Heard := by
  refine h.mono (fun d request job hd => ?_) hdone hworkers
  rw [hcallers, Function.update_apply] at hd
  split at hd
  · exact absurd hd (hpc request job)
  · exact hd

theorem mem_of_moved {i : ℕ} {old pc x : WorkerPc} (hold : p.WorkerAt i old)
    (hworkers : p'.workers = p.workers.set i pc) (hx : x ∈ p.workers) (hne : x ≠ old) :
    x ∈ p'.workers := by
  obtain ⟨k, hk⟩ := List.mem_iff_getElem?.mp hx
  have hik : i ≠ k := by
    rintro rfl
    exact hne (WorkerAt.unique hk hold)
  exact List.mem_of_getElem? (WorkerAt.stays hk hworkers hik)

theorem Heard.moveWorker (h : p.Heard) {i : ℕ} {old pc : WorkerPc} (hold : p.WorkerAt i old)
    (hnot : ∀ job, old ≠ .notify job) (hcallers : p'.callers = p.callers)
    (hheap : p'.heap = p.heap) (hworkers : p'.workers = p.workers.set i pc) : p'.Heard := by
  refine h.mono (fun c request job hc => hcallers ▸ hc) (fun job hjob => ?_) fun job hjob => ?_
  · rwa [isDone, hheap] at hjob
  · exact mem_of_moved hold hworkers hjob (hnot job).symm

theorem notify_mem_signalled {job : JobRef} (h : .notify job ∈ p.workers) (ws : List ℕ) :
    .notify job ∈ (p.signalled ws).workers := by
  obtain ⟨k, hk⟩ := List.mem_iff_getElem?.mp h
  apply List.mem_of_getElem? (i := k)
  rw [signalled_workers, List.getElem?_mapIdx, hk, Option.map_some]
  split <;> rfl

theorem heard_callerStep (h : p.Heard) {c : ℕ} {choice : Choice} (hc : CallerStep p c choice p') :
    p'.Heard := by
  cases hc with
  | trap => exact h
  | block request job hpc j hj hdone =>
      -- the test and the start of the wait are one section
      intro d r k hd hk
      rcases setCaller_callers_eq_iff.mp hd with ⟨rfl, heq⟩ | ⟨-, hold⟩
      · obtain ⟨rfl, rfl⟩ : request = r ∧ job = k := by simpa using heq
        rw [isDone_eq_of_record (p := p.setCaller d (.cvBlocked request job)) hj, hdone] at hk
        cases hk
      · exact h d r k hold hk
  | enqueue request hpc =>
      refine h.moveCaller rfl (by simp) (fun job hjob => ?_) fun _ hi => hi
      rw [← isDone_allocate p request (ticketId choice.reading p.seq)]
      exact hjob
  | consume request job hpc j =>
      refine h.moveCaller rfl (by simp) (fun r hr => ?_) fun _ hi => hi
      rw [← isDone_swapOut p job]
      exact hr
  | signal request id job hpc =>
      exact h.moveCaller rfl (by simp) (fun _ hr => hr) fun _ hi => notify_mem_signalled hi _
  | stopBroadcast hpc =>
      refine h.moveCaller rfl (by simp) (fun _ hr => hr) fun job hi => ?_
      exact List.mem_map.mpr ⟨.notify job, hi, rfl⟩
  | stopTest hpc =>
      refine h.moveCaller rfl ?_ (fun _ hr => hr) fun _ hi => hi
      split <;> simp
  | _ => exact h.moveCaller rfl (by simp) (fun _ hr => hr) fun _ hi => hi

theorem heard_workerStep (h : p.Heard) {i : ℕ} (hw : WorkerStep p i p') : p'.Heard := by
  cases hw with
  | trap => exact h
  | publish job status result hpc =>
      -- whoever is blocked on this job is in front of the broadcast
      intro c request r hc hr
      by_cases hjob : job = r
      · rw [hjob] at hpc ⊢
        exact List.mem_set (WorkerAt.lt hpc) _
      · have hsame : p.isDone r = true := by
          simpa [isDone, hjob] using hr
        exact mem_of_moved hpc rfl (h c request r hc hsame) (by simp)
  | notify job hpc =>
      intro c request r hc hr
      cases hcall : p.callers c <;> simp only [setWorker_callers, hcall, CallerPc.notified] at hc
      case cvBlocked request' job' =>
        split at hc
        · cases hc
        · next hne =>
            obtain ⟨rfl, rfl⟩ : request' = request ∧ job' = r := by simpa using hc
            exact mem_of_moved hpc rfl (h c request' job' hcall hr) (by simpa using hne)
      all_goals cases hc
  | acquire hpc =>
      rcases hpc with hpc | hpc <;> exact h.moveWorker hpc (by simp) rfl rfl rfl
  | loopTest hpc | wait hpc | leaveWait hpc | enterWait hpc | spurious hpc | exit hpc | take hpc
  | evaluate _ hpc =>
      exact h.moveWorker hpc (by simp) rfl rfl rfl

theorem heard_step (p : Pool) (l : Label) (p' : Pool) (h : p.Heard) (hs : p.step l = some p') :
    p'.Heard := by
  obtain ⟨-, hs⟩ := step_cases hs
  cases hs with
  | run | get | deinit => exact h.moveCaller rfl (by simp) (fun _ hr => hr) fun _ hi => hi
  | caller c choice hc => exact heard_callerStep h hc
  | worker i hw => exact heard_workerStep h hw

/-- What thread `c` reads of `job->done` in this step, if it is its test. -/
def doneRead (p : Pool) (c : ℕ) : Label → Option Bool
  | .caller d _ => if d = c then (p.callers c).tests.map p.isDone else none
  | .run _ _ | .get _ _ | .deinit _ | .worker _ => none

/-- What the tests of thread `c` read along a run, in order. -/
def doneReads (c : ℕ) : Pool → List Label → List Bool := observed step fun p l => p.doneRead c l

/-- The response carries the status and the result of the job. -/
def Answers (p : Pool) (job : JobRef) (response : GetResponse) : Prop :=
  ∃ (j : Job) (status : Status) (result : Result), p.heap[job]? = some j ∧
    evaluate j.req = some (status, result) ∧ response = { status, result := some result }

/-- Where a call of `get` for this job is, after its tests have read `rs`. -/
def Phase (p : Pool) (request : GetRequest) (job : JobRef) (rs : List Bool) : CallerPc → Prop
  | .find r => r = request ∧ p.jobs request.reqId = some job
  | .waitUpTo r k _ | .cvBlocked r k | .cvNotified r k =>
      r = request ∧ k = job ∧ p.jobs request.reqId = some job
  | .erase r response => r = request ∧ rs.getLast? = some true ∧ p.Answers job response
  | .got r response => r = request ∧
      ((rs.getLast? = some false ∧ response = { status := .stNotFinished } ∧
          p.jobs request.reqId = some job) ∨
        (rs.getLast? = some true ∧ p.Answers job response ∧ p.jobs request.reqId = none))
  | .idle => True
  | _ => False

/-- Thread `c` is in this call of `get`, and no other thread is in a call. -/
structure Calling (p : Pool) (c : ℕ) (request : GetRequest) (job : JobRef) (rs : List Bool) :
    Prop where
  alone : ∀ d, d ≠ c → p.callers d = .idle
  phase : p.Phase request job rs (p.callers c)

theorem Answers.step {l : Label} (hs : p.step l = some p') {job : JobRef}
    {response : GetResponse} (h : p.Answers job response) : p'.Answers job response := by
  obtain ⟨j, status, result, hj, heval, hresponse⟩ := h
  obtain ⟨j', hj', hkeeps⟩ := record_step hs hj
  exact ⟨j', status, result, hj', hkeeps.req ▸ heval, hresponse⟩

variable {c : ℕ} {request : GetRequest} {job : JobRef} {rs : List Bool}

theorem phase_call_notified (k : JobRef) (pc : CallerPc) :
    p.Phase request job rs (pc.notified k) ↔ p.Phase request job rs pc :=
  iff_of_eq (CallerPc.notified_congr (p.Phase request job rs) (fun _ _ => rfl) k pc)

theorem calling_workerStep (h : p.Calling c request job rs) {i : ℕ}
    (hs : p.step (.worker i) = some p') : p'.Calling c request job rs := by
  obtain ⟨hjobs, hcallers⟩ : p'.jobs = p.jobs ∧ (p'.callers = p.callers ∨
      ∃ k, p'.callers = fun d => (p.callers d).notified k) := by
    obtain ⟨-, hw⟩ := step_cases hs
    cases hw with
    | worker _ hw =>
        cases hw with
        | notify k => exact ⟨rfl, Or.inr ⟨k, rfl⟩⟩
        | _ => exact ⟨rfl, Or.inl rfl⟩
  have hphase : ∀ pc, p.Phase request job rs pc → p'.Phase request job rs pc := by
    intro pc hpc
    cases pc with
    | find | waitUpTo | cvBlocked | cvNotified => simpa only [Phase, hjobs] using hpc
    | erase r response => exact ⟨hpc.1, hpc.2.1, hpc.2.2.step hs⟩
    | got r response =>
        refine ⟨hpc.1, hpc.2.imp (fun hnot => hjobs ▸ hnot) fun hans => ?_⟩
        exact ⟨hans.1, hans.2.1.step hs, hjobs ▸ hans.2.2⟩
    | _ => exact hpc
  rcases hcallers with hsame | ⟨k, hnotified⟩
  · exact ⟨hsame ▸ h.alone, hsame ▸ hphase _ h.phase⟩
  · have hcaller : ∀ d, p'.callers d = (p.callers d).notified k := fun d => congrFun hnotified d
    refine ⟨fun d hd => ?_, ?_⟩
    · rw [hcaller, h.alone d hd]
      rfl
    · rw [hcaller]
      exact (phase_call_notified k _).mpr (hphase _ h.phase)

theorem doneRead_caller (p : Pool) (c : ℕ) (choice : Choice) :
    p.doneRead c (.caller c choice) = (p.callers c).tests.map p.isDone := if_pos rfl

theorem answers_of_done (h : p.Recorded) (hcall : p.Calling c request job rs)
    (herases : (p.callers c).erases = none) (hjob : p.jobs request.reqId = some job) {j : Job}
    (hj : p.heap[job]? = some j) (hdone : j.done = true) :
    evaluate j.req = some (j.status, j.result) := by
  refine h.intact request.reqId job j hjob hj hdone fun d hd => ?_
  by_cases hdc : d = c
  · rw [hdc, herases] at hd
    cases hd
  · rw [hcall.alone d hdc] at hd
    cases hd

/-- A step of the call: what it tests is appended to what its tests have read. -/
theorem calling_callerStep (h : p.Calling c request job rs) (hrecorded : p.Recorded)
    (hmode : request.waitMode = .waitUpTo) {choice : Choice}
    (hs : p.step (.caller c choice) = some p') :
    p'.Calling c request job (rs ++ (p.doneRead c (.caller c choice)).toList) := by
  obtain ⟨-, hstep⟩ := step_cases hs
  have hphase := h.phase
  rw [doneRead_caller]
  cases hstep with
  | caller _ _ hc =>
      refine ⟨fun d hd => (callers_of_caller_step hs hd).trans (h.alone d hd), ?_⟩
      cases hc with
      | findNone r hpc hnone =>
          rw [hpc] at hphase
          obtain ⟨rfl, hjob⟩ := hphase
          rw [hnone] at hjob
          cases hjob
      | findNoWait r hpc k hk hno =>
          rw [hpc] at hphase
          rw [← hphase.1, hno] at hmode
          cases hmode
      | findBadMode r hpc k hk hno hwait =>
          rw [hpc] at hphase
          exact absurd (hphase.1 ▸ hmode) hwait
      | findWaitUpTo r hpc k hk =>
          rw [hpc] at hphase
          obtain ⟨rfl, hjob⟩ := hphase
          rw [setCaller_callers, Function.update_self]
          exact ⟨rfl, Option.some.inj (hk.symm.trans hjob), hjob⟩
      | notFinished r k hpc j hj hdone =>
          rcases hpc with hpc | hpc
          · rw [hpc] at hphase
            exact hphase.elim
          · rw [hpc] at hphase
            obtain ⟨rfl, rfl, hjob⟩ := hphase
            rw [setCaller_callers, Function.update_self, hpc, CallerPc.tests, Option.map_some,
              isDone_eq_of_record hj, hdone]
            exact ⟨rfl, Or.inl ⟨by simp, rfl, hjob⟩⟩
      | block r k hpc j hj hdone =>
          rw [hpc] at hphase
          rw [setCaller_callers, Function.update_self]
          exact hphase
      | consume r k hpc j hj hdone =>
          rcases hpc with hpc | ⟨timeout, hpc⟩
          · rw [hpc] at hphase
            exact hphase.elim
          · rw [hpc] at hphase
            obtain ⟨rfl, rfl, hjob⟩ := hphase
            have hrecord : p.isDone k = true := (isDone_eq_of_record hj).trans hdone
            have heval := answers_of_done hrecorded h (by rw [hpc]; rfl) hjob hj hdone
            obtain ⟨j', hj', hkeeps⟩ := record_step hs hj
            rw [Pool.consume, setCaller_callers, Function.update_self, hpc, CallerPc.tests,
              Option.map_some, hrecord]
            exact ⟨rfl, by simp, j', j.status, j.result, hj', hkeeps.req ▸ heval, rfl⟩
      | wake r k hpc =>
          rw [setCaller_callers, Function.update_self]
          rcases hpc with hpc | hpc
          · rw [hpc] at hphase
            exact hphase
          · rw [hpc] at hphase
            exact hphase
      | erase r response hpc =>
          rw [hpc] at hphase
          obtain ⟨rfl, hread, hanswers⟩ := hphase
          rw [setCaller_callers, Function.update_self, hpc]
          exact ⟨rfl, Or.inr ⟨by simpa [CallerPc.tests] using hread, hanswers.step hs, by simp⟩⟩
      | got r response hpc =>
          rw [emit_callers, setCaller_callers, Function.update_self]
          trivial
      | blocking _ hpc | trap _ hpc | refuse _ hpc | enqueue _ hpc | insert _ _ _ hpc
      | lockQueue _ _ _ hpc | push _ _ _ hpc | signal _ _ _ hpc | ran _ _ hpc | stopTest hpc
      | stopStore hpc | stopBroadcast hpc | join _ hpc | joined _ hpc | stopped hpc =>
          rw [hpc] at hphase
          exact hphase.elim

/-- The record holds what it was made with, or what was published. -/
def Whole (p : Pool) (job : JobRef) : Prop :=
  ∃ j : Job, p.heap[job]? = some j ∧
    (j.done = false → j.status = .stNotFinished ∧ j.result = {}) ∧
    (j.done = true → evaluate j.req = some (j.status, j.result))

theorem calling_of_run {during : List Label} {q : Pool} (hrecorded : p.Recorded)
    (hfind : p.callers c = .find request) (halone : ∀ d, d ≠ c → p.callers d = .idle)
    (hmode : request.waitMode = .waitUpTo) (hjob : p.jobs request.reqId = some job)
    (hcall : ∀ l ∈ during, l.Within c) (hrun : run step p during = some q) :
    q.Recorded ∧ q.Calling c request job (doneReads c p during) := by
  have hguard : Guarded step (fun _ l => l.Within c) p during := guarded_of_forall fun _ => hcall
  refine run_history_of_guarded
    (P := fun ls q => q.Recorded ∧ q.Calling c request job (doneReads c p ls)) ?_ ?_ hguard hrun
  · rintro ls q l q' hq ⟨hqrec, hqcall⟩ hl hs
    refine ⟨recorded_step q l q' hqrec hs, ?_⟩
    have hreads : doneReads c p (ls ++ [l]) = doneReads c p ls ++ (q.doneRead c l).toList :=
      observed_append_singleton hq l
    rw [hreads]
    cases l with
    | worker i => simpa [doneRead] using calling_workerStep hqcall hs
    | caller d choice =>
        obtain rfl : d = c := hl
        exact calling_callerStep hqcall hqrec hmode hs
    | run | get | deinit => exact hl.elim
  · exact ⟨hrecorded, halone, by rw [hfind]; exact ⟨rfl, hjob⟩⟩

/-- A call of `get` with `WAIT_UP_TO` among any steps of the workers. While it is blocked
on the `cv` of a done job, the broadcast is still to come. It answers `ST_NOT_FINISHED`
only if its last test has read `false`, and then the ticket and the record are left as
they are; otherwise its last test has read `true`, and it answers the status and the
result of the job and removes the ticket. -/
theorem bounded_wait (n : ℕ) (before during : List Label) (p q : Pool) (c : ℕ)
    (request : GetRequest) (job : JobRef) (hbefore : run step (start n) before = some p)
    (hfind : p.callers c = .find request) (halone : ∀ d, d ≠ c → p.callers d = .idle)
    (hmode : request.waitMode = .waitUpTo) (hjob : p.jobs request.reqId = some job)
    (hcall : ∀ l ∈ during, l.Within c) (hduring : run step p during = some q) :
    (q.callers c = .cvBlocked request job → q.isDone job = true →
        ∃ i, q.WorkerAt i (.notify job)) ∧
      ∀ response, q.callers c = .got request response →
        (response.status = .stNotFinished →
          (doneReads c p during).getLast? = some false ∧ response.result = none ∧
            q.jobs request.reqId = some job ∧ q.Whole job) ∧
        (response.status ≠ .stNotFinished →
          (doneReads c p during).getLast? = some true ∧ q.Answers job response ∧
            q.jobs request.reqId = none) := by
  obtain ⟨hrecorded, hcalling⟩ :=
    calling_of_run (recorded_of_run hbefore) hfind halone hmode hjob hcall hduring
  refine ⟨fun hpc hdone => ?_, fun response hpc => ?_⟩
  · have hheard : q.Heard := run_invariant heard_step (heard_start n)
      (run_append_eq_some.mpr ⟨p, hbefore, hduring⟩)
    exact List.mem_iff_getElem?.mp (hheard c request job hpc hdone)
  · have hphase := hcalling.phase
    rw [hpc] at hphase
    obtain ⟨-, ⟨hread, rfl, hin⟩ | ⟨hread, hanswers, hout⟩⟩ := hphase
    · refine ⟨fun _ => ⟨hread, rfl, hin, ?_⟩, fun hne => absurd rfl hne⟩
      obtain ⟨j, hj, -⟩ := hrecorded.ticketed.entry _ job hin
      exact ⟨j, hj, hrecorded.blank job j hj,
        answers_of_done hrecorded hcalling (by rw [hpc]; rfl) hin hj⟩
    · refine ⟨fun hstatus => ?_, fun _ => ⟨hread, hanswers, hout⟩⟩
      obtain ⟨j, status, result, -, heval, rfl⟩ := hanswers
      exact absurd hstatus (evaluate_status_ne_notFinished heval)

theorem trapped_of_getting {choice : Choice} (hreq : (p.callers c).req = some (.get request))
    (hs : p.step (.caller c choice) = some p') : p'.trapped = p.trapped := by
  obtain ⟨-, hs⟩ := step_cases hs
  cases hs with
  | caller _ _ hc =>
      cases hc with
      | trap r hpc =>
          rw [hpc] at hreq
          cases hreq
      | _ => rfl

/-- A call of `get` can always come to its answer, with steps of its own and of a worker: if
it was notified, if it timed out, and wherever else it is. -/
theorem exists_got {n : ℕ} {ls : List Label} (hrun : run step (start n) ls = some p)
    (halone : ∀ d, d ≠ c → p.callers d = .idle) (halive : p.trapped = false)
    (hreq : (p.callers c).req = some (.get request)) :
    ∃ ks q response, (∀ l ∈ ks, l.Within c) ∧ run step p ks = some q ∧
      q.callers c = .got request response := by
  induction hd : (p.callers c).distance using Nat.strong_induction_on generalizing p ls with
  | _ d ih =>
      by_cases hgot : ∃ response, p.callers c = .got request response
      · obtain ⟨response, hpc⟩ := hgot
        exact ⟨[], p, response, by simp, rfl, hpc⟩
      · have hcall : 0 < (p.callers c).distance := by
          cases hpc : p.callers c with
          | waitUpTo r job timeout => cases timeout <;> simp [CallerPc.distance]
          | idle | stopTest | stopStore | stopBroadcast | join | stopped =>
              rw [hpc] at hreq
              cases hreq
          | _ => simp [CallerPc.distance]
        obtain ⟨i, k, q, choice, p', hq, hcallers, hqalive, hp', hcloser⟩ :=
          exists_closer (run_invariant sturdy_step (sturdy_start n) hrun) halone halive hcall
        have hqreq : (q.callers c).req = some (.get request) := by rw [hcallers, hreq]
        have halive' : p'.trapped = false := (trapped_of_getting hqreq hp').trans hqalive
        have hlt : (p'.callers c).distance < (p.callers c).distance :=
          hcloser.resolve_left (by simp [halive'])
        have hreq' : (p'.callers c).req = some (.get request) := by
          refine (req_of_caller_step hp' (fun r response hpc => ?_) fun r response hpc => ?_).trans hqreq
          · rw [hpc] at hqreq
            cases hqreq
          · rw [hpc] at hqreq
            obtain rfl : r = request := by simpa [CallerPc.req] using hqreq
            exact hgot ⟨response, hcallers ▸ hpc⟩
        have hthere : run step p (List.replicate k (.worker i) ++ [.caller c choice]) = some p' :=
          run_append_eq_some.mpr ⟨q, hq, by rw [run_singleton, hp']⟩
        obtain ⟨ks, r, response, hks, hr, hpc⟩ :=
          ih _ (hd ▸ hlt) (run_append_eq_some.mpr ⟨p, hrun, hthere⟩)
            (fun e he => (callers_of_caller_step hp' he).trans (hcallers ▸ halone e he))
            halive' hreq' rfl
        refine ⟨_ ++ ks, r, response, fun l hl => ?_, run_append_eq_some.mpr ⟨p', hthere, hr⟩, hpc⟩
        rw [List.mem_append, List.mem_append, List.mem_singleton] at hl
        rcases hl with (hworker | rfl) | hlater
        · rw [List.eq_of_mem_replicate hworker]
          trivial
        · rfl
        · exact hks l hlater

/-- The call for ticket `5 <<< 16` of an addition that a worker has taken. -/
def waitRequest : GetRequest :=
  { ticket := some { reqId := ticketId 5 0 }, waitMode := .waitUpTo, timeoutMs := 10 }

/-- The call blocks, the worker evaluates, and the wait times out before it publishes. -/
def timeoutSchedule : List Label :=
  [.caller 0 {}, .caller 0 {}, .worker 0, .caller 0 { timedOut := true }, .worker 0, .caller 0 {},
    .caller 0 {}]

def publishedSchedule : List Label := [.caller 0 {}, .caller 0 {}, .worker 0, .worker 0]

def broadcastSchedule : List Label :=
  publishedSchedule ++ [.worker 0, .caller 0 {}, .caller 0 {}, .caller 0 {}]

/-- The call blocks, and answers the sum when the wait has timed out, or when the broadcast
has come, which it is sure of while it is blocked. -/
theorem bounded_wait_woken :
    ∃ p, run step (start 1) (takenSchedule ++ [.get 0 waitRequest]) = some p ∧
      (∃ u i, run step p publishedSchedule = some u ∧ u.callers 0 = .cvBlocked waitRequest 0 ∧
        u.isDone 0 = true ∧ u.WorkerAt i (.notify 0)) ∧
      ∀ during ∈ [timeoutSchedule, broadcastSchedule], ∃ q, run step p during = some q ∧
        q.callers 0 = .got waitRequest
          { status := .stSuccess, result := some { value := some (.intResult 5) } } ∧
        (doneReads 0 p during).getLast? = some true ∧ q.jobs (ticketId 5 0) = none := by
  obtain ⟨p, hp, hptest⟩ := exists_of_run_any step (start 1)
    (takenSchedule ++ [.get 0 waitRequest])
    (fun p => p.callers 0 = .find waitRequest ∧ p.jobs (ticketId 5 0) = some 0 ∧
      ((run step p publishedSchedule).any fun u =>
        u.callers 0 = .cvBlocked waitRequest 0 ∧ u.isDone 0 = true) = true ∧
      ([timeoutSchedule, broadcastSchedule].all fun during =>
        (run step p during).any fun q => q.callers 0 = .got waitRequest
          { status := .stSuccess, result := some { value := some (.intResult 5) } }) = true)
    (by decide)
  simp only [decide_eq_true_eq, List.all_eq_true] at hptest
  obtain ⟨hfind, hjob, hutest, hqtest⟩ := hptest
  have hwithin : ∀ during ∈ [timeoutSchedule, broadcastSchedule], ∀ l ∈ during, l.Within 0 := by
    decide
  have halone : p.Alone := alone_of_run hp (by decide)
  refine ⟨p, hp, ?_, fun during hduring => ?_⟩
  · obtain ⟨u, hu, htest⟩ := exists_of_run_any step p publishedSchedule _ hutest
    simp only [decide_eq_true_eq] at htest
    obtain ⟨hheard, -⟩ := bounded_wait 1 _ publishedSchedule p u 0 waitRequest 0 hp hfind halone rfl
      hjob (by decide) hu
    obtain ⟨i, hi⟩ := hheard htest.1 htest.2
    exact ⟨u, i, hu, htest.1, htest.2, hi⟩
  · obtain ⟨q, hq, hgot⟩ := exists_of_run_any step p during _ (hqtest during hduring)
    simp only [decide_eq_true_eq] at hgot
    obtain ⟨-, hanswer⟩ := bounded_wait 1 _ during p q 0 waitRequest 0 hp hfind halone rfl hjob
      (hwithin during hduring) hq
    obtain ⟨hread, -, hout⟩ := (hanswer _ hgot).2 (by simp)
    exact ⟨q, hq, hgot, hread, hout⟩

end Pool

end InterProcess
