import InterProcess.Library.Tickets
import InterProcess.Runner.Reissue

/-!
# The runner as a store of deferred answers

With a single thread that calls `run` and `get`, the runner implements the store
of `Tickets`: the tickets that are out are the keys of `jobs`, each with the
request of its record, and the answer to a request is what `evaluate` computes.
`run` issues a ticket where it inserts into `jobs`, and `get` uses it up where it
erases; the thread returns what it did at these points some steps later.

`Serial` is the invariant of the calling thread, `Sound` collects everything the
refinement needs, and `Sound.store_step` is the refinement of one step.
-/

namespace InterProcess

open Transition

/-- The answers of the runner, as operations of the store. -/
abbrev StoreOp := Tickets.Op UInt64 SubmitRequest (Status × Result)

/-- The wait modes that `get` knows. -/
def GetRequest.Waits (request : GetRequest) : Prop :=
  request.waitMode = .noWait ∨ request.waitMode = .waitUpTo

instance (request : GetRequest) : Decidable request.Waits :=
  inferInstanceAs (Decidable (_ ∨ _))

/-- What a thread has done but not returned yet. -/
def CallerPc.owes : CallerPc → Option Event
  | .lockQueue request id _ | .push request id _ | .signal request id _ =>
      some (.ran 0 request { status := .stNotFinished, ticket := some { reqId := id } })
  | .ran request response => some (.ran 0 request response)
  | .got request response => some (.got 0 request response)
  | _ => none

/-- The call of `get` that has looked its ticket up and works on the record. -/
def CallerPc.looks : CallerPc → Option (GetRequest × JobRef)
  | .noWait request job | .waitUpTo request job _ | .cvBlocked request job
  | .cvNotified request job => some (request, job)
  | _ => none

/-- The return of a call of the single calling thread, as an answer of the store. -/
inductive Event.Shows : Event → StoreOp → Prop
  | issue (request : SubmitRequest) (t : UInt64) (hmode : request.mode = .nonblocking)
      (hpayload : request.payload ≠ none) :
      Shows (.ran 0 request { status := .stNotFinished, ticket := some { reqId := t } })
        (.issue t request)
  | inline (request : SubmitRequest) (response : SubmitResponse)
      (hmode : request.mode = .blocking) (heval : runBlocking request = some response) :
      Shows (.ran 0 request response) .skip
  | refuse (request : SubmitRequest) (hmode : request.mode ≠ .blocking)
      (hbad : request.mode = .nonblocking → request.payload = none) :
      Shows (.ran 0 request { status := .stErrorInvalidInput }) .skip
  | pending (request : GetRequest) (hwaits : request.Waits) :
      Shows (.got 0 request { status := .stNotFinished }) (.pending request.reqId)
  | deliver (request : GetRequest) (status : Status) (result : Result)
      (hwaits : request.Waits) :
      Shows (.got 0 request { status := status, result := some result })
        (.deliver request.reqId (status, result))
  | unknown (request : GetRequest) :
      Shows (.got 0 request { status := .stErrorInvalidInput }) (.unknown request.reqId)
  | badMode (request : GetRequest) (hwaits : ¬ request.Waits) :
      Shows (.got 0 request { status := .stErrorInvalidInput }) .skip

/-- The calling thread is thread `0`. -/
def Label.Single : Label → Prop
  | .run c _ | .get c _ | .deinit c | .caller c _ => c = 0
  | .worker _ => True

instance : DecidablePred Label.Single
  | .run c _ | .get c _ | .deinit c | .caller c _ => inferInstanceAs (Decidable (c = 0))
  | .worker _ => inferInstanceAs (Decidable True)

namespace Pool

/-- The tickets that are out, with the requests they were issued for. -/
def store (p : Pool) : Table UInt64 SubmitRequest := fun t =>
  (p.jobs t).bind fun job => p.heap[job]?.map Job.req

theorem store_eq_some {p : Pool} {t : UInt64} {request : SubmitRequest} :
    p.store t = some request ↔
      ∃ (job : JobRef) (j : Job), p.jobs t = some job ∧ p.heap[job]? = some j ∧
        j.req = request := by
  simp [store, Option.bind_eq_some_iff]

theorem store_eq_none {p : Pool} (h : p.Ticketed) {t : UInt64} :
    p.store t = none ↔ p.jobs t = none := by
  constructor
  · intro hnone
    cases hjob : p.jobs t with
    | none => rfl
    | some job =>
        obtain ⟨j, hj, -⟩ := h.entry t job hjob
        simp [store, hjob, hj] at hnone
  · intro hnone
    simp [store, hnone]

/-- What a worker publishes is what `evaluate` computes for the request. -/
def Computed (p : Pool) : Prop :=
  ∀ (i : ℕ) (job : JobRef) (status : Status) (result : Result),
    p.WorkerAt i (.publish job status result) →
      ∃ j : Job, p.heap[job]? = some j ∧ evaluate j.req = some (status, result)

/-- The single calling thread. A call of `get` that has found its ticket still
has it in `jobs`, a record that is done and can be found has the status and the
result of its request, unless the thread has just taken them, and then it answers
them. -/
structure Serial (p : Pool) : Prop where
  alone : ∀ c, c ≠ 0 → p.callers c = .idle
  looked : ∀ request job, (p.callers 0).looks = some (request, job) →
    request.Waits ∧ p.jobs request.reqId = some job
  inserting : ∀ request id job, p.callers 0 = .insert request id job →
    request.mode = .nonblocking ∧ request.payload ≠ none ∧
      ∃ j : Job, p.heap[job]? = some j ∧ j.req = request
  published : ∀ t (job : JobRef) (j : Job),
    (p.jobs t = some job ∨ (p.callers 0).inserts = some (t, job)) → p.heap[job]? = some j →
      j.done = true → (p.callers 0).erases ≠ some t →
        evaluate j.req = some (j.status, j.result)
  erasing : ∀ request response, p.callers 0 = .erase request response →
    request.Waits ∧ ∃ (job : JobRef) (j : Job) (status : Status) (result : Result),
      p.jobs request.reqId = some job ∧ p.heap[job]? = some j ∧
        response = { status := status, result := some result } ∧
        evaluate j.req = some (status, result)

/-- Everything that holds along a run of the single calling thread whose enqueues
meet no outstanding job. -/
structure Sound (p : Pool) : Prop where
  serial : p.Serial
  computed : p.Computed
  ticketed : p.Ticketed
  clocked : p.Clocked
  fresh : p.InsertsFresh

theorem computed_start (n : ℕ) : (start n).Computed := by
  intro i job status result h
  simp [WorkerAt, start, List.getElem?_replicate] at h

theorem serial_start (n : ℕ) : (start n).Serial where
  alone c _ := rfl
  looked request job h := by simp [start, CallerPc.looks] at h
  inserting request id job h := by simp [start] at h
  published t job j h := by simp [start, CallerPc.inserts] at h
  erasing request response h := by simp [start] at h

theorem Computed.mono {p p' : Pool} (h : p.Computed)
    (hheap : ∀ (job : JobRef) (j : Job), p.heap[job]? = some j →
      ∃ j' : Job, p'.heap[job]? = some j' ∧ j'.req = j.req)
    (hworkers : ∀ i job status result, p'.WorkerAt i (.publish job status result) →
      p.WorkerAt i (.publish job status result)) : p'.Computed := by
  intro i job status result hi
  obtain ⟨j, hj, heval⟩ := h i job status result (hworkers i job status result hi)
  obtain ⟨j', hj', hreq⟩ := hheap job j hj
  exact ⟨j', hj', hreq ▸ heval⟩

theorem wake_eq_publish {pc : WorkerPc} {job : JobRef} {status : Status} {result : Result} :
    pc.wake = .publish job status result ↔ pc = .publish job status result := by
  cases pc <;> simp [WorkerPc.wake]

theorem of_set_publish {workers : List WorkerPc} {i k : ℕ} {pc : WorkerPc} {job : JobRef}
    {status : Status} {result : Result} (hpc : pc ≠ .publish job status result)
    (h : (workers.set i pc)[k]? = some (.publish job status result)) :
    workers[k]? = some (.publish job status result) := by
  rcases workerAt_set_cases h with ⟨-, heq⟩ | ⟨-, hold⟩
  · exact absurd heq hpc
  · exact hold

theorem computed_step (p : Pool) (l : Label) (p' : Pool) (h : p.Computed)
    (hs : p.step l = some p') : p'.Computed := by
  have hheap : ∀ (job : JobRef) (j : Job), p.heap[job]? = some j →
      ∃ j' : Job, p'.heap[job]? = some j' ∧ j'.req = j.req := by
    intro job j hj
    obtain ⟨j', hj', hkeeps⟩ := record_step hs hj
    exact ⟨j', hj', hkeeps.req⟩
  obtain ⟨-, hs⟩ := step_cases hs
  cases hs with
  | run | get | deinit => exact h
  | caller c choice hc =>
      refine h.mono hheap fun i job status result hi => ?_
      cases hc with
      | signal request id job hpc hok =>
          simp only [WorkerAt, setCaller_workers, signalled_workers, List.getElem?_mapIdx,
            Option.map_eq_some_iff] at hi
          obtain ⟨pc, hpc, hnew⟩ := hi
          rw [WorkerAt, hpc]
          split at hnew
          · rw [wake_eq_publish.mp hnew]
          · rw [hnew]
      | stopBroadcast hpc =>
          simp only [WorkerAt, setCaller_workers, List.getElem?_map, Option.map_eq_some_iff] at hi
          obtain ⟨pc, hpc, hnew⟩ := hi
          rw [WorkerAt, hpc, wake_eq_publish.mp hnew]
      | _ => exact hi
  | worker i hw =>
      cases hw with
      | trap => exact h
      | evaluate job hpc j hj status result heval =>
          intro k job' status' result' hk
          rcases workerAt_set_cases hk with ⟨-, heq⟩ | ⟨-, hold⟩
          · cases heq
            exact ⟨j, hj, heval⟩
          · exact h k job' status' result' hold
      | loopTest =>
          refine h.mono hheap fun k job status result hk => of_set_publish ?_ hk
          split <;> simp
      | _ => exact h.mono hheap fun k job status result hk => of_set_publish (by simp) hk

theorem looks_notified (job : JobRef) (pc : CallerPc) :
    (pc.notified job).looks = pc.looks :=
  CallerPc.notified_congr CallerPc.looks (fun _ _ => rfl) job pc

theorem owes_notified (job : JobRef) (pc : CallerPc) :
    (pc.notified job).owes = pc.owes :=
  CallerPc.notified_congr CallerPc.owes (fun _ _ => rfl) job pc

theorem notified_eq_insert {job r : JobRef} {pc : CallerPc} {request : SubmitRequest}
    {id : UInt64} : pc.notified job = .insert request id r ↔ pc = .insert request id r :=
  iff_of_eq (CallerPc.notified_congr (fun pc => pc = .insert request id r) (by simp) job pc)

theorem notified_eq_erase {job : JobRef} {pc : CallerPc} {request : GetRequest}
    {response : GetResponse} :
    pc.notified job = .erase request response ↔ pc = .erase request response :=
  iff_of_eq (CallerPc.notified_congr (fun pc => pc = .erase request response) (by simp) job pc)

theorem Serial.same {p p' : Pool} (h : p.Serial) (hjobs : p'.jobs = p.jobs)
    (hheap : p'.heap = p.heap) (hcallers : p'.callers = p.callers) : p'.Serial := by
  refine ⟨?_, ?_, ?_, ?_, ?_⟩
  · rw [hcallers]; exact h.alone
  · rw [hcallers, hjobs]; exact h.looked
  · rw [hcallers, hheap]; exact h.inserting
  · rw [hcallers, hjobs, hheap]; exact h.published
  · rw [hcallers, hjobs, hheap]; exact h.erasing

theorem Serial.move {p p' : Pool} (h : p.Serial) {pc : CallerPc} (hjobs : p'.jobs = p.jobs)
    (hheap : p'.heap = p.heap) (hcallers : p'.callers = Function.update p.callers 0 pc)
    (hlooks : ∀ request job, pc.looks = some (request, job) →
      request.Waits ∧ p.jobs request.reqId = some job)
    (hinserts : pc.inserts = none) (herases : pc.erases = none)
    (hold : (p.callers 0).erases = none) : p'.Serial := by
  have hmine : p'.callers 0 = pc := by simp [hcallers]
  refine ⟨fun c hc => ?_, fun request job hl => ?_, fun request id job hi => ?_,
    fun t job j hjob hj hdone _ => ?_, fun request response he => ?_⟩
  · rw [hcallers, Function.update_of_ne hc]
    exact h.alone c hc
  · rw [hjobs]
    exact hlooks request job (hmine ▸ hl)
  · rw [hmine] at hi
    simp [hi, CallerPc.inserts] at hinserts
  · rw [hmine, hinserts] at hjob
    rcases hjob with hin | hin
    · exact h.published t job j (Or.inl (hjobs ▸ hin)) (hheap ▸ hj) hdone (by simp [hold])
    · cases hin
  · rw [hmine] at he
    simp [he, CallerPc.erases] at herases

theorem serial_enqueue {p : Pool} (h : p.Serial) (hticketed : p.Ticketed)
    {request : SubmitRequest} (hpc : p.callers 0 = .run request)
    (hmode : request.mode = .nonblocking) (hpayload : request.payload ≠ none)
    (id reading : UInt64) :
    (((p.allocate request id).setCaller 0 (.insert request id p.heap.length)).emit
      (.enqueued reading)).Serial := by
  refine ⟨fun c hc => ?_, fun r job hl => ?_, fun r t job hi => ?_,
    fun t job j hjob hj hdone _ => ?_, fun r response he => ?_⟩
  · simpa [hc] using h.alone c hc
  · simp [CallerPc.looks] at hl
  · obtain ⟨rfl, rfl, rfl⟩ : request = r ∧ id = t ∧ p.heap.length = job := by simpa using hi
    exact ⟨hmode, hpayload, { id := id, req := request }, by simp, rfl⟩
  · simp only [emit_heap, setCaller_heap, allocate_heap, List.getElem?_append] at hj
    rcases hjob with hin | hin
    · have hlt : job < p.heap.length := by
        obtain ⟨j', hj', -⟩ := hticketed.entry t job hin
        exact (List.getElem?_eq_some_iff.mp hj').1
      rw [if_pos hlt] at hj
      exact h.published t job j (Or.inl hin) hj hdone (by simp [hpc, CallerPc.erases])
    · -- the new record is not done
      obtain ⟨-, rfl⟩ : id = t ∧ p.heap.length = job := by simpa [CallerPc.inserts] using hin
      obtain rfl : ({ id := id, req := request } : Job) = j := by simpa using hj
      cases hdone
  · simp at he

theorem serial_insert {p : Pool} (h : p.Serial) {request : SubmitRequest} {id : UInt64}
    {job : JobRef} (hpc : p.callers 0 = .insert request id job) :
    (Pool.setCaller { p with jobs := p.jobs.insert id job } 0
      (.lockQueue request id job)).Serial := by
  refine ⟨fun c hc => ?_, fun r job' hl => ?_, fun r t job' hi => ?_,
    fun t job' j hjob hj hdone _ => ?_, fun r response he => ?_⟩
  · simpa [hc] using h.alone c hc
  · simp [CallerPc.looks] at hl
  · simp at hi
  · have herases : (p.callers 0).erases ≠ some t := by simp [hpc, CallerPc.erases]
    rcases hjob with hin | hin
    · simp only [setCaller_jobs, Table.insert_apply] at hin
      split at hin
      · next heq =>
          refine h.published t job' j (Or.inr ?_) hj hdone herases
          rw [hpc, heq, ← Option.some.inj hin]
          rfl
      · exact h.published t job' j (Or.inl hin) hj hdone herases
    · simp [CallerPc.inserts] at hin
  · simp at he

theorem serial_consume {p : Pool} (h : p.Serial) (hticketed : p.Ticketed)
    {request : GetRequest} {job : JobRef} (hlooks : (p.callers 0).looks = some (request, job))
    {j : Job} (hj : p.heap[job]? = some j) (hdone : j.done = true) :
    (p.consume 0 request job j).Serial := by
  obtain ⟨hwaits, hin⟩ := h.looked request job hlooks
  have hold : (p.callers 0).erases = none := by
    cases hpc : p.callers 0 <;> simp_all [CallerPc.looks, CallerPc.erases]
  have heval := h.published _ job j (Or.inl hin) hj hdone (by simp [hold])
  refine ⟨fun c hc => ?_, fun r job' hl => ?_, fun r t job' hi => ?_,
    fun t job' j' hjob hj' hdone' hne => ?_, fun r response he => ?_⟩
  · simpa [Pool.consume, hc] using h.alone c hc
  · simp [Pool.consume, CallerPc.looks] at hl
  · simp [Pool.consume] at hi
  · simp only [Pool.consume, setCaller_callers, Function.update_self, CallerPc.inserts,
      CallerPc.erases, ne_eq, Option.some.injEq, reduceCtorEq, or_false, setCaller_jobs,
      swapOut_jobs] at hjob hne
    -- the other tickets lead to other records
    have hother : job ≠ job' := by
      rintro rfl
      exact hne ((hticketed.entry _ _ hin).id_unique (hticketed.entry _ _ hjob))
    have hsame : p.heap[job']? = some j' := by simpa [Pool.consume, hother] using hj'
    exact h.published t job' j' (Or.inl hjob) hsame hdone' (by simp [hold])
  · obtain ⟨rfl, rfl⟩ : request = r ∧ _ = response := by simpa [Pool.consume] using he
    exact ⟨hwaits, job, { j with result := {} }, j.status, j.result, hin,
      by simp [Pool.consume, hj], rfl, heval⟩

theorem serial_erase {p : Pool} (h : p.Serial) {request : GetRequest} {response : GetResponse}
    (hpc : p.callers 0 = .erase request response) :
    (Pool.setCaller { p with jobs := p.jobs.erase request.reqId } 0
      (.got request response)).Serial := by
  refine ⟨fun c hc => ?_, fun r job hl => ?_, fun r t job hi => ?_,
    fun t job j hjob hj hdone _ => ?_, fun r response he => ?_⟩
  · simpa [hc] using h.alone c hc
  · simp [CallerPc.looks] at hl
  · simp at hi
  · rcases hjob with hin | hin
    · obtain ⟨hne, hin⟩ := Table.of_erase_eq_some hin
      refine h.published t job j (Or.inl hin) hj hdone ?_
      rw [hpc]
      simpa [CallerPc.erases] using Ne.symm hne
    · simp [CallerPc.inserts] at hin
  · simp at he

theorem serial_publish {p : Pool} (h : p.Serial) {i : ℕ} {job : JobRef} {status : Status}
    {result : Result} (hcomputed : ∃ j : Job, p.heap[job]? = some j ∧
      evaluate j.req = some (status, result)) :
    (((p.publish job status result).setWorker i (.notify job)).emit (.published job)).Serial := by
  have hreq : ∀ (r : JobRef) (j : Job), p.heap[r]? = some j →
      ∃ j' : Job, (p.publish job status result).heap[r]? = some j' ∧ j'.req = j.req :=
    fun r j hj => exists_of_modify job (fun j => { j with status, result, done := true })
      (R := fun j j' => j'.req = j.req) (fun _ => rfl) (fun _ => rfl) hj
  refine ⟨h.alone, h.looked, fun r t job' hi => ?_, fun t job' j hjob hj hdone hne => ?_,
    fun r response he => ?_⟩
  · obtain ⟨hmode, hpayload, j, hj, rfl⟩ := h.inserting r t job' hi
    exact ⟨hmode, hpayload, hreq job' j hj⟩
  · obtain ⟨j₀, hj₀, ⟨rfl, rfl⟩ | ⟨-, rfl⟩⟩ := record_modify_cases hj
    · obtain ⟨j₁, hj₁, heval⟩ := hcomputed
      obtain rfl : j₀ = j₁ := Option.some.inj (hj₀.symm.trans hj₁)
      exact heval
    · exact h.published t job' _ hjob hj₀ hdone hne
  · obtain ⟨hwaits, job', j, s, res, hin, hj, hresponse, heval⟩ := h.erasing r response he
    obtain ⟨j', hj', hsame⟩ := hreq job' j hj
    exact ⟨hwaits, job', j', s, res, hin, hj', hresponse, hsame ▸ heval⟩

theorem serial_notify {p : Pool} (h : p.Serial) (i : ℕ) (job : JobRef) :
    (setWorker { p with callers := fun c => (p.callers c).notified job } i
      .loopTest).Serial := by
  refine ⟨fun c hc => ?_, fun r job' hl => ?_, fun r t job' hi => ?_,
    fun t job' j hjob hj hdone hne => ?_, fun r response he => ?_⟩
  · simp [h.alone c hc, CallerPc.notified]
  · exact h.looked r job' (by rw [← looks_notified job]; exact hl)
  · exact h.inserting r t job' (notified_eq_insert.mp hi)
  · refine h.published t job' j ?_ hj hdone ?_
    · rw [← inserts_notified job]; exact hjob
    · rw [← erases_notified job]; exact hne
  · exact h.erasing r response (notified_eq_erase.mp he)

theorem serial_callerStep {p p' : Pool} {choice : Choice} (h : p.Serial)
    (hticketed : p.Ticketed) (hs : CallerStep p 0 choice p') : p'.Serial := by
  cases hs with
  | enqueue request hpc hmode hpayload =>
      exact serial_enqueue h hticketed hpc hmode hpayload _ _
  | insert request id job hpc => exact serial_insert h hpc
  | erase request response hpc => exact serial_erase h hpc
  | trap => exact h.same rfl rfl rfl
  | findNoWait request hpc job hjob hmode =>
      refine h.move rfl rfl rfl (fun r t hr => ?_) rfl rfl (by rw [hpc]; rfl)
      obtain ⟨rfl, rfl⟩ : request = r ∧ job = t := by simpa [CallerPc.looks] using hr
      exact ⟨Or.inl hmode, hjob⟩
  | findWaitUpTo request hpc job hjob hmode =>
      refine h.move rfl rfl rfl (fun r t hr => ?_) rfl rfl (by rw [hpc]; rfl)
      obtain ⟨rfl, rfl⟩ : request = r ∧ job = t := by simpa [CallerPc.looks] using hr
      exact ⟨Or.inr hmode, hjob⟩
  | block request job hpc =>
      exact h.move rfl rfl rfl (fun r t hr => h.looked r t (by rw [hpc]; exact hr)) rfl rfl
        (by rw [hpc]; rfl)
  | wake request job hpc =>
      rcases hpc with hpc | hpc
      · exact h.move rfl rfl rfl (fun r t hr => h.looked r t (by rw [hpc]; exact hr)) rfl rfl
          (by rw [hpc]; rfl)
      · exact h.move rfl rfl rfl (fun r t hr => h.looked r t (by rw [hpc]; exact hr)) rfl rfl
          (by rw [hpc]; rfl)
  | consume request job hpc j hj hdone =>
      refine serial_consume h hticketed ?_ hj hdone
      rcases hpc with hpc | ⟨timeout, hpc⟩ <;> rw [hpc] <;> rfl
  | notFinished request job hpc =>
      refine h.move rfl rfl rfl (by simp [CallerPc.looks]) rfl rfl ?_
      rcases hpc with hpc | hpc <;> rw [hpc] <;> rfl
  | stopTest hpc =>
      refine h.move rfl rfl rfl (fun r t hr => ?_) ?_ ?_ (by rw [hpc]; rfl)
      · split at hr <;> cases hr
      all_goals split <;> rfl
  | blocking request hpc | refuse request hpc | lockQueue request id job hpc
  | push request id job hpc | signal request id job hpc | ran request response hpc
  | findNone request hpc | findBadMode request hpc | got request response hpc
  | stopStore hpc | stopBroadcast hpc | join i hpc | joined i hpc | stopped hpc =>
      exact h.move rfl rfl rfl (by simp [CallerPc.looks]) rfl rfl (by rw [hpc]; rfl)

theorem serial_step {p p' : Pool} {l : Label} (h : p.Serial) (hticketed : p.Ticketed)
    (hcomputed : p.Computed) (hl : l.Single) (hs : p.step l = some p') : p'.Serial := by
  obtain ⟨-, hs⟩ := step_cases hs
  cases hs with
  | run c request hidle | get c request hidle | deinit c hidle =>
      obtain rfl : c = 0 := hl
      exact h.move rfl rfl rfl (by simp [CallerPc.looks]) rfl rfl (by rw [hidle]; rfl)
  | caller c choice hc =>
      obtain rfl : c = 0 := hl
      exact serial_callerStep h hticketed hc
  | worker i hw =>
      cases hw with
      | publish job status result hpc =>
          exact serial_publish h (hcomputed i job status result hpc)
      | notify job => exact serial_notify h i job
      | _ => exact h.same rfl rfl rfl

theorem sound_start (n : ℕ) : (start n).Sound :=
  ⟨serial_start n, computed_start n, ticketed_start n, clocked_start n, insertsFresh_start n⟩

/-- What the steps of a run have to meet for the refinement. -/
def Orderly (p : Pool) (l : Label) : Prop := l.Single ∧ p.Apart l

theorem sound_step (p : Pool) (l : Label) (p' : Pool) (h : p.Sound) (hok : p.Orderly l)
    (hs : p.step l = some p') : p'.Sound where
  serial := serial_step h.serial h.ticketed h.computed hok.1 hs
  computed := computed_step p l p' h.computed hs
  ticketed := ticketed_step p l p' h.ticketed hs
  clocked := clocked_step p l p' h.clocked hs
  fresh := insertsFresh_step h.fresh h.clocked h.ticketed hok.2 hs

end Pool

end InterProcess
