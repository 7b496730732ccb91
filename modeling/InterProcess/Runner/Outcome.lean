import InterProcess.Runner.Store

/-!
# The result of a ticket

The final status and result of a ticket are those of the request that its job was made
for. If no enqueue computes a number that is still in `jobs`, the entry of a ticket is the
last job with its number, and what `get` hands out for it is that result.
-/

namespace InterProcess

open Transition

/-- The result in the answer of a `get` that returns next. -/
def CallerPc.result : CallerPc → Option Result
  | .got _ response => response.result
  | _ => none

namespace Pool

variable {p p' : Pool}

/-- The requests of the jobs, under their numbers. A later job hides an earlier one with
the same number. -/
def requests (p : Pool) : Table UInt64 SubmitRequest :=
  p.heap.foldl (fun requests j => requests.insert j.id j.req) Table.empty

/-- The response carries the final status and result of the ticket. -/
def FinalOf (p : Pool) (t : UInt64) (response : GetResponse) : Prop :=
  ∃ request status result, p.requests t = some request ∧
    evaluate request = some (status, result) ∧
      response = { status := status, result := some result }

theorem FinalOf.congr {t : UInt64} {response : GetResponse} (h : p.FinalOf t response)
    (hrequests : p'.requests t = p.requests t) : p'.FinalOf t response := by
  unfold FinalOf
  rw [hrequests]
  exact h

theorem requests_allocate (p : Pool) (request : SubmitRequest) (id : UInt64) :
    (p.allocate request id).requests = p.requests.insert id request := by
  rw [requests, allocate_heap, List.foldl_append]
  rfl

theorem foldl_modify {heap : List Job} (job : JobRef) {f : Job → Job}
    (hf : ∀ j, (f j).id = j.id ∧ (f j).req = j.req) (requests : Table UInt64 SubmitRequest) :
    (heap.modify job f).foldl (fun requests j => requests.insert j.id j.req) requests =
      heap.foldl (fun requests j => requests.insert j.id j.req) requests := by
  induction heap generalizing job requests with
  | nil => simp
  | cons j heap ih =>
      cases job with
      | zero => simp [hf j]
      | succ job =>
          rw [List.modify_succ_cons, List.foldl_cons, List.foldl_cons]
          exact ih job _

theorem requests_modify {job : JobRef} (f : Job → Job)
    (hf : ∀ j, (f j).id = j.id ∧ (f j).req = j.req) (hheap : p'.heap = p.heap.modify job f) :
    p'.requests = p.requests := by
  rw [requests, hheap]
  exact foldl_modify job hf _

theorem requests_congr (hheap : p'.heap = p.heap) : p'.requests = p.requests := by
  rw [requests, hheap, requests]

/-- The number that a step computes. -/
def Computes (p : Pool) (l : Label) (t : UInt64) : Prop :=
  ∃ c choice, l = .caller c choice ∧ p.Enqueuing c ∧ t = ticketId choice.reading p.seq

theorem requests_step {l : Label} (hs : p.step l = some p') {t : UInt64} (ht : ¬ p.Computes l t) :
    p'.requests t = p.requests t := by
  obtain ⟨-, hs⟩ := step_cases hs
  cases hs with
  | run | get | deinit => rfl
  | caller c choice hc =>
      cases hc with
      | enqueue request hpc hmode hpayload =>
          have hne : t ≠ ticketId choice.reading p.seq := fun heq =>
            ht ⟨c, choice, rfl, ⟨request, hpc, hmode, hpayload⟩, heq⟩
          show (p.allocate request _).requests t = _
          rw [requests_allocate, Table.insert_of_ne _ hne]
      | consume request job =>
          rw [requests_modify (fun j => { j with result := {} }) (fun _ => ⟨rfl, rfl⟩) rfl]
      | _ => rfl
  | worker i hw =>
      cases hw with
      | publish job status result =>
          rw [requests_modify (fun j => { j with status, result, done := true })
            (fun _ => ⟨rfl, rfl⟩) rfl]
      | _ => rfl

/-- What the entries of `jobs` and the answers of `get` have to do with the requests. -/
structure Truthful (p : Pool) : Prop where
  entry : ∀ t (job : JobRef) (j : Job),
    (p.jobs t = some job ∨ (p.callers 0).inserts = some (t, job)) → p.heap[job]? = some j →
      p.requests t = some j.req
  got : ∀ request response, p.callers 0 = .got request response → response.result ≠ none →
    p.FinalOf request.reqId response

theorem truthful_start (n : ℕ) : (start n).Truthful where
  entry t job j h := by simp [start, CallerPc.inserts] at h
  got request response h := by simp [start] at h

theorem Truthful.mono (h : p.Truthful)
    (hjobs : ∀ t job, (p'.jobs t = some job ∨ (p'.callers 0).inserts = some (t, job)) →
      p.jobs t = some job ∨ (p.callers 0).inserts = some (t, job))
    (hheap : ∀ (job : JobRef) (j' : Job), p'.heap[job]? = some j' →
      ∃ j : Job, p.heap[job]? = some j ∧ j.req = j'.req)
    (hrequests : p'.requests = p.requests)
    (hgot : ∀ request response, p'.callers 0 = .got request response → response.result ≠ none →
      p.FinalOf request.reqId response) : p'.Truthful where
  entry t job j hjob hj := by
    obtain ⟨j₀, hj₀, hreq⟩ := hheap job j hj
    rw [hrequests, h.entry t job j₀ (hjobs t job hjob) hj₀, hreq]
  got request response hpc hresult := (hgot request response hpc hresult).congr (by rw [hrequests])

theorem truthful_enqueue (h : p.Truthful) (hticketed : p.Ticketed) {request : SubmitRequest}
    {id reading : UInt64} (hid : p.jobs id = none) :
    (((p.allocate request id).setCaller 0 (.insert request id p.heap.length)).emit
      (.enqueued reading)).Truthful where
  entry t job j hjob hj := by
    show (p.allocate request id).requests t = _
    rw [requests_allocate]
    simp only [emit_heap, setCaller_heap, allocate_heap] at hj
    rcases hjob with hjob | hjob
    · have hjob : p.jobs t = some job := hjob
      obtain ⟨j₀, hj₀, -⟩ := hticketed.entry t job hjob
      have hne : t ≠ id := fun heq => by simp [heq, hid] at hjob
      rw [List.getElem?_append_left (List.getElem?_eq_some_iff.mp hj₀).1] at hj
      rw [Table.insert_of_ne _ hne]
      exact h.entry t job j (Or.inl hjob) hj
    · obtain ⟨rfl, rfl⟩ : id = t ∧ p.heap.length = job := by simpa [CallerPc.inserts] using hjob
      obtain rfl : ({ id := id, req := request } : Job) = j := by simpa using hj
      simp
  got r response hgot := by simp at hgot

theorem Truthful.move (h : p.Truthful) {pc : CallerPc} (hjobs : p'.jobs = p.jobs)
    (hheap : p'.heap = p.heap) (hcallers : p'.callers 0 = pc) (hinserts : pc.inserts = none)
    (hresult : pc.result = none) : p'.Truthful := by
  refine h.mono (fun t job hjob => ?_) (fun job j hj => ⟨j, hheap ▸ hj, rfl⟩)
    (requests_congr hheap) fun request response hpc hne => ?_
  · rw [hjobs, hcallers, hinserts] at hjob
    exact Or.inl (hjob.resolve_right (by simp))
  · rw [← hcallers, hpc] at hresult
    exact absurd hresult hne

theorem truthful_insert (h : p.Truthful) {request : SubmitRequest} {id : UInt64} {job : JobRef}
    (hpc : p.callers 0 = .insert request id job) :
    (setCaller { p with jobs := p.jobs.insert id job } 0 (.lockQueue request id job)).Truthful := by
  refine h.mono (fun t job' hjob => ?_) (fun job j hj => ⟨j, hj, rfl⟩) rfl (by simp)
  have hjob : p.jobs.insert id job t = some job' := by simpa [CallerPc.inserts] using hjob
  by_cases ht : t = id
  · subst ht
    rw [Table.insert_self] at hjob
    exact Or.inr (by rw [hpc, ← Option.some.inj hjob]; rfl)
  · rw [Table.insert_of_ne _ ht] at hjob
    exact Or.inl hjob

theorem truthful_erase (h : p.Truthful) (hserial : p.Serial) {request : GetRequest}
    {response : GetResponse} (hpc : p.callers 0 = .erase request response) :
    (setCaller { p with jobs := p.jobs.erase request.reqId } 0 (.got request response)).Truthful := by
  refine h.mono (fun t job hjob => ?_) (fun job j hj => ⟨j, hj, rfl⟩) rfl ?_
  · have hjob : p.jobs.erase request.reqId t = some job := by
      simpa [CallerPc.inserts] using hjob
    exact Or.inl (Table.of_erase_eq_some hjob).2
  · intro r response' hgot _
    obtain ⟨rfl, rfl⟩ : request = r ∧ response = response' := by simpa using hgot
    obtain ⟨-, job, j, status, result, hjob, hj, hresponse, heval⟩ :=
      hserial.erasing request response hpc
    exact ⟨j.req, status, result, h.entry _ job j (Or.inl hjob) hj, heval, hresponse⟩

theorem Truthful.modify (h : p.Truthful) (job : JobRef) (f : Job → Job)
    (hf : ∀ j, (f j).id = j.id ∧ (f j).req = j.req) (hheap : p'.heap = p.heap.modify job f)
    (hjobs : p'.jobs = p.jobs) (hinserts : (p'.callers 0).inserts = (p.callers 0).inserts)
    (hgot : ∀ request response, p'.callers 0 = .got request response →
      p.callers 0 = .got request response) : p'.Truthful := by
  refine h.mono (fun t job hjob => ?_) (fun r j' hj' => ?_) (requests_modify f hf hheap)
    fun request response hpc => h.got request response (hgot request response hpc)
  · rwa [hjobs, hinserts] at hjob
  · rw [hheap] at hj'
    obtain ⟨j, hj, ⟨-, rfl⟩ | ⟨-, rfl⟩⟩ := record_modify_cases hj'
    · exact ⟨j, hj, (hf j).2.symm⟩
    · exact ⟨_, hj, rfl⟩

theorem notified_eq_got {job : JobRef} {pc : CallerPc} {request : GetRequest}
    {response : GetResponse} :
    pc.notified job = .got request response ↔ pc = .got request response :=
  iff_of_eq (CallerPc.notified_congr (fun pc => pc = .got request response) (by simp) job pc)

theorem truthful_callerStep (h : p.Truthful) (hserial : p.Serial) (hticketed : p.Ticketed)
    {choice : Choice} (hfresh : ∀ t, p.Computes (.caller 0 choice) t → p.jobs t = none)
    (hs : CallerStep p 0 choice p') : p'.Truthful := by
  cases hs with
  | enqueue request hpc hmode hpayload =>
      exact truthful_enqueue h hticketed
        (hfresh _ ⟨0, choice, rfl, ⟨request, hpc, hmode, hpayload⟩, rfl⟩)
  | insert request id job hpc => exact truthful_insert h hpc
  | erase request response hpc => exact truthful_erase h hserial hpc
  | consume request job hpc =>
      refine h.modify job (fun j => { j with result := {} }) (fun _ => ⟨rfl, rfl⟩) rfl rfl ?_ ?_
      · rcases hpc with hpc | ⟨timeout, hpc⟩ <;> rw [hpc] <;> rfl
      · intro r response hgot
        simp [Pool.consume] at hgot
  | trap => exact ⟨h.entry, h.got⟩
  | stopTest =>
      refine h.move rfl rfl rfl ?_ ?_
      · split <;> rfl
      · split <;> rfl
  | _ => exact h.move rfl rfl rfl rfl rfl

theorem truthful_step (h : p.Truthful) (hserial : p.Serial) (hticketed : p.Ticketed) {l : Label}
    (hl : l.Single) (hfresh : ∀ t, p.Computes l t → p.jobs t = none) (hs : p.step l = some p') :
    p'.Truthful := by
  obtain ⟨-, hs⟩ := step_cases hs
  cases hs with
  | run c request hidle | get c request hidle | deinit c hidle =>
      obtain rfl : c = 0 := hl
      exact h.move rfl rfl rfl rfl rfl
  | caller c choice hc =>
      obtain rfl : c = 0 := hl
      exact truthful_callerStep h hserial hticketed hfresh hc
  | worker i hw =>
      cases hw with
      | publish job status result =>
          exact h.modify job (fun j => { j with status, result, done := true })
            (fun _ => ⟨rfl, rfl⟩) rfl rfl rfl fun _ _ hgot => hgot
      | notify job =>
          refine h.mono (fun t r hjob => ?_) (fun r j hj => ⟨j, hj, rfl⟩) rfl
            fun request response hgot => h.got request response (notified_eq_got.mp hgot)
          simpa only [setWorker_callers, setWorker_jobs, inserts_notified] using hjob
      | _ => exact ⟨h.entry, h.got⟩

end Pool

end InterProcess
