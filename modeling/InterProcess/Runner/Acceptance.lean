import InterProcess.Runner.Lookup

/-!
# Tickets of pushed jobs

`run` answers a non-blocking request with a ticket when `enqueue` has returned, so the
job behind a ticket that was answered is one that `enqueue` has pushed, and its record
holds the request and the ticket.
-/

namespace InterProcess

open Transition

/-- The request that the thread has made a job for, its ticket and the job, until the job
is pushed. -/
def CallerPc.makes : CallerPc → Option (SubmitRequest × UInt64 × JobRef)
  | .insert request id job | .lockQueue request id job | .push request id job =>
      some (request, id, job)
  | _ => none

/-- The request and the ticket that `run` is going to answer. -/
def CallerPc.issues : CallerPc → Option (SubmitRequest × UInt64)
  | .signal request id _ => some (request, id)
  | .ran request response => response.ticket.map fun ticket => (request, ticket.reqId)
  | _ => none

def Event.issued? : Event → Option (SubmitRequest × UInt64)
  | .ran _ request response => response.ticket.map fun ticket => (request, ticket.reqId)
  | _ => none

namespace Pool

variable {p p' : Pool} {n : ℕ}

def IsFor (p : Pool) (job : JobRef) (request : SubmitRequest) (t : UInt64) : Prop :=
  ∃ j : Job, p.heap[job]? = some j ∧ j.id = t ∧ j.req = request

def Accepted (p : Pool) (request : SubmitRequest) (t : UInt64) : Prop :=
  ∃ job ∈ p.pushed, p.IsFor job request t

/-- `run` answers no ticket before it has pushed the job. -/
structure Accepting (p : Pool) : Prop where
  making : ∀ c request t job, (p.callers c).makes = some (request, t, job) → p.IsFor job request t
  issuing : ∀ c request t, (p.callers c).issues = some (request, t) → p.Accepted request t
  issued : ∀ e ∈ p.log, ∀ request t, e.issued? = some (request, t) → p.Accepted request t

theorem accepting_start (n : ℕ) : (start n).Accepting where
  making c request t job h := by cases h
  issuing c request t h := by cases h
  issued e h := by cases h

theorem IsFor.step {l : Label} (hs : p.step l = some p') {job : JobRef} {request : SubmitRequest}
    {t : UInt64} (h : p.IsFor job request t) : p'.IsFor job request t := by
  obtain ⟨j, hj, rfl, rfl⟩ := h
  obtain ⟨j', hj', hkeeps⟩ := record_step hs hj
  exact ⟨j', hj', hkeeps.id, hkeeps.req⟩

theorem log_step {l : Label} (hs : p.step l = some p') : p.log <+: p'.log := by
  obtain ⟨-, hs⟩ := step_cases hs
  cases hs with
  | run | get | deinit => exact List.prefix_refl p.log
  | caller c choice hc =>
      cases hc with
      | enqueue | push | ran | got => exact List.prefix_append p.log _
      | _ => exact List.prefix_refl p.log
  | worker i hw =>
      cases hw with
      | take | evaluate | publish => exact List.prefix_append p.log _
      | _ => exact List.prefix_refl p.log

theorem Accepted.step {l : Label} (hs : p.step l = some p') {request : SubmitRequest} {t : UInt64}
    (h : p.Accepted request t) : p'.Accepted request t := by
  obtain ⟨job, hin, hfor⟩ := h
  exact ⟨job, ((log_step hs).filterMap Event.pushed?).subset hin, hfor.step hs⟩

theorem Accepting.move {l : Label} (h : p.Accepting) (hs : p.step l = some p') {d : ℕ}
    {pc : CallerPc} (hcallers : p'.callers = Function.update p.callers d pc)
    (hlog : ∀ e ∈ p'.log, e ∈ p.log ∨ ∀ request t, e.issued? = some (request, t) →
      p'.Accepted request t)
    (hmakes : ∀ request t job, pc.makes = some (request, t, job) → p'.IsFor job request t)
    (hissues : ∀ request t, pc.issues = some (request, t) → p'.Accepted request t) :
    p'.Accepting where
  making c request t job hc := by
    rw [hcallers, Function.update_apply] at hc
    split at hc
    · exact hmakes request t job hc
    · exact (h.making c request t job hc).step hs
  issuing c request t hc := by
    rw [hcallers, Function.update_apply] at hc
    split at hc
    · exact hissues request t hc
    · exact (h.issuing c request t hc).step hs
  issued e hin request t he := by
    rcases hlog e hin with hold | hnew
    · exact (h.issued e hold request t he).step hs
    · exact hnew request t he

theorem accepting_callerStep (h : p.Accepting) {c : ℕ} {choice : Choice}
    (hs : p.step (.caller c choice) = some p') (hc : CallerStep p c choice p') : p'.Accepting := by
  have hsame : ∀ e ∈ p.log, e ∈ p.log ∨ ∀ request t, e.issued? = some (request, t) →
      p'.Accepted request t := fun _ hin => Or.inl hin
  have hemit : ∀ e : Event, (∀ request t, e.issued? = some (request, t) → p'.Accepted request t) →
      ∀ e' ∈ p.log ++ [e], e' ∈ p.log ∨ ∀ request t, e'.issued? = some (request, t) →
        p'.Accepted request t := by
    intro e he e' hin
    rcases List.mem_append.mp hin with hold | hnew
    · exact Or.inl hold
    · rw [List.mem_singleton.mp hnew]
      exact Or.inr he
  -- the steps from the allocation to the push keep the job, those after it the answer
  have hmaking : ∀ request t job, (p.callers c).makes = some (request, t, job) →
      p'.IsFor job request t := fun request t job hmakes => (h.making c request t job hmakes).step hs
  have hissuing : ∀ request t, (p.callers c).issues = some (request, t) →
      p'.Accepted request t := fun request t hissues => (h.issuing c request t hissues).step hs
  cases hc with
  | trap => exact ⟨h.making, h.issuing, h.issued⟩
  | blocking request hpc hmode response heval =>
      rw [runBlocking_eq, Option.map_eq_some_iff] at heval
      obtain ⟨answer, -, rfl⟩ := heval
      exact h.move hs rfl hsame (by simp [CallerPc.makes]) (by simp [CallerPc.issues])
  | enqueue request hpc =>
      refine h.move hs rfl (hemit _ (by simp [Event.issued?])) (fun r t job hmakes => ?_)
        (by simp [CallerPc.issues])
      obtain ⟨rfl, rfl, rfl⟩ : request = r ∧ ticketId choice.reading p.seq = t ∧
          p.heap.length = job := by simpa [CallerPc.makes] using hmakes
      exact ⟨{ id := ticketId choice.reading p.seq, req := request }, by simp, rfl, rfl⟩
  | insert request id job hpc | lockQueue request id job hpc =>
      rw [hpc] at hmaking
      exact h.move hs rfl hsame hmaking (by simp [CallerPc.issues])
  | push request id job hpc =>
      refine h.move hs rfl (hemit _ (by simp [Event.issued?])) (by simp [CallerPc.makes])
        fun r t hissues => ?_
      obtain ⟨rfl, rfl⟩ : request = r ∧ id = t := by simpa [CallerPc.issues] using hissues
      exact ⟨job, by simp [Pool.pushed, Event.pushed?], hmaking request id job (by rw [hpc]; rfl)⟩
  | signal request id job hpc =>
      rw [hpc] at hissuing
      exact h.move hs rfl hsame (by simp [CallerPc.makes]) hissuing
  | ran request response hpc =>
      rw [hpc] at hissuing
      exact h.move hs rfl (hemit _ hissuing) (by simp [CallerPc.makes]) (by simp [CallerPc.issues])
  | got request response hpc =>
      exact h.move hs rfl (hemit _ (by simp [Event.issued?])) (by simp [CallerPc.makes])
        (by simp [CallerPc.issues])
  | stopTest =>
      refine h.move hs rfl hsame ?_ ?_
      · split <;> simp [CallerPc.makes]
      · split <;> simp [CallerPc.issues]
  | _ => exact h.move hs rfl hsame (by simp [CallerPc.makes]) (by simp [CallerPc.issues])

theorem makes_notified (job : JobRef) (pc : CallerPc) : (pc.notified job).makes = pc.makes :=
  CallerPc.notified_congr CallerPc.makes (fun _ _ => rfl) job pc

theorem issues_notified (job : JobRef) (pc : CallerPc) : (pc.notified job).issues = pc.issues :=
  CallerPc.notified_congr CallerPc.issues (fun _ _ => rfl) job pc

theorem accepting_workerStep (h : p.Accepting) {i : ℕ} (hs : p.step (.worker i) = some p')
    (hw : WorkerStep p i p') : p'.Accepting := by
  have hcallers : ∀ c, (p'.callers c).makes = (p.callers c).makes ∧
      (p'.callers c).issues = (p.callers c).issues := by
    intro c
    cases hw with
    | notify job => exact ⟨makes_notified job _, issues_notified job _⟩
    | _ => exact ⟨rfl, rfl⟩
  have hlog : ∀ e ∈ p'.log, e ∈ p.log ∨ e.issued? = none := by
    intro e hin
    cases hw with
    | take | evaluate | publish =>
        refine (List.mem_append.mp hin).imp id fun hnew => ?_
        rw [List.mem_singleton.mp hnew]
        rfl
    | _ => exact Or.inl hin
  refine ⟨fun c request t job hc => ?_, fun c request t hc => ?_, fun e hin request t he => ?_⟩
  · rw [(hcallers c).1] at hc
    exact (h.making c request t job hc).step hs
  · rw [(hcallers c).2] at hc
    exact (h.issuing c request t hc).step hs
  · rcases hlog e hin with hold | hnone
    · exact (h.issued e hold request t he).step hs
    · rw [hnone] at he
      cases he

theorem accepting_step (p : Pool) (l : Label) (p' : Pool) (h : p.Accepting)
    (hs : p.step l = some p') : p'.Accepting := by
  cases (step_cases hs).2 with
  | run | get | deinit =>
      exact h.move hs rfl (fun _ hin => Or.inl hin) (by simp [CallerPc.makes])
        (by simp [CallerPc.issues])
  | caller c choice hc => exact accepting_callerStep h hs hc
  | worker i hw => exact accepting_workerStep h hs hw

/-- What `run` has answered with a ticket was pushed under that ticket. -/
theorem accepted_of_ran {ls : List Label} (hrun : run step (start n) ls = some p) {c : ℕ}
    {request : SubmitRequest} {response : SubmitResponse} {ticket : Ticket}
    (hran : .ran c request response ∈ p.log) (hticket : response.ticket = some ticket) :
    p.Accepted request ticket.reqId := by
  have haccepting : p.Accepting := run_invariant accepting_step (accepting_start n) hrun
  apply haccepting.issued _ hran
  rw [Event.issued?, hticket, Option.map_some]

end Pool

end InterProcess
