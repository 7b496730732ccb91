import InterProcess.Runner.Store

/-!
# What a record holds

A record is as it was made until a worker publishes into it, and what is published is
what `evaluate` computes. A call of `get` swaps the result out before it erases the
ticket, in two sections of different mutexes, so with several calling threads a record
that can still be found under its ticket may have lost its result. `Intact` says when
it has not: no thread is between the two sections for that ticket.
-/

namespace InterProcess

open Transition

namespace Pool

variable {p p' : Pool}

/-- A record that is not done is as it was made. -/
def Blank (p : Pool) : Prop :=
  ∀ (job : JobRef) (j : Job), p.heap[job]? = some j → j.done = false →
    j.status = .stNotFinished ∧ j.result = {}

/-- A done record that is found under a ticket holds the status and the result of its
request, if no thread is about to erase that ticket. -/
def Intact (p : Pool) : Prop :=
  ∀ (t : UInt64) (job : JobRef) (j : Job), p.jobs t = some job → p.heap[job]? = some j →
    j.done = true → (∀ c, (p.callers c).erases ≠ some t) →
      evaluate j.req = some (j.status, j.result)

theorem blank_start (n : ℕ) : (start n).Blank := by
  intro job j hj
  simp [start] at hj

theorem intact_start (n : ℕ) : (start n).Intact := by
  intro t job j hjob
  simp [start] at hjob

theorem Conserved.not_done_of_enqueues (h : p.Conserved) {c : ℕ} {job : JobRef}
    (hc : (p.callers c).enqueues = some job) : p.isDone job = false := by
  have haccount := h.account job
  have hnot : p.pushed.count job = 0 := List.count_eq_zero.mpr (h.enqueuing c job hc).2
  cases hdone : p.isDone job with
  | false => rfl
  | true =>
      rw [hdone, Bool.toNat_true] at haccount
      omega

theorem isDone_eq_of_record {job : JobRef} {j : Job} (hj : p.heap[job]? = some j) :
    p.isDone job = j.done := by
  rw [isDone, hj, Option.any_some]

theorem Blank.congr (h : p.Blank) (hheap : p'.heap = p.heap) : p'.Blank := by
  unfold Blank
  rw [hheap]
  exact h

theorem Blank.modify (h : p.Blank) (job : JobRef) (f : Job → Job)
    (hheap : p'.heap = p.heap.modify job f)
    (hf : ∀ j, p.heap[job]? = some j → (f j).done = true) : p'.Blank := by
  intro r j hj hdone
  rw [hheap] at hj
  obtain ⟨j₀, hj₀, ⟨rfl, rfl⟩ | ⟨-, rfl⟩⟩ := record_modify_cases hj
  · rw [hf j₀ hj₀] at hdone
    cases hdone
  · exact h r _ hj₀ hdone

theorem blank_step (p : Pool) (l : Label) (p' : Pool) (h : p.Blank) (hs : p.step l = some p') :
    p'.Blank := by
  obtain ⟨-, hs⟩ := step_cases hs
  cases hs with
  | run | get | deinit => exact h
  | caller c choice hc =>
      cases hc with
      | enqueue request =>
          intro job j hj hdone
          simp only [emit_heap, setCaller_heap, allocate_heap, List.getElem?_append] at hj
          split at hj
          · exact h job j hj hdone
          · obtain rfl := List.mem_singleton.mp (List.mem_of_getElem? hj)
            exact ⟨rfl, rfl⟩
      | consume request job hpc j hj hdone =>
          refine h.modify job (fun j => { j with result := {} }) rfl fun j' hj' => ?_
          rw [hj] at hj'
          exact Option.some.inj hj' ▸ hdone
      | _ => exact h
  | worker i hw =>
      cases hw with
      | publish job status result =>
          exact h.modify job (fun j => { j with status, result, done := true }) rfl fun _ _ => rfl
      | _ => exact h

theorem Intact.congr (h : p.Intact) (hheap : p'.heap = p.heap) (hjobs : p'.jobs = p.jobs)
    (herases : ∀ c, (p'.callers c).erases = (p.callers c).erases) : p'.Intact := by
  intro t job j hjob hj hdone hfree
  refine h t job j (hjobs ▸ hjob) (hheap ▸ hj) hdone fun c => ?_
  rw [← herases c]
  exact hfree c

theorem Intact.move (h : p.Intact) {c : ℕ} {pc : CallerPc} (hheap : p'.heap = p.heap)
    (hjobs : p'.jobs = p.jobs) (hcallers : p'.callers = Function.update p.callers c pc)
    (hnew : pc.erases = none) (hold : (p.callers c).erases = none) : p'.Intact := by
  refine h.congr hheap hjobs fun d => ?_
  rw [hcallers, Function.update_apply]
  split
  · next hd => rw [hd, hnew, hold]
  · rfl

theorem erases_update {callers : ℕ → CallerPc} {c d : ℕ} {pc : CallerPc} {t : UInt64}
    (hc : (callers c).erases ≠ some t) (hd : (callers d).erases = some t) :
    (Function.update callers c pc d).erases = some t := by
  have hdc : d ≠ c := by
    rintro rfl
    exact hc hd
  rwa [Function.update_of_ne hdc]

theorem intact_enqueue (h : p.Intact) (hticketed : p.Ticketed) {c : ℕ} {request : SubmitRequest}
    (hpc : p.callers c = .run request) (id reading : UInt64) :
    (((p.allocate request id).setCaller c (.insert request id p.heap.length)).emit
      (.enqueued reading)).Intact := by
  intro t job j hjob hj hdone hfree
  have hlt : job < p.heap.length := by
    obtain ⟨j', hj', -⟩ := hticketed.entry t job hjob
    exact (List.getElem?_eq_some_iff.mp hj').1
  rw [emit_heap, setCaller_heap, allocate_heap, List.getElem?_append_left hlt] at hj
  refine h t job j hjob hj hdone fun d hd => hfree d (erases_update ?_ hd)
  simp [hpc, CallerPc.erases]

theorem intact_insert (h : p.Intact) (hconserved : p.Conserved) {c : ℕ} {request : SubmitRequest}
    {id : UInt64} {job : JobRef} (hpc : p.callers c = .insert request id job) :
    (setCaller { p with jobs := p.jobs.insert id job } c (.lockQueue request id job)).Intact := by
  intro t r j hr hj hdone hfree
  simp only [setCaller_jobs, Table.insert_apply] at hr
  split at hr
  · -- the new entry is of a job that is not done
    obtain rfl : job = r := Option.some.inj hr
    have hnot : p.isDone job = false := hconserved.not_done_of_enqueues (c := c) (by rw [hpc]; rfl)
    have hrecord : p.heap[job]? = some j := hj
    rw [isDone_eq_of_record hrecord, hdone] at hnot
    cases hnot
  · refine h t r j hr hj hdone fun d hd => hfree d (erases_update ?_ hd)
    simp [hpc, CallerPc.erases]

theorem intact_consume (h : p.Intact) (hticketed : p.Ticketed) {c : ℕ} {request : GetRequest}
    {job : JobRef} (hreads : (p.callers c).reads = some (request.reqId, job)) (j : Job) :
    (p.consume c request job j).Intact := by
  intro t r j' hr hj' hdone hfree
  have hne : request.reqId ≠ t := by
    simpa [Pool.consume, CallerPc.erases] using hfree c
  have hother : job ≠ r := by
    rintro rfl
    exact hne ((hticketed.reading c _ job hreads).id_unique (hticketed.entry t job hr))
  have hsame : p.heap[r]? = some j' := by simpa [Pool.consume, hother] using hj'
  refine h t r j' hr hsame hdone fun d hd => hfree d (erases_update ?_ hd)
  cases hpc : p.callers c <;> simp_all [CallerPc.reads, CallerPc.erases]

theorem intact_erase (h : p.Intact) {c : ℕ} {request : GetRequest} {response : GetResponse}
    (hpc : p.callers c = .erase request response) :
    (setCaller { p with jobs := p.jobs.erase request.reqId } c (.got request response)).Intact := by
  intro t job j hjob hj hdone hfree
  obtain ⟨hne, hold⟩ := Table.of_erase_eq_some hjob
  refine h t job j hold hj hdone fun d hd => hfree d (erases_update ?_ hd)
  simpa [hpc, CallerPc.erases] using hne.symm

theorem intact_publish (h : p.Intact) (hcomputed : p.Computed) {i : ℕ}
    {job : JobRef} {status : Status} {result : Result}
    (hpc : p.WorkerAt i (.publish job status result)) :
    (((p.publish job status result).setWorker i (.notify job)).emit (.published job)).Intact := by
  intro t r j' hr hj' hdone hfree
  obtain ⟨j₀, hj₀, ⟨rfl, rfl⟩ | ⟨-, rfl⟩⟩ := record_modify_cases hj'
  · obtain ⟨j₁, hj₁, heval⟩ := hcomputed i job status result hpc
    obtain rfl : j₀ = j₁ := Option.some.inj (hj₀.symm.trans hj₁)
    exact heval
  · exact h t r _ hr hj₀ hdone hfree

theorem intact_callerStep (h : p.Intact) (hticketed : p.Ticketed) (hconserved : p.Conserved)
    {c : ℕ} {choice : Choice} (hc : CallerStep p c choice p') : p'.Intact := by
  cases hc with
  | enqueue request hpc => exact intact_enqueue h hticketed hpc _ _
  | insert request id job hpc => exact intact_insert h hconserved hpc
  | erase request response hpc => exact intact_erase h hpc
  | trap => exact h
  | consume request job hpc j =>
      refine intact_consume h hticketed ?_ j
      rcases hpc with hpc | ⟨timeout, hpc⟩ <;> rw [hpc] <;> rfl
  | notFinished request job hpc | wake request job hpc =>
      refine h.move rfl rfl rfl rfl ?_
      rcases hpc with hpc | hpc <;> rw [hpc] <;> rfl
  | stopTest hpc =>
      refine h.move rfl rfl rfl ?_ (by rw [hpc]; rfl)
      split <;> rfl
  | blocking _ hpc | refuse _ hpc | lockQueue _ _ _ hpc | push _ _ _ hpc | signal _ _ _ hpc
  | ran _ _ hpc | findNone _ hpc | findNoWait _ hpc | findWaitUpTo _ hpc | findBadMode _ hpc
  | block _ _ hpc | got _ _ hpc | stopStore hpc | stopBroadcast hpc | join _ hpc | joined _ hpc
  | stopped hpc =>
      exact h.move rfl rfl rfl rfl (by rw [hpc]; rfl)

/-- What holds of the records in every reachable pool. -/
structure Recorded (p : Pool) : Prop where
  ticketed : p.Ticketed
  conserved : p.Conserved
  computed : p.Computed
  blank : p.Blank
  intact : p.Intact

theorem recorded_start (n : ℕ) : (start n).Recorded :=
  ⟨ticketed_start n, conserved_start n, computed_start n, blank_start n, intact_start n⟩

theorem recorded_step (p : Pool) (l : Label) (p' : Pool) (h : p.Recorded)
    (hs : p.step l = some p') : p'.Recorded := by
  refine ⟨ticketed_step p l p' h.ticketed hs, conserved_step p l p' h.conserved hs,
    computed_step p l p' h.computed hs, blank_step p l p' h.blank hs, ?_⟩
  obtain ⟨-, hs⟩ := step_cases hs
  cases hs with
  | run c _ hidle | get c _ hidle | deinit c hidle =>
      exact h.intact.move rfl rfl rfl rfl (by rw [hidle]; rfl)
  | caller c choice hc => exact intact_callerStep h.intact h.ticketed h.conserved hc
  | worker i hw =>
      cases hw with
      | publish job status result hpc =>
          exact intact_publish h.intact h.computed hpc
      | notify job =>
          exact h.intact.congr rfl rfl fun c => erases_notified job (p.callers c)
      | _ => exact h.intact

theorem recorded_of_run {n : ℕ} {ls : List Label} (h : run step (start n) ls = some p) :
    p.Recorded := run_invariant recorded_step (recorded_start n) h

end Pool

end InterProcess
