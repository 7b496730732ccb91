import InterProcess.Runner.Lookup
import InterProcess.Runner.Shutdown

/-!
# Signals and blocked workers

`enqueue` pushes a job under `qMtx` and signals after it released the mutex, and a
worker that is awake may take the job before the one that is woken for it. As long as
some worker is blocked, the jobs in the queue are covered all the same: by workers that
are awake and will test the queue, and by signals that are still to be sent. A worker
blocks only when the queue is empty, for it holds the mutex from its test on.
-/

namespace InterProcess

open Transition Counting

def WorkerPc.seeks : WorkerPc → Bool
  | .loopTest | .lock | .waitTest | .woken | .exitTest => true
  | .enterWait | .blocked | .evaluate _ | .publish _ _ _ | .notify _ | .exited => false

def WorkerPc.owns : WorkerPc → Bool
  | .waitTest | .enterWait | .exitTest => true
  | _ => false

/-- The thread has pushed a job and not signalled yet. -/
def CallerPc.signals : CallerPc → Bool
  | .signal _ _ _ => true
  | _ => false

def CallerPc.owns : CallerPc → Bool
  | .push _ _ _ => true
  | _ => false

namespace Pool

variable {p p' : Pool}

/-- The number of workers that are awake and on their way to the queue. -/
def seeking (p : Pool) : ℕ := p.workers.countP WorkerPc.seeks

/-- The number of signals that are still to be sent. -/
noncomputable def unsent (p : Pool) : ℕ := {c | (p.callers c).signals = true}.ncard

/-- The threads that are in the part that `qMtx` guards own it, and a worker that is
about to wait has seen an empty queue. -/
structure Locked (p : Pool) : Prop where
  worker : ∀ i pc, p.WorkerAt i pc → pc.owns = true → p.qMtx = some (.worker i)
  caller : ∀ c, (p.callers c).owns = true → p.qMtx = some (.caller c)
  empty : ∀ i, p.WorkerAt i .enterWait → p.running = true → p.jobQueue = []

theorem locked_start (n : ℕ) : (start n).Locked where
  worker i pc hpc howns := by
    obtain rfl : pc = .loopTest := by
      have := List.mem_of_getElem? hpc
      simp only [start, List.mem_replicate] at this
      exact this.2
    cases howns
  caller c h := by cases h
  empty i h := by
    have := List.mem_of_getElem? h
    simp [start] at this

theorem Locked.moveCaller (h : p.Locked) {c : ℕ} {pc : CallerPc}
    (hcallers : p'.callers = Function.update p.callers c pc)
    (hown : pc.owns = true → p'.qMtx = some (.caller c))
    (hkeep : ∀ o, o ≠ .caller c → p.qMtx = some o → p'.qMtx = some o)
    (hworkers : ∀ i pc, p'.WorkerAt i pc → ∃ old, p.WorkerAt i old ∧
      (pc.owns = true → old.owns = true) ∧ (pc = .enterWait → old = .enterWait))
    (hqueue : ∀ i, p.WorkerAt i .enterWait → p'.running = true →
      p.running = true ∧ (p.jobQueue = [] → p'.jobQueue = [])) : p'.Locked where
  worker i pc' hpc' howns := by
    obtain ⟨old, hold, hback, -⟩ := hworkers i pc' hpc'
    exact hkeep _ (by simp) (h.worker i old hold (hback howns))
  caller d hd := by
    rw [hcallers, Function.update_apply] at hd
    split at hd
    · next heq => exact heq ▸ hown hd
    · next hne => exact hkeep _ (by simpa using hne) (h.caller d hd)
  empty i hi hrun := by
    obtain ⟨old, hold, -, hback⟩ := hworkers i _ hi
    obtain ⟨hrun', hempty⟩ := hqueue i (hback rfl ▸ hold) hrun
    exact hempty (h.empty i (hback rfl ▸ hold) hrun')

theorem Locked.moveWorker (h : p.Locked) {i : ℕ} {pc : WorkerPc}
    (hworkers : p'.workers = p.workers.set i pc)
    (hcallers : ∀ c, (p'.callers c).owns = (p.callers c).owns)
    (hown : pc.owns = true → p'.qMtx = some (.worker i))
    (hkeep : ∀ o, o ≠ .worker i → p.qMtx = some o → p'.qMtx = some o)
    (hrunning : p'.running = p.running)
    (hempty : pc = .enterWait → p'.jobQueue = [])
    (hqueue : p.jobQueue = [] → p'.jobQueue = []) : p'.Locked where
  worker j pc' hpc' howns := by
    rw [WorkerAt, hworkers] at hpc'
    rcases workerAt_set_cases hpc' with ⟨rfl, rfl⟩ | ⟨hne, hold⟩
    · exact hown howns
    · exact hkeep _ (by simpa using hne.symm) (h.worker j pc' hold howns)
  caller c hc := hkeep _ (by simp) (h.caller c (hcallers c ▸ hc))
  empty j hj hrun := by
    rw [WorkerAt, hworkers] at hj
    rcases workerAt_set_cases hj with ⟨rfl, rfl⟩ | ⟨-, hold⟩
    · exact hempty rfl
    · exact hqueue (h.empty j hold (hrunning ▸ hrun))

theorem owns_notified (job : JobRef) (pc : CallerPc) : (pc.notified job).owns = pc.owns :=
  CallerPc.notified_congr CallerPc.owns (fun _ _ => rfl) job pc

theorem signals_notified (job : JobRef) (pc : CallerPc) :
    (pc.notified job).signals = pc.signals :=
  CallerPc.notified_congr CallerPc.signals (fun _ _ => rfl) job pc

theorem locked_workerStep (h : p.Locked) {i : ℕ} (hw : WorkerStep p i p') : p'.Locked := by
  -- a worker that owns the mutex releases nobody else's
  have hrelease : ∀ pc : WorkerPc, p.WorkerAt i pc → pc.owns = true →
      ∀ o, o ≠ .worker i → p.qMtx = some o → none = some o := by
    intro pc hpc howns o hne ho
    exact absurd (Option.some.inj (ho.symm.trans (h.worker i pc hpc howns))) hne
  cases hw with
  | loopTest hpc =>
      refine h.moveWorker rfl (fun _ => rfl) ?_ (fun _ _ ho => ho) rfl ?_ id
      · split <;> simp [WorkerPc.owns]
      · split <;> simp
  | acquire hpc hfree =>
      refine h.moveWorker rfl (fun _ => rfl) (fun _ => rfl) ?_ rfl (by simp) id
      intro o _ ho
      rw [hfree] at ho
      cases ho
  | wait hpc _ hempty =>
      exact h.moveWorker rfl (fun _ => rfl) (fun _ => h.worker i _ hpc rfl) (fun _ _ ho => ho) rfl
        (fun _ => hempty) id
  | leaveWait hpc =>
      exact h.moveWorker rfl (fun _ => rfl) (fun _ => h.worker i _ hpc rfl) (fun _ _ ho => ho) rfl
        (by simp) id
  | enterWait hpc | exit hpc =>
      exact h.moveWorker rfl (fun _ => rfl) (by simp [WorkerPc.owns]) (hrelease _ hpc rfl) rfl
        (by simp) id
  | take hpc job rest hqueue =>
      refine h.moveWorker rfl (fun _ => rfl) (by simp [WorkerPc.owns]) (hrelease _ hpc rfl) rfl
        (by simp) ?_
      intro hempty
      rw [hqueue] at hempty
      cases hempty
  | trap => exact ⟨h.worker, h.caller, h.empty⟩
  | spurious hpc | evaluate _ hpc | publish _ _ _ hpc =>
      exact h.moveWorker rfl (fun _ => rfl) (by simp [WorkerPc.owns]) (fun _ _ ho => ho) rfl
        (by simp) id
  | notify job hpc =>
      exact h.moveWorker rfl (fun c => owns_notified job (p.callers c)) (by simp [WorkerPc.owns])
        (fun _ _ ho => ho) rfl (by simp) id

theorem locked_callerStep (h : p.Locked) {c : ℕ} {choice : Choice}
    (hc : CallerStep p c choice p') : p'.Locked := by
  have hsame : ∀ i pc, p.WorkerAt i pc → ∃ old, p.WorkerAt i old ∧
      (pc.owns = true → old.owns = true) ∧ (pc = .enterWait → old = .enterWait) :=
    fun i pc hpc => ⟨pc, hpc, id, id⟩
  have hnone : ∀ o : Owner, o ≠ .caller c → p.qMtx = some o → p.qMtx = some o := fun _ _ ho => ho
  have hquiet : ∀ i, p.WorkerAt i .enterWait → p.running = true →
      p.running = true ∧ (p.jobQueue = [] → p.jobQueue = []) := fun _ _ hrun => ⟨hrun, id⟩
  cases hc with
  | trap => exact ⟨h.worker, h.caller, h.empty⟩
  | lockQueue request id job hpc hfree =>
      refine h.moveCaller rfl (fun _ => rfl) ?_ hsame hquiet
      intro o _ ho
      rw [hfree] at ho
      cases ho
  | push request id job hpc =>
      have howner : p.qMtx = some (.caller c) := h.caller c (by rw [hpc]; rfl)
      refine h.moveCaller rfl (by simp [CallerPc.owns]) ?_ hsame ?_
      · intro o hne ho
        exact absurd (Option.some.inj (ho.symm.trans howner)) hne
      · -- the thread that pushes owns the mutex, so no worker is about to wait
        intro i hi
        rw [h.worker i _ hi rfl] at howner
        cases howner
  | signal request id job hpc =>
      refine h.moveCaller rfl (by simp [CallerPc.owns]) hnone ?_ hquiet
      intro i pc hpc'
      obtain ⟨old, hold, rfl⟩ : ∃ old, p.WorkerAt i old ∧
          (if i ∈ choice.wake then old.wake else old) = pc := by
        simpa [WorkerAt] using hpc'
      refine ⟨old, hold, ?_, ?_⟩
      · split <;> cases old <;> simp [WorkerPc.wake, WorkerPc.owns]
      · split <;> cases old <;> simp [WorkerPc.wake]
  | stopBroadcast hpc =>
      refine h.moveCaller rfl (by simp [CallerPc.owns]) hnone ?_ hquiet
      intro i pc hpc'
      obtain ⟨old, hold, rfl⟩ : ∃ old, p.WorkerAt i old ∧ old.wake = pc := by
        simpa [WorkerAt] using hpc'
      exact ⟨old, hold, by cases old <;> simp [WorkerPc.wake, WorkerPc.owns],
        by cases old <;> simp [WorkerPc.wake]⟩
  | stopStore hpc =>
      exact h.moveCaller rfl (by simp [CallerPc.owns]) hnone hsame (by rintro _ _ ⟨⟩)
  | stopTest hpc =>
      refine h.moveCaller rfl ?_ hnone hsame hquiet
      split <;> simp [CallerPc.owns]
  | _ => exact h.moveCaller rfl (by simp [CallerPc.owns]) hnone hsame hquiet

theorem locked_step (p : Pool) (l : Label) (p' : Pool) (h : p.Locked)
    (hs : p.step l = some p') : p'.Locked := by
  obtain ⟨-, hs⟩ := step_cases hs
  cases hs with
  | run | get | deinit =>
      exact h.moveCaller rfl (by simp [CallerPc.owns]) (fun _ _ ho => ho)
        (fun i pc hpc => ⟨pc, hpc, id, id⟩) (fun _ _ hrun => ⟨hrun, id⟩)
  | caller c choice hc => exact locked_callerStep h hc
  | worker i hw => exact locked_workerStep h hw

/-- As long as a worker is blocked, the queue is covered. -/
structure Covered (p : Pool) : Prop where
  finite : {c | (p.callers c).signals = true}.Finite
  cover : p.running = true → .blocked ∈ p.workers → p.jobQueue.length ≤ p.seeking + p.unsent

theorem covered_start (n : ℕ) : (start n).Covered where
  finite := by simp [start, CallerPc.signals]
  cover _ h := by simp [start] at h

theorem seeking_setWorker {i : ℕ} {old : WorkerPc} (pc : WorkerPc) (hold : p.WorkerAt i old) :
    (p.setWorker i pc).seeking + old.seeks.toNat = p.seeking + pc.seeks.toNat :=
  countP_set_add _ pc hold

theorem unsent_setCaller (h : p.Covered) (c : ℕ) (pc : CallerPc) :
    (p.setCaller c pc).unsent + (p.callers c).signals.toNat = p.unsent + pc.signals.toNat :=
  ncard_update_add CallerPc.signals h.finite c pc

theorem finite_setCaller (h : p.Covered) (c : ℕ) (pc : CallerPc) :
    {d | ((p.setCaller c pc).callers d).signals = true}.Finite := by
  refine (h.finite.insert c).subset fun d hd => ?_
  rw [Set.mem_ofPred_eq, setCaller_callers, Function.update_apply] at hd
  split at hd
  · next heq => exact Or.inl heq
  · exact Or.inr hd

theorem Covered.moveCaller (h : p.Covered) {c : ℕ} {pc : CallerPc}
    (hcallers : p'.callers = Function.update p.callers c pc) (hworkers : p'.workers = p.workers)
    (hrunning : p'.running = true → p.running = true)
    (hqueue : p'.jobQueue.length + (p.callers c).signals.toNat =
      p.jobQueue.length + pc.signals.toNat) : p'.Covered := by
  have hsame : p'.callers = (p.setCaller c pc).callers := hcallers
  have hunsent : p'.unsent + (p.callers c).signals.toNat = p.unsent + pc.signals.toNat := by
    have := unsent_setCaller h c pc
    rwa [unsent, ← hsame] at this
  have hfinite := finite_setCaller h c pc
  rw [← hsame] at hfinite
  refine ⟨hfinite, fun hrun hblocked => ?_⟩
  have hcover := h.cover (hrunning hrun) (hworkers ▸ hblocked)
  rw [seeking, hworkers, ← seeking]
  omega

theorem Covered.moveWorker (h : p.Covered) {i : ℕ} {old pc : WorkerPc}
    (hold : p.WorkerAt i old) (hworkers : p'.workers = p.workers.set i pc)
    (hcallers : ∀ c, (p'.callers c).signals = (p.callers c).signals)
    (hrunning : p'.running = p.running)
    (hblocked : pc = .blocked → p'.running = true → p'.jobQueue = [])
    (hqueue : p'.running = true → p'.jobQueue = [] ∨
      p'.jobQueue.length + old.seeks.toNat ≤ p.jobQueue.length + pc.seeks.toNat) :
    p'.Covered := by
  have hunsent : p'.unsent = p.unsent := by simp only [unsent, hcallers]
  have hseeking : p'.seeking + old.seeks.toNat = p.seeking + pc.seeks.toNat := by
    have := seeking_setWorker pc hold
    rwa [seeking, setWorker_workers, ← hworkers] at this
  refine ⟨by simpa only [hcallers] using h.finite, fun hrun hmem => ?_⟩
  rcases hqueue hrun with hempty | hle
  · simp [hempty]
  · rw [hworkers] at hmem
    rcases List.mem_or_eq_of_mem_set hmem with hthere | heq
    · have hcover := h.cover (hrunning ▸ hrun) hthere
      omega
    · simp [hblocked heq.symm hrun]

theorem covered_workerStep (h : p.Covered) (hlocked : p.Locked) {i : ℕ}
    (hw : WorkerStep p i p') : p'.Covered := by
  cases hw with
  | loopTest hpc =>
      refine h.moveWorker hpc rfl (fun _ => rfl) rfl ?_ fun hrun => Or.inr ?_
      · split <;> simp
      · have hrunning : p.running = true := hrun
        rw [if_pos hrunning]
        exact Nat.le_refl _
  | acquire hpc =>
      rcases hpc with hpc | hpc <;>
        exact h.moveWorker hpc rfl (fun _ => rfl) rfl (by simp) fun _ => Or.inr (Nat.le_refl _)
  | wait hpc _ hempty =>
      exact h.moveWorker hpc rfl (fun _ => rfl) rfl (by simp) fun _ => Or.inl hempty
  | leaveWait hpc =>
      exact h.moveWorker hpc rfl (fun _ => rfl) rfl (by simp) fun _ => Or.inr (Nat.le_refl _)
  | enterWait hpc =>
      exact h.moveWorker hpc rfl (fun _ => rfl) rfl (fun _ => hlocked.empty i hpc)
        fun _ => Or.inr (Nat.le_refl _)
  | spurious hpc =>
      refine h.moveWorker hpc rfl (fun _ => rfl) rfl (by simp) fun _ => Or.inr ?_
      simp [WorkerPc.seeks]
  | exit hpc hrun hempty =>
      exact h.moveWorker hpc rfl (fun _ => rfl) rfl (by simp) fun _ => Or.inl hempty
  | take hpc job rest hqueue =>
      refine h.moveWorker hpc rfl (fun _ => rfl) rfl (by simp) fun _ => Or.inr ?_
      simp [hqueue, WorkerPc.seeks]
  | trap => exact ⟨h.finite, h.cover⟩
  | evaluate _ hpc | publish _ _ _ hpc =>
      exact h.moveWorker hpc rfl (fun _ => rfl) rfl (by simp) fun _ => Or.inr (Nat.le_refl _)
  | notify job hpc =>
      refine h.moveWorker hpc rfl (fun c => signals_notified job (p.callers c)) rfl (by simp)
        fun _ => Or.inr ?_
      simp [WorkerPc.seeks]

/-- A signal that is sent while a worker is blocked makes one more worker seek. -/
theorem covered_signal (h : p.Covered) {c : ℕ} {request : SubmitRequest} {id : UInt64}
    {job : JobRef} (hpc : p.callers c = .signal request id job) {ws : List ℕ}
    (hok : p.SignalOk ws) (response : SubmitResponse) :
    ((p.signalled ws).setCaller c (.ran request response)).Covered := by
  refine ⟨finite_setCaller h c (.ran request response), fun hrun hmem => ?_⟩
  have hunsent := unsent_setCaller h c (.ran request response)
  rw [hpc] at hunsent
  simp only [CallerPc.signals, Bool.toNat_true, Bool.toNat_false, add_zero] at hunsent
  obtain ⟨i, hi, hblocked⟩ : ∃ i ∈ ws, p.workers[i]? = some .blocked := by
    have hthere : .blocked ∈ p.workers := by
      obtain ⟨k, hk, heq⟩ := List.mem_mapIdx.mp hmem
      split at heq
      · exact absurd heq (wake_ne_blocked _)
      · exact heq ▸ List.getElem_mem hk
    obtain ⟨i, hi⟩ := List.exists_mem_of_ne_nil ws (hok.2 hthere)
    exact ⟨i, hi, hok.1 i hi⟩
  have hseeking : p.seeking < (p.signalled ws).seeking := by
    refine countP_lt_mapIdx WorkerPc.seeks (fun k pc => ?_) hblocked rfl ?_
    · split <;> cases pc <;> simp [WorkerPc.wake, WorkerPc.seeks]
    · simp [hi, WorkerPc.wake, WorkerPc.seeks]
  have hcover := h.cover hrun (List.mem_of_getElem? hblocked)
  change p.jobQueue.length ≤ (p.signalled ws).seeking + (p.setCaller c _).unsent
  omega

theorem covered_callerStep (h : p.Covered) {c : ℕ} {choice : Choice}
    (hc : CallerStep p c choice p') : p'.Covered := by
  cases hc with
  | trap => exact ⟨h.finite, h.cover⟩
  | push request _ job hpc =>
      refine h.moveCaller rfl rfl id ?_
      simp [hpc, CallerPc.signals]
  | signal request id job hpc hok => exact covered_signal h hpc hok _
  | stopStore hpc => exact h.moveCaller rfl rfl (by rintro ⟨⟩) (by rw [hpc]; rfl)
  | stopBroadcast hpc =>
      refine ⟨finite_setCaller h c (.join 0), fun _ hmem => ?_⟩
      obtain ⟨old, -, heq⟩ := List.mem_map.mp hmem
      exact absurd heq (wake_ne_blocked old)
  | stopTest hpc =>
      refine h.moveCaller rfl rfl id ?_
      split <;> simp [hpc, CallerPc.signals]
  | notFinished _ _ hpc | wake _ _ hpc =>
      refine h.moveCaller rfl rfl id ?_
      rcases hpc with hpc | hpc <;> rw [hpc] <;> rfl
  | consume _ _ hpc =>
      refine h.moveCaller rfl rfl id ?_
      rcases hpc with hpc | ⟨timeout, hpc⟩ <;> rw [hpc] <;> rfl
  | blocking _ hpc | refuse _ hpc | enqueue _ hpc | insert _ _ _ hpc | lockQueue _ _ _ hpc
  | ran _ _ hpc | findNone _ hpc | findNoWait _ hpc | findWaitUpTo _ hpc | findBadMode _ hpc
  | block _ _ hpc | erase _ _ hpc | got _ _ hpc | join _ hpc | joined _ hpc | stopped hpc =>
      exact h.moveCaller rfl rfl id (by rw [hpc]; rfl)

theorem covered_step (p : Pool) (l : Label) (p' : Pool) (h : p.Locked ∧ p.Covered)
    (hs : p.step l = some p') : p'.Locked ∧ p'.Covered := by
  refine ⟨locked_step p l p' h.1 hs, ?_⟩
  obtain ⟨-, hs⟩ := step_cases hs
  cases hs with
  | run c _ hidle | get c _ hidle | deinit c hidle =>
      exact h.2.moveCaller rfl rfl id (by rw [hidle]; rfl)
  | caller c choice hc => exact covered_callerStep h.2 hc
  | worker i hw => exact covered_workerStep h.2 h.1 hw

/-- While a worker is blocked and the pool is running, the queue holds no more jobs
than there are workers on their way to it and signals that are still to be sent. So if
it holds any, there is such a worker or such a signal. -/
theorem queue_covered (n : ℕ) (ls : List Label) (p : Pool)
    (hrun : run step (start n) ls = some p) (hrunning : p.running = true)
    (hblocked : .blocked ∈ p.workers) :
    p.jobQueue.length ≤ p.seeking + p.unsent ∧
      (p.jobQueue ≠ [] →
        (∃ pc ∈ p.workers, pc.seeks = true) ∨ ∃ c, (p.callers c).signals = true) := by
  have hcovered := (run_invariant covered_step ⟨locked_start n, covered_start n⟩ hrun).2
  have hcover := hcovered.cover hrunning hblocked
  refine ⟨hcover, fun hne => ?_⟩
  have hlength := List.length_pos_iff.mpr hne
  by_cases hseeking : 0 < p.seeking
  · exact Or.inl (List.countP_pos_iff.mp hseeking)
  · refine Or.inr (Set.nonempty_of_ncard_ne_zero (s := {c | (p.callers c).signals = true}) ?_)
    change p.unsent ≠ 0
    omega

/-- The only worker is blocked, and the signal for the job in the queue is not sent
yet. -/
theorem queue_covered_signal :
    ∃ p, run step (start 1) (List.replicate 4 (.worker 0) ++
        [.run 0 (addRequest 2 3), .caller 0 {}, .caller 0 {}, .caller 0 {}, .caller 0 {}]) =
          some p ∧ p.jobQueue = [0] ∧ p.workers = [.blocked] ∧
      p.jobQueue.length ≤ p.seeking + p.unsent := by
  obtain ⟨p, hp, htest⟩ := exists_of_run_any step (start 1)
    (List.replicate 4 (.worker 0) ++
      [.run 0 (addRequest 2 3), .caller 0 {}, .caller 0 {}, .caller 0 {}, .caller 0 {}])
    (fun p => p.jobQueue = [0] ∧ p.workers = [.blocked] ∧ p.running = true) (by decide)
  simp only [decide_eq_true_eq] at htest
  obtain ⟨hqueue, hworkers, hrunning⟩ := htest
  exact ⟨p, hp, hqueue, hworkers,
    (queue_covered 1 _ p hp hrunning (by rw [hworkers]; exact List.mem_cons_self)).1⟩

end Pool

end InterProcess
