import InterProcess.Library.Servers
import InterProcess.Runner.Termination

/-!
# The order in which jobs are completed

The queue is first in, first out, but a job can be completed before one that was pushed
earlier, since the workers evaluate at their own pace. What a worker holds is the last job
that it took. So of the jobs that were pushed before a completed one, each that is not
completed is held by a worker of its own, and `overtaken_lt` gives the bound: they are
fewer than the workers. A single worker completes the jobs in the order in which they were
pushed.
-/

namespace InterProcess

open Transition Servers

def Event.takenBy? : Event → Option (ℕ × JobRef)
  | .taken i job => some (i, job)
  | _ => none

namespace Pool

variable {n : ℕ} {p p' : Pool}

/-- The jobs taken so far, in order, each with the worker that took it. -/
def takenBy (p : Pool) : List (ℕ × JobRef) := p.log.filterMap Event.takenBy?

theorem map_takenBy (p : Pool) : p.takenBy.map Prod.snd = p.taken := by
  rw [takenBy, taken, List.map_filterMap]
  congr 1
  funext e
  cases e <;> rfl

/-- Every worker that took a job exists, and a worker holds the last job that it took. -/
structure Attributed (p : Pool) : Prop where
  workers : ∀ e ∈ p.takenBy, e.1 < p.workers.length
  last : ∀ i pc job, p.WorkerAt i pc → pc.holds = some job →
    ∃ l₁ l₂, p.takenBy = l₁ ++ (i, job) :: l₂ ∧ ∀ e ∈ l₂, e.1 ≠ i

theorem attributed_start (n : ℕ) : (start n).Attributed where
  workers e he := by simp [takenBy, start] at he
  last i pc job hpc hholds := by
    have hmem := List.mem_of_getElem? hpc
    simp only [start, List.mem_replicate] at hmem
    rw [hmem.2] at hholds
    cases hholds

theorem Attributed.mono (h : p.Attributed) (htaken : p'.takenBy = p.takenBy)
    (hlength : p'.workers.length = p.workers.length)
    (hback : ∀ i pc job, p'.WorkerAt i pc → pc.holds = some job →
      ∃ old, p.WorkerAt i old ∧ old.holds = some job) : p'.Attributed where
  workers e he := hlength ▸ h.workers e (htaken ▸ he)
  last i pc job hpc hholds := by
    obtain ⟨old, hold, holds⟩ := hback i pc job hpc hholds
    exact htaken ▸ h.last i old job hold holds

theorem Attributed.moveWorker (h : p.Attributed) {i : ℕ} {old pc : WorkerPc} (hold : p.WorkerAt i old)
    (hworkers : p'.workers = p.workers.set i pc) (htaken : p'.takenBy = p.takenBy)
    (hholds : ∀ job, pc.holds = some job → old.holds = some job) : p'.Attributed := by
  refine h.mono htaken (by rw [hworkers, List.length_set]) fun j pc' job hpc' hjob => ?_
  rw [WorkerAt, hworkers] at hpc'
  rcases workerAt_set_cases hpc' with ⟨rfl, rfl⟩ | ⟨-, hpc'⟩
  · exact ⟨old, hold, hholds job hjob⟩
  · exact ⟨pc', hpc', hjob⟩

theorem attributed_take (h : p.Attributed) {i : ℕ} (hpc : p.WorkerAt i .exitTest) (job : JobRef)
    (rest : List JobRef) :
    ((setWorker { p with qMtx := none, jobQueue := rest } i (.evaluate job)).emit
      (.taken i job)).Attributed := by
  set p' := (setWorker { p with qMtx := none, jobQueue := rest } i (.evaluate job)).emit
    (.taken i job) with hp'
  have htaken : p'.takenBy = p.takenBy ++ [(i, job)] := by
    simp [hp', takenBy, Event.takenBy?]
  have hworkers : p'.workers = p.workers.set i (.evaluate job) := rfl
  refine ⟨fun e he => ?_, fun j pc r hpc' hholds => ?_⟩
  · rw [hworkers, List.length_set]
    rw [htaken, List.mem_append, List.mem_singleton] at he
    rcases he with he | rfl
    · exact h.workers e he
    · exact hpc.lt
  · rw [WorkerAt, hworkers] at hpc'
    rcases workerAt_set_cases hpc' with ⟨rfl, rfl⟩ | ⟨hij, hold⟩
    · obtain rfl : job = r := Option.some.inj hholds
      exact ⟨p.takenBy, [], htaken, by simp⟩
    · obtain ⟨l₁, l₂, hlast, hnone⟩ := h.last j pc r hold hholds
      refine ⟨l₁, l₂ ++ [(i, job)], by rw [htaken, hlast, List.append_assoc, List.cons_append], ?_⟩
      intro e he
      rcases List.mem_append.mp he with he | he
      · exact hnone e he
      · rw [List.mem_singleton.mp he]
        exact hij

theorem attributed_workerStep (h : p.Attributed) {i : ℕ} (hw : WorkerStep p i p') : p'.Attributed := by
  cases hw with
  | loopTest hpc =>
      refine h.moveWorker hpc rfl rfl fun job hjob => ?_
      split at hjob <;> cases hjob
  | acquire hpc =>
      rcases hpc with hpc | hpc <;> exact h.moveWorker hpc rfl rfl nofun
  | take hpc job rest => exact attributed_take h hpc job rest
  | trap => exact h.mono rfl rfl fun i pc job hpc hholds => ⟨pc, hpc, hholds⟩
  | evaluate job hpc =>
      exact h.moveWorker hpc rfl (by simp [takenBy, Event.takenBy?]) fun _ hjob => hjob
  | publish job status result hpc =>
      exact h.moveWorker hpc rfl (by simp [takenBy, Event.takenBy?]) nofun
  | wait hpc | leaveWait hpc | enterWait hpc | spurious hpc | exit hpc | notify _ hpc =>
      exact h.moveWorker hpc rfl rfl nofun

theorem attributed_callerStep (h : p.Attributed) {c : ℕ} {choice : Choice}
    (hc : CallerStep p c choice p') : p'.Attributed := by
  have hsame : ∀ i pc job, p.WorkerAt i pc → pc.holds = some job →
      ∃ old, p.WorkerAt i old ∧ old.holds = some job :=
    fun _ pc _ hpc hholds => ⟨pc, hpc, hholds⟩
  cases hc with
  | signal =>
      refine h.mono rfl List.length_mapIdx fun i pc job hpc hholds => ?_
      obtain ⟨old, hold, rfl⟩ : ∃ old, p.WorkerAt i old ∧
          (if i ∈ choice.wake then old.wake else old) = pc := by simpa [WorkerAt] using hpc
      refine ⟨old, hold, ?_⟩
      split at hholds
      · rwa [holds_wake] at hholds
      · exact hholds
  | stopBroadcast =>
      refine h.mono rfl (List.length_map _) fun i pc job hpc hholds => ?_
      obtain ⟨old, hold, rfl⟩ : ∃ old, p.WorkerAt i old ∧ old.wake = pc := by
        simpa [WorkerAt] using hpc
      exact ⟨old, hold, holds_wake old ▸ hholds⟩
  | enqueue | push | ran | got => exact h.mono (by simp [takenBy, Event.takenBy?]) rfl hsame
  | _ => exact h.mono rfl rfl hsame

theorem attributed_step (p : Pool) (l : Label) (p' : Pool) (h : p.Attributed)
    (hs : p.step l = some p') : p'.Attributed := by
  obtain ⟨-, hs⟩ := step_cases hs
  cases hs with
  | run | get | deinit => exact h.mono rfl rfl fun i pc job hpc hholds => ⟨pc, hpc, hholds⟩
  | caller c choice hc => exact attributed_callerStep h hc
  | worker i hw => exact attributed_workerStep h hw

/-- The workers serve the queue. -/
theorem account_of_attributed (h : p.Attributed) (hconserved : p.Conserved) :
    Account p.pushed p.takenBy p.jobQueue (p.workers.map WorkerPc.holds) p.isDone where
  nodup := hconserved.nodup
  order := by rw [map_takenBy, hconserved.order]
  waiting job hjob := by
    have haccount := hconserved.account job
    have hle := hconserved.pushed_count_le job
    have hpos := List.count_pos_iff.mpr hjob
    cases hdone : p.isDone job with
    | false => rfl
    | true =>
        rw [hdone, Bool.toNat_true] at haccount
        omega
  inHand job hjob hdone := by
    have haccount := hconserved.account job
    have hnodup := List.nodup_append.mp (hconserved.order ▸ hconserved.nodup)
    rw [map_takenBy] at hjob
    have hqueue : p.jobQueue.count job = 0 :=
      List.count_eq_zero.mpr fun hmem => hnodup.2.2 job hjob job hmem rfl
    have hpushed : 0 < p.pushed.count job := by
      rw [hconserved.order]
      exact List.count_pos_iff.mpr (List.mem_append_left _ hjob)
    rw [hqueue, hdone, Bool.toNat_false] at haccount
    obtain ⟨pc, hpc, hholds⟩ := List.countP_pos_iff.mp (show 0 < p.heldCount job by omega)
    exact List.mem_map.mpr ⟨pc, hpc, by simpa using hholds⟩
  servers e he := by
    rw [List.length_map]
    exact h.workers e he
  last i job hi := by
    rw [List.getElem?_map, Option.map_eq_some_iff] at hi
    obtain ⟨pc, hpc, hholds⟩ := hi
    exact h.last i pc job hpc hholds

/-- A completed job has overtaken fewer jobs than there are workers. -/
theorem completed_overtakes_lt (n : ℕ) (ls : List Label) (p : Pool)
    (hrun : run step (start n) ls = some p) (before after : List JobRef) (job : JobRef)
    (hpushed : p.pushed = before ++ job :: after) (hdone : p.isDone job = true) :
    before.countP (fun earlier => !p.isDone earlier) < n := by
  have hattributed : p.Attributed := run_invariant attributed_step (attributed_start n) hrun
  have hlength : p.workers.length = n := run_invariant length_step List.length_replicate hrun
  have hlt := (account_of_attributed hattributed (conserved_of_run hrun)).overtaken_lt hpushed hdone
  rwa [List.length_map, hlength] at hlt

/-- One of two workers is slow, and the second job is completed before the first. -/
theorem completed_overtakes_first :
    ∃ p, run step (start 2) (twoJobsSchedule.take 14 ++ List.replicate 4 (.worker 0) ++
        List.replicate 6 (.worker 1)) = some p ∧ p.pushed = [0] ++ 1 :: [] ∧
      p.isDone 0 = false ∧ p.isDone 1 = true ∧
      [0].countP (fun earlier => !p.isDone earlier) < 2 := by
  obtain ⟨p, hp, htest⟩ := exists_of_run_any step (start 2)
    (twoJobsSchedule.take 14 ++ List.replicate 4 (.worker 0) ++ List.replicate 6 (.worker 1))
    (fun p => p.pushed = [0, 1] ∧ p.isDone 0 = false ∧ p.isDone 1 = true) (by decide)
  simp only [decide_eq_true_eq] at htest
  obtain ⟨hpushed, hslow, hdone⟩ := htest
  exact ⟨p, hp, hpushed, hslow, hdone, completed_overtakes_lt 2 _ p hp [0] [] 1 hpushed hdone⟩

end Pool

end InterProcess
