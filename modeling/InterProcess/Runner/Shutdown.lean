import InterProcess.Runner.Step

/-!
# Shutdown and the waiting workers

`deinit` stores `running = false` and broadcasts on `qCv` without holding
`qMtx`, so the broadcast can fall between a worker's test of the wait predicate
and its call of `pthread_cond_wait`. That worker blocks afterwards and nobody
wakes it. `shutdown_strands_iff` says that this is the only way: the broadcast of
`deinit` leaves no worker blocked for good exactly when no worker is in that
window. `Drained` is the invariant that holds from such a broadcast on.
-/

namespace InterProcess

open Transition

namespace Pool

/-- Once `deinit` is at its broadcast the flag is down. -/
def StopStored (p : Pool) : Prop := ∀ c, p.callers c = .stopBroadcast → p.running = false

theorem stopStored_start (n : ℕ) : (start n).StopStored := by
  intro c h
  simp [start] at h

theorem notified_eq_stopBroadcast {job : JobRef} {pc : CallerPc} :
    pc.notified job = .stopBroadcast ↔ pc = .stopBroadcast := by
  cases pc <;> simp [CallerPc.notified]
  split <;> simp

theorem stopStored_step (p : Pool) (l : Label) (p' : Pool) (h : p.StopStored)
    (hs : p.step l = some p') : p'.StopStored := by
  obtain ⟨-, hs⟩ := step_cases hs
  intro d hd
  cases hs with
  | run c request hidle | get c request hidle | deinit c hidle =>
      rcases setCaller_callers_eq_iff.mp hd with ⟨-, hpc⟩ | ⟨-, hpc⟩
      · simp at hpc
      · exact h d hpc
  | caller c choice hc =>
      cases hc with
      | stopStore => rfl
      | trap => exact h d hd
      | stopTest hpc =>
          rcases setCaller_callers_eq_iff.mp hd with ⟨-, hpc⟩ | ⟨-, hpc⟩
          · split at hpc <;> simp at hpc
          · exact h d hpc
      | _ =>
          rcases setCaller_callers_eq_iff.mp hd with ⟨-, hpc⟩ | ⟨-, hpc⟩
          · simp at hpc
          · exact h d hpc
  | worker i hw =>
      cases hw with
      | notify job hpc => exact h d (notified_eq_stopBroadcast.mp hd)
      | _ => exact h d hd

/-- The flag is down, and no worker is blocked on `qCv` or about to block. -/
structure Drained (p : Pool) : Prop where
  flag : p.running = false
  awake : ∀ pc ∈ p.workers, pc ≠ .enterWait ∧ pc ≠ .blocked

theorem wake_ne_blocked (pc : WorkerPc) : pc.wake ≠ .blocked := by
  cases pc <;> simp [WorkerPc.wake]

theorem wake_eq_enterWait {pc : WorkerPc} : pc.wake = .enterWait ↔ pc = .enterWait := by
  cases pc <;> simp [WorkerPc.wake]

theorem Drained.setWorker {p : Pool} (h : p.Drained) {i : ℕ} {pc : WorkerPc}
    (hpc : pc ≠ .enterWait ∧ pc ≠ .blocked) : (p.setWorker i pc).Drained where
  flag := h.flag
  awake pc' hmem := by
    rcases List.mem_or_eq_of_mem_set hmem with hold | rfl
    · exact h.awake pc' hold
    · exact hpc

theorem drained_step (p : Pool) (l : Label) (p' : Pool) (h : p.Drained)
    (hs : p.step l = some p') : p'.Drained := by
  obtain ⟨-, hs⟩ := step_cases hs
  cases hs with
  | run | get | deinit => exact ⟨h.flag, h.awake⟩
  | caller c choice hc =>
      cases hc with
      | stopStore => exact ⟨rfl, h.awake⟩
      | signal request id job hpc hok =>
          refine ⟨h.flag, ?_⟩
          intro pc hmem
          obtain ⟨i, hi, rfl⟩ := List.mem_mapIdx.mp hmem
          have hold := h.awake _ (List.getElem_mem hi)
          split
          · exact ⟨wake_eq_enterWait.not.mpr hold.1, wake_ne_blocked _⟩
          · exact hold
      | stopBroadcast =>
          refine ⟨h.flag, ?_⟩
          intro pc hmem
          obtain ⟨old, hold, rfl⟩ := List.mem_map.mp hmem
          exact ⟨wake_eq_enterWait.not.mpr (h.awake old hold).1, wake_ne_blocked old⟩
      | _ => exact ⟨h.flag, h.awake⟩
  | worker i hw =>
      have hmem : ∀ {pc}, p.workers[i]? = some pc → pc ∈ p.workers :=
        fun hpc => List.mem_of_getElem? hpc
      cases hw with
      | loopTest => exact h.setWorker (by simp [h.flag])
      | wait hpc hrun => simp [h.flag] at hrun
      | enterWait hpc => exact absurd rfl (h.awake _ (hmem hpc)).1
      | trap => exact ⟨h.flag, h.awake⟩
      | _ => exact ⟨h.flag, (h.setWorker (by simp)).awake⟩

/-- A broadcast that finds no worker in the window drains the pool. -/
theorem drained_of_broadcast {p : Pool} {c : ℕ} (hflag : p.running = false)
    (hwindow : ∀ i, ¬ p.WorkerAt i .enterWait) :
    (setCaller { p with workers := p.workers.map WorkerPc.wake } c (.join 0)).Drained where
  flag := hflag
  awake pc hmem := by
    obtain ⟨old, hold, rfl⟩ := List.mem_map.mp hmem
    obtain ⟨i, hi⟩ := List.mem_iff_getElem?.mp hold
    refine ⟨wake_eq_enterWait.not.mpr ?_, wake_ne_blocked old⟩
    rintro rfl
    exact hwindow i hi

/-- The broadcast of `deinit` leaves no worker blocked in `pthread_cond_wait`,
in any state reached afterwards, exactly when it finds no worker between a true
wait predicate and its call of `pthread_cond_wait`. -/
theorem shutdown_wakes_all_iff (n : ℕ) (ls : List Label) (p p' : Pool) (c : ℕ)
    (choice : Choice) (hrun : run step (start n) ls = some p)
    (hpc : p.callers c = .stopBroadcast)
    (hstep : p.step (.caller c choice) = some p') :
    (∀ ms q, run step p' ms = some q → ∀ i, ¬ q.WorkerAt i .blocked) ↔
      ∀ i, ¬ p.WorkerAt i .enterWait := by
  have hflag : p.running = false := run_invariant stopStored_step (stopStored_start n) hrun c hpc
  have hp' : p' = setCaller { p with workers := p.workers.map WorkerPc.wake } c (.join 0) := by
    obtain ⟨-, hs⟩ := step_cases hstep
    cases hs with
    | caller _ _ hc => cases hc <;> simp_all
  have htrap : p.trapped = false := (step_cases hstep).1
  constructor
  · intro hwakes i hi
    -- the worker in the window is not woken by the broadcast and blocks next
    have hi' : p'.workers[i]? = some .enterWait := by
      simp [hp', hi, WorkerPc.wake]
    have hblock : p'.step (.worker i) =
        some (setWorker { p' with qMtx := none } i .blocked) := by
      have htrap' : p'.trapped = false := by rw [hp']; exact htrap
      simp [step, htrap', workerStep, hi']
    refine hwakes [.worker i] _ (by rw [run_singleton, hblock]) i ?_
    have hlt : i < p'.workers.length := WorkerAt.lt hi'
    simp [WorkerAt, hlt]
  · intro hwindow ms q hq i hi
    have hdrained : q.Drained :=
      run_invariant drained_step (hp' ▸ drained_of_broadcast hflag hwindow) hq
    exact (hdrained.awake _ (List.mem_of_getElem? hi)).2 rfl

/-- A schedule of one worker and `deinit` in which the broadcast falls into the
window. -/
def strandingSchedule : List Label :=
  [.worker 0, .worker 0, .worker 0, .deinit 0, .caller 0 {}, .caller 0 {}, .caller 0 {},
    .worker 0]

/-- The worker is blocked un-woken while `deinit` joins it. -/
theorem shutdown_strands_worker :
    (run step (start 1) strandingSchedule).map
        (fun p => (p.running, p.callers 0, p.workers, p.trapped)) =
      some (false, .join 0, [.blocked], false) := by
  decide

/-- When the worker is already blocked, the broadcast of `deinit` wakes it. -/
theorem shutdown_wakes_blocked_worker :
    ∃ p p', run step (start 1) [.worker 0, .worker 0, .worker 0, .worker 0, .deinit 0,
        .caller 0 {}, .caller 0 {}] = some p ∧ p.step (.caller 0 {}) = some p' ∧
      p.WorkerAt 0 .blocked ∧
      ∀ ms q, run step p' ms = some q → ∀ i, ¬ q.WorkerAt i .blocked := by
  obtain ⟨p, hp, htest⟩ := exists_of_run_any step (start 1)
    [.worker 0, .worker 0, .worker 0, .worker 0, .deinit 0, .caller 0 {}, .caller 0 {}]
    (fun p => p.callers 0 = .stopBroadcast ∧ p.workers = [.blocked] ∧
      (p.step (.caller 0 {})).isSome) (by decide)
  simp only [decide_eq_true_eq, Option.isSome_iff_exists] at htest
  obtain ⟨hpc, hworkers, p', hp'⟩ := htest
  refine ⟨p, p', hp, hp', by simp [WorkerAt, hworkers], ?_⟩
  refine (shutdown_wakes_all_iff 1 _ p p' 0 {} hp hpc hp').mpr ?_
  intro i
  rcases i with _ | i <;> simp [WorkerAt, hworkers]

end Pool

end InterProcess
