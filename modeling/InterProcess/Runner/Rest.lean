import InterProcess.Runner.Completion
import InterProcess.Runner.Termination

/-!
# A pool without new calls comes to rest

When no call begins any more the workers empty the queue and block. `cost` bounds the steps
that are left: a job in the queue costs the way around the loop of the worker that will take
it, and a signal that is still to be sent costs the steps of the workers that it may wake.
Every step lowers it, but for the wakeups that nobody has caused. So every run ends, and
where nothing can move any more the queue is empty, all workers are blocked and every pushed
job is done.
-/

namespace InterProcess

open Transition Counting

/-- A bound on the steps that a worker has left before it blocks, if the queue is empty. -/
def WorkerPc.cost : WorkerPc → ℕ
  | .blocked | .exited => 0
  | .enterWait | .exitTest => 1
  | .waitTest => 2
  | .lock | .woken => 3
  | .loopTest => 4
  | .notify _ => 7
  | .publish _ _ _ => 8
  | .evaluate _ => 9

theorem WorkerPc.cost_le (pc : WorkerPc) : pc.cost ≤ 9 := by
  cases pc <;> simp [cost]

theorem WorkerPc.cost_wake_le (pc : WorkerPc) : pc.wake.cost ≤ pc.cost + 3 := by
  cases pc <;> simp [cost, wake]

/-- The same for a thread in `run` or `get`, with the job that it will push and the workers
that its signal may wake. -/
def CallerPc.cost (n : ℕ) : CallerPc → ℕ
  | .ran _ _ | .got _ _ => 1
  | .erase _ _ => 2
  | .noWait _ _ | .waitUpTo _ _ true => 3
  | .cvBlocked _ _ => 4
  | .waitUpTo _ _ false => 5
  | .find _ | .cvNotified _ _ => 6
  | .signal _ _ _ => 3 * n + 2
  | .push _ _ _ => 3 * n + 12
  | .lockQueue _ _ _ => 3 * n + 13
  | .insert _ _ _ => 3 * n + 14
  | .run _ => 3 * n + 15
  | .idle | .stopTest | .stopStore | .stopBroadcast | .join _ | .stopped => 0

theorem CallerPc.cost_le (n : ℕ) (pc : CallerPc) : pc.cost n ≤ 3 * n + 15 := by
  cases pc with
  | waitUpTo request job timeout =>
      cases timeout with
      | false => simp only [cost]; omega
      | true => simp only [cost]; omega
  | _ => simp only [cost]; omega

theorem CallerPc.cost_notified_le (n : ℕ) (job : JobRef) (pc : CallerPc) :
    (pc.notified job).cost n ≤ pc.cost n + 2 := by
  cases pc with
  | cvBlocked request j =>
      simp only [notified]
      split <;> simp [cost]
  | _ => exact Nat.le_add_right _ 2

theorem CallerPc.notified_eq_idle {job : JobRef} {pc : CallerPc} :
    pc.notified job = .idle ↔ pc = .idle := by
  cases pc <;> simp [notified]
  split <;> simp

namespace Pool

variable {n : ℕ} {p p' : Pool} {c : ℕ}

/-- No call begins with the step, and it is no spurious wakeup, neither of a worker nor of a
thread in `pthread_cond_timedwait`. -/
structure Caused (p : Pool) (l : Label) : Prop where
  unforced : p.Unforced l
  timeout : ∀ c choice request job, l = .caller c choice → p.callers c = .cvBlocked request job →
    choice.timedOut = true

structure Attended (n : ℕ) (p : Pool) : Prop where
  reached : ∃ ls, run step (start n) ls = some p
  alone : p.Alone
  running : p.running = true
  calling : p.callers 0 = .idle ∨ 0 < (p.callers 0).distance

/-- A bound on the steps that are left before the pool is at rest. -/
def cost (p : Pool) : ℕ :=
  (p.workers.map WorkerPc.cost).sum + 9 * p.jobQueue.length +
    (p.callers 0).cost p.workers.length + (!p.trapped).toNat

theorem reached_step {l : Label} (h : ∃ ls, run step (start n) ls = some p)
    (hs : p.step l = some p') : ∃ ls, run step (start n) ls = some p' := by
  obtain ⟨ls, hls⟩ := h
  exact ⟨ls ++ [l], run_append_eq_some.mpr ⟨p, hls, by rw [run_singleton, hs]⟩⟩

theorem Attended.length (h : p.Attended n) : p.workers.length = n := by
  obtain ⟨ls, hls⟩ := h.reached
  exact run_invariant length_step List.length_replicate hls

theorem Attended.no_stopStore (h : p.Attended n) (c : ℕ) : p.callers c ≠ .stopStore := by
  intro hpc
  by_cases hc : c = 0
  · rcases h.calling with hidle | hcall
    · rw [← hc, hpc] at hidle
      cases hidle
    · rw [← hc, hpc] at hcall
      cases hcall
  · rw [h.alone c hc] at hpc
    cases hpc

theorem running_of_step {l : Label} (hno : ∀ c, p.callers c ≠ .stopStore)
    (hs : p.step l = some p') : p'.running = p.running := by
  obtain ⟨-, hs⟩ := step_cases hs
  cases hs with
  | run | get | deinit => rfl
  | caller c choice hc =>
      cases hc with
      | stopStore hpc => exact absurd hpc (hno c)
      | _ => rfl
  | worker i hw => cases hw <;> rfl

theorem idle_of_worker_step {i : ℕ} (hs : p.step (.worker i) = some p') :
    p'.callers c = .idle ↔ p.callers c = .idle := by
  obtain ⟨-, hs⟩ := step_cases hs
  cases hs with
  | worker _ hw =>
      cases hw with
      | notify job => exact CallerPc.notified_eq_idle
      | _ => rfl

theorem Attended.zero_of_caller (h : p.Attended n) {choice : Choice}
    (hc : CallerStep p c choice p') : c = 0 := by
  by_contra hne
  exact hc.not_idle (h.alone c hne)

/-! ### The cost of a step -/

/-- A worker pays for the job that it takes and for the thread that it notifies. -/
theorem WorkerStep.cheaper {i : ℕ} (hw : WorkerStep p i p') (hrun : p.running = true)
    (hblocked : ¬ p.WorkerAt i .blocked) :
    (∃ old pc, p.WorkerAt i old ∧ p'.workers = p.workers.set i pc ∧ p'.trapped = p.trapped ∧
      ∀ n, pc.cost + 9 * p'.jobQueue.length + (p'.callers 0).cost n <
        old.cost + 9 * p.jobQueue.length + (p.callers 0).cost n) ∨
      p' = { p with trapped := true } := by
  cases hw with
  | loopTest hpc =>
      refine Or.inl ⟨_, _, hpc, rfl, rfl, fun n => ?_⟩
      simp [hrun, WorkerPc.cost]
  | acquire hpc =>
      refine Or.inl ?_
      rcases hpc with hpc | hpc
      · exact ⟨_, _, hpc, rfl, rfl, fun n => by simp [WorkerPc.cost]⟩
      · exact ⟨_, _, hpc, rfl, rfl, fun n => by simp [WorkerPc.cost]⟩
  | spurious hpc => exact absurd hpc hblocked
  | exit hpc hdown =>
      rw [hrun] at hdown
      cases hdown
  | take hpc job rest hqueue =>
      refine Or.inl ⟨_, _, hpc, rfl, rfl, fun n => ?_⟩
      simp only [hqueue, WorkerPc.cost, List.length_cons, emit_jobQueue, setWorker_jobQueue,
        emit_callers, setWorker_callers]
      omega
  | trap => exact Or.inr rfl
  | notify job hpc =>
      refine Or.inl ⟨_, _, hpc, rfl, rfl, fun n => ?_⟩
      have hle := CallerPc.cost_notified_le n job (p.callers 0)
      simp only [WorkerPc.cost, setWorker_jobQueue, setWorker_callers]
      omega
  | wait hpc | leaveWait hpc | enterWait hpc | evaluate _ hpc | publish _ _ _ hpc =>
      exact Or.inl ⟨_, _, hpc, rfl, rfl, fun n => by simp [WorkerPc.cost]⟩

theorem cost_workerStep {i : ℕ} (hw : WorkerStep p i p') (hrun : p.running = true)
    (halive : p.trapped = false) (hblocked : ¬ p.WorkerAt i .blocked) : p'.cost < p.cost := by
  rcases hw.cheaper hrun hblocked with ⟨old, pc, hold, hworkers, htrapped, hcheaper⟩ | rfl
  · have hsum := sum_map_set_add WorkerPc.cost pc hold
    have hlt := hcheaper p.workers.length
    rw [cost, cost, hworkers, htrapped, List.length_set]
    omega
  · simp [cost, halive]

theorem sum_signalled_le (p : Pool) (ws : List ℕ) :
    ((p.signalled ws).workers.map WorkerPc.cost).sum ≤
      (p.workers.map WorkerPc.cost).sum + 3 * p.workers.length := by
  refine sum_map_mapIdx_le fun i pc => ?_
  split
  · exact pc.cost_wake_le
  · exact Nat.le_add_right _ 3

theorem cost_callerStep {choice : Choice} (hc : CallerStep p 0 choice p')
    (hcall : 0 < (p.callers 0).distance) (halive : p.trapped = false)
    (htime : ∀ request job, p.callers 0 = .cvBlocked request job → choice.timedOut = true) :
    p'.cost < p.cost := by
  have hmove : ∀ {q : Pool} {pc : CallerPc}, q.workers = p.workers → q.jobQueue = p.jobQueue →
      q.trapped = p.trapped → q.callers = Function.update p.callers 0 pc →
      pc.cost p.workers.length < (p.callers 0).cost p.workers.length → q.cost < p.cost := by
    intro q pc hworkers hqueue htrapped hcallers hlt
    rw [cost, cost, hworkers, hqueue, htrapped, hcallers, Function.update_self]
    omega
  cases hc with
  | trap => simp [cost, halive]
  | push request id job hpc =>
      simp only [cost, hpc, CallerPc.cost, emit_workers, emit_jobQueue, emit_callers, emit_trapped,
        setCaller_workers, setCaller_jobQueue, setCaller_callers, setCaller_trapped,
        Function.update_self, List.length_append, List.length_singleton]
      omega
  | signal request id job hpc hok =>
      have hle := p.sum_signalled_le choice.wake
      have hlength : (p.signalled choice.wake).workers.length = p.workers.length :=
        List.length_mapIdx
      simp only [cost, hpc, CallerPc.cost, setCaller_workers, setCaller_jobQueue,
        setCaller_callers, setCaller_trapped, Function.update_self, signalled_jobQueue,
        signalled_trapped]
      omega
  | wake request job hpc =>
      refine hmove rfl rfl rfl rfl ?_
      rcases hpc with hpc | hpc
      · simp [hpc, htime request job hpc, CallerPc.cost]
      · rw [hpc]
        cases choice.timedOut <;> simp [CallerPc.cost]
  | consume request job hpc =>
      refine hmove rfl rfl rfl rfl ?_
      rcases hpc with hpc | ⟨timeout, hpc⟩
      · simp [hpc, CallerPc.cost]
      · cases timeout <;> simp [hpc, CallerPc.cost]
  | notFinished request job hpc =>
      refine hmove rfl rfl rfl rfl ?_
      rcases hpc with hpc | hpc <;> simp [hpc, CallerPc.cost]
  | stopTest hpc | stopStore hpc | stopBroadcast hpc | join _ hpc | joined _ hpc | stopped hpc =>
      rw [hpc] at hcall
      cases hcall
  | blocking _ hpc | refuse _ hpc | enqueue _ hpc | insert _ _ _ hpc | lockQueue _ _ _ hpc
  | ran _ _ hpc | findNone _ hpc | findNoWait _ hpc | findWaitUpTo _ hpc | findBadMode _ hpc
  | block _ _ hpc | erase _ _ hpc | got _ _ hpc =>
      exact hmove rfl rfl rfl rfl (by simp [hpc, CallerPc.cost])

/-- Every step that is caused lowers the cost. -/
theorem cost_step (h : p.Attended n) {l : Label} (hl : p.Caused l) (hs : p.step l = some p') :
    p'.cost < p.cost := by
  obtain ⟨halive, hs⟩ := step_cases hs
  cases hs with
  | run | get | deinit => exact absurd trivial hl.unforced.1
  | caller c choice hc =>
      obtain rfl := h.zero_of_caller hc
      exact cost_callerStep hc (h.calling.resolve_left hc.not_idle) halive
        fun request job => hl.timeout 0 choice request job rfl
  | worker i hw => exact cost_workerStep hw h.running halive (hl.unforced.2 i rfl)

theorem cost_le (hlength : p.workers.length = n) :
    p.cost ≤ 12 * n + 9 * p.jobQueue.length + 16 := by
  have hsum := List.sum_le_card_nsmul (p.workers.map WorkerPc.cost) 9 fun k hk => by
    obtain ⟨pc, -, rfl⟩ := List.mem_map.mp hk
    exact pc.cost_le
  have hcaller := (p.callers 0).cost_le n
  have htrap := Bool.toNat_le (!p.trapped)
  rw [List.length_map, hlength, Nat.nsmul_eq_mul] at hsum
  rw [cost, hlength]
  omega

/-! ### States without a next step -/

/-- While the flag is up no worker leaves its loop. -/
def Inside (p : Pool) : Prop := p.running = true → .exited ∉ p.workers

theorem inside_start (n : ℕ) : (start n).Inside := fun _ => by simp [start]

theorem inside_step (p : Pool) (l : Label) (p' : Pool) (h : p.Inside) (hs : p.step l = some p') :
    p'.Inside := by
  obtain ⟨-, hs⟩ := step_cases hs
  cases hs with
  | run | get | deinit => exact h
  | caller c choice hc =>
      cases hc with
      | signal request id job hpc =>
          intro hrun hmem
          obtain ⟨k, hk, heq⟩ := List.mem_mapIdx.mp hmem
          have hne : p.workers[k] ≠ .exited := fun hex => h hrun (hex ▸ List.getElem_mem hk)
          split at heq
          · exact wake_ne_exited hne heq
          · exact hne heq
      | stopStore => exact fun hrun => by cases hrun
      | stopBroadcast =>
          intro hrun hmem
          obtain ⟨old, hold, heq⟩ := List.mem_map.mp hmem
          have hne : old ≠ .exited := fun hex => h hrun (hex ▸ hold)
          exact wake_ne_exited hne heq
      | _ => exact h
  | worker i hw =>
      cases hw with
      | loopTest =>
          intro hrun
          have hup : p.running = true := hrun
          rw [hup, if_pos rfl]
          exact not_exited_set (h hrun) (by simp) i
      | exit _ hdown =>
          intro hrun
          have hup : p.running = true := hrun
          rw [hdown] at hup
          cases hup
      | trap => exact h
      | _ => exact fun hrun => not_exited_set (h hrun) (by simp) i

theorem Conserved.isDone_iff (h : p.Conserved) (hholds : ∀ pc ∈ p.workers, pc.holds = none)
    {job : JobRef} (hjob : job ∈ p.pushed) : p.isDone job = true ↔ job ∉ p.jobQueue := by
  have hheld : p.heldCount job = 0 := by
    rw [heldCount, List.countP_eq_zero]
    intro pc hpc
    simp [hholds pc hpc]
  have haccount := h.account job
  have hle := h.pushed_count_le job
  have hpos := List.count_pos_iff.mpr hjob
  rw [← List.count_eq_zero]
  cases hdone : p.isDone job with
  | true =>
      rw [hdone, Bool.toNat_true] at haccount
      exact iff_of_true rfl (by omega)
  | false =>
      rw [hdone, Bool.toNat_false] at haccount
      exact iff_of_false (by simp) (by omega)

/-- All is done, and all workers wait for more. -/
structure AtRest (p : Pool) : Prop where
  idle : p.callers 0 = .idle
  empty : p.jobQueue = []
  blocked : ∀ pc ∈ p.workers, pc = .blocked
  done : ∀ job ∈ p.pushed, p.isDone job = true

theorem caused_worker {i : ℕ} {pc : WorkerPc} (hpc : p.WorkerAt i pc) (hne : pc ≠ .blocked) :
    p.Caused (.worker i) :=
  ⟨unforced_worker hpc hne, fun _ _ _ _ h => by cases h⟩

theorem caused_caller {choice : Choice} (htime : choice.timedOut = true) :
    p.Caused (.caller c choice) := by
  refine ⟨⟨id, fun i h => by cases h⟩, fun d choice' request job h _ => ?_⟩
  cases h
  exact htime

theorem Attended.free (h : p.Attended n) (halive : p.trapped = false)
    (hsettled : Settled step Caused p) (hsturdy : p.Sturdy) (hconserved : p.Conserved) :
    p.qMtx = none := by
  cases howner : p.qMtx with
  | none => rfl
  | some owner =>
      cases owner with
      | worker i =>
          obtain ⟨pc, hpc, howns⟩ := hsturdy.held.worker i howner
          have hother : ∀ pc', pc'.owns = false → pc ≠ pc' := by
            rintro pc' hout rfl
            rw [howns] at hout
            cases hout
          refine absurd (hsettled _ (caused_worker hpc (hother _ rfl)))
            (workerStep_enabled hsturdy hconserved halive hpc (hother _ rfl) fun hseven => ?_)
          cases pc <;> simp_all [WorkerPc.remaining, WorkerPc.owns]
      | caller d =>
          have howns := hsturdy.held.caller d howner
          by_cases hd : d = 0
          · subst hd
            have hcaused : p.Caused (.caller 0 { timedOut := true }) := caused_caller rfl
            have hstill := hsettled _ hcaused
            cases hpc : p.callers 0 with
            | push request id job => simp [step, halive, callerStep, hpc] at hstill
            | _ => simp [hpc, CallerPc.owns] at howns
          · rw [h.alone d hd] at howns
            cases howns

/-- If there is a worker, nothing is left to do. -/
theorem Attended.atRest (h : p.Attended n) (halive : p.trapped = false)
    (hsettled : Settled step Caused p) (hn : 0 < n) : p.AtRest := by
  obtain ⟨ls, hls⟩ := h.reached
  have hsturdy : p.Sturdy := run_invariant sturdy_step (sturdy_start n) hls
  have hconserved := conserved_of_run hls
  have hfree := h.free halive hsettled hsturdy hconserved
  have hblocked : ∀ pc ∈ p.workers, pc = .blocked := by
    intro pc hmem
    obtain ⟨i, hpc⟩ := List.mem_iff_getElem?.mp hmem
    by_contra hne
    have hloop : pc ≠ .exited := by
      rintro rfl
      exact run_invariant inside_step (inside_start n) hls h.running hmem
    exact workerStep_enabled hsturdy hconserved halive hpc hloop (fun _ => hfree)
      (hsettled _ (caused_worker hpc hne))
  have hidle : p.callers 0 = .idle := by
    refine h.calling.resolve_right fun hcall => ?_
    obtain ⟨choice, q, htime, hq⟩ := callerStep_enabled hsturdy hcall fun _ _ _ _ => hfree
    have hstill := hsettled _ (caused_caller (c := 0) htime)
    simp [step, halive, hq] at hstill
  have hempty : p.jobQueue = [] := by
    have hcovered := (run_invariant covered_step ⟨locked_start n, covered_start n⟩ hls).2
    have hsome : .blocked ∈ p.workers := by
      obtain ⟨pc, hpc⟩ := List.exists_mem_of_length_pos (h.length ▸ hn)
      exact hblocked pc hpc ▸ hpc
    have hseeking : p.seeking = 0 := by
      rw [seeking, List.countP_eq_zero]
      intro pc hpc
      simp [hblocked pc hpc, WorkerPc.seeks]
    have hunsent : p.unsent = 0 := by
      rw [unsent, Set.ncard_eq_zero hcovered.finite]
      refine Set.eq_empty_of_forall_notMem fun d hd => ?_
      have hidle' : p.callers d = .idle := by
        by_cases hd0 : d = 0
        · rw [hd0, hidle]
        · exact h.alone d hd0
      simp [hidle', CallerPc.signals] at hd
    have hcover := hcovered.cover h.running hsome
    exact List.length_eq_zero_iff.mp (by omega)
  refine ⟨hidle, hempty, hblocked, fun job hjob => ?_⟩
  rw [hconserved.isDone_iff (fun pc hpc => by rw [hblocked pc hpc]; rfl) hjob, hempty]
  exact List.not_mem_nil

end Pool

end InterProcess
