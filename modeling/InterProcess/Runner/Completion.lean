import InterProcess.Runner.Acceptance
import InterProcess.Runner.Progress
import InterProcess.Server.Lifecycle

/-!
# Accepted jobs can complete

As long as nobody calls `deinit` and no division traps, a single worker can complete any
job that `enqueue` has pushed, whatever the other threads do, if no calling thread owns
`qMtx`: the worker that holds the job, or the one that owns the mutex, or any other, which
finds the mutex free. Each of its steps brings it closer to the next job of the queue, or
to the publication of the one that it holds.

All of this needs a worker. `init` counts a thread that was not created as an error in the
log only, so it can return `EC_SUCCESS` without any.
-/

namespace InterProcess

open Transition

/-- The label starts no `deinit`, and no request that traps where it is evaluated. -/
def Label.Harmless : Label → Prop
  | .run _ request => ¬ request.Kills
  | .deinit _ => False
  | .get _ _ | .caller _ _ | .worker _ => True

instance : DecidablePred Label.Harmless
  | .run _ _ => inferInstanceAs (Decidable (¬ _))
  | .deinit _ => inferInstanceAs (Decidable False)
  | .get _ _ | .caller _ _ | .worker _ => inferInstanceAs (Decidable True)

/-- The thread is not in `deinit`, and the request that it enters `run` with does not
trap. -/
def CallerPc.Harmless : CallerPc → Prop
  | .run request => ¬ request.Kills
  | .stopTest | .stopStore | .stopBroadcast | .join _ | .stopped => False
  | _ => True

/-- A bound on the steps of a worker until it takes a job from a queue that has some. -/
def WorkerPc.distance : WorkerPc → ℕ
  | .exited => 0
  | .exitTest => 1
  | .waitTest => 2
  | .lock | .woken => 3
  | .loopTest | .blocked => 4
  | .enterWait | .notify _ => 5
  | .publish _ _ _ => 6
  | .evaluate _ => 7

theorem CallerPc.harmless_notified (job : JobRef) (pc : CallerPc) :
    (pc.notified job).Harmless ↔ pc.Harmless :=
  iff_of_eq (notified_congr Harmless (fun _ _ => rfl) job pc)

namespace Pool

variable {n : ℕ} {p p' : Pool}

/-- The pool with its `n` workers, before any `deinit` and any trap. -/
structure Working (n : ℕ) (p : Pool) : Prop where
  sturdy : p.Sturdy
  conserved : p.Conserved
  running : p.running = true
  alive : p.trapped = false
  length : p.workers.length = n
  stays : .exited ∉ p.workers
  heap : ∀ j ∈ p.heap, evaluate j.req ≠ none
  callers : ∀ c, (p.callers c).Harmless

theorem working_start (n : ℕ) : (start n).Working n where
  sturdy := sturdy_start n
  conserved := conserved_start n
  running := rfl
  alive := rfl
  length := List.length_replicate
  stays := by simp [start]
  heap := by simp [start]
  callers _ := trivial

theorem harmless_update {callers : ℕ → CallerPc} (h : ∀ c, (callers c).Harmless) {c : ℕ}
    {pc : CallerPc} (hpc : pc.Harmless) (d : ℕ) : (Function.update callers c pc d).Harmless := by
  rw [Function.update_apply]
  split
  · exact hpc
  · exact h d

theorem not_exited_set {workers : List WorkerPc} (h : .exited ∉ workers) {pc : WorkerPc}
    (hpc : pc ≠ .exited) (i : ℕ) : .exited ∉ workers.set i pc := by
  intro hmem
  rcases List.mem_or_eq_of_mem_set hmem with hold | heq
  · exact h hold
  · exact hpc heq.symm

theorem wake_ne_exited {pc : WorkerPc} (h : pc ≠ .exited) : pc.wake ≠ .exited := by
  cases pc <;> simp_all [WorkerPc.wake]

structure Keeps (p p' : Pool) : Prop where
  running : p'.running = p.running
  alive : p'.trapped = p.trapped
  length : p'.workers.length = p.workers.length
  stays : .exited ∉ p'.workers
  heap : ∀ j ∈ p'.heap, evaluate j.req ≠ none
  callers : ∀ c, (p'.callers c).Harmless

theorem evaluate_modify (h : p.Working n) (job : JobRef) {f : Job → Job}
    (hf : ∀ j, (f j).req = j.req) : ∀ j ∈ p.heap.modify job f, evaluate j.req ≠ none :=
  forall_req_modify (P := fun request => evaluate request ≠ none) h.heap job hf

theorem keeps_workerStep (h : p.Working n) {i : ℕ} (hw : WorkerStep p i p') : Keeps p p' := by
  have hset : ∀ {pc : WorkerPc}, pc ≠ .exited → .exited ∉ p.workers.set i pc :=
    fun hpc => not_exited_set h.stays hpc i
  cases hw with
  | loopTest hpc =>
      refine ⟨rfl, rfl, List.length_set, ?_, h.heap, h.callers⟩
      rw [h.running, if_pos rfl]
      exact hset (by simp)
  | exit _ hrun =>
      rw [h.running] at hrun
      cases hrun
  | trap job hpc j hj heval => exact absurd heval (h.heap j (List.mem_of_getElem? hj))
  | publish job status result =>
      exact ⟨rfl, rfl, List.length_set, hset (by simp),
        evaluate_modify h job fun _ => rfl, h.callers⟩
  | notify job =>
      exact ⟨rfl, rfl, List.length_set, hset (by simp), h.heap,
        fun c => (CallerPc.harmless_notified job (p.callers c)).mpr (h.callers c)⟩
  | _ => exact ⟨rfl, rfl, List.length_set, hset (by simp), h.heap, h.callers⟩

theorem keeps_callerStep (h : p.Working n) {c : ℕ} {choice : Choice}
    (hc : CallerStep p c choice p') : Keeps p p' := by
  have hhere := h.callers c
  have hmove : ∀ {pc : CallerPc}, pc.Harmless → ∀ d, (Function.update p.callers c pc d).Harmless :=
    fun hpc => harmless_update h.callers hpc
  cases hc with
  | trap request hpc hmode heval =>
      rw [hpc] at hhere
      exact absurd ⟨Or.inl hmode, (runBlocking_eq_none_iff request).mp heval⟩ hhere
  | enqueue request hpc hmode =>
      rw [hpc] at hhere
      refine ⟨rfl, rfl, rfl, h.stays, fun j hj => ?_, hmove trivial⟩
      simp only [emit_heap, setCaller_heap, allocate_heap, List.mem_append,
        List.mem_singleton] at hj
      rcases hj with hold | rfl
      · exact h.heap j hold
      · exact fun heval => hhere ⟨Or.inr hmode, (evaluate_eq_none_iff request).mp heval⟩
  | consume request job =>
      exact ⟨rfl, rfl, rfl, h.stays, evaluate_modify h job fun _ => rfl, hmove trivial⟩
  | signal request id job hpc =>
      refine ⟨rfl, rfl, List.length_mapIdx, fun hmem => ?_, h.heap, hmove trivial⟩
      obtain ⟨k, hk, heq⟩ := List.mem_mapIdx.mp hmem
      have hne : p.workers[k] ≠ .exited := fun hex => h.stays (hex ▸ List.getElem_mem hk)
      split at heq
      · exact wake_ne_exited hne heq
      · exact hne heq
  | stopTest hpc | stopStore hpc | stopBroadcast hpc | join _ hpc | joined _ hpc | stopped hpc =>
      rw [hpc] at hhere
      exact hhere.elim
  | _ => exact ⟨rfl, rfl, rfl, h.stays, h.heap, hmove trivial⟩

theorem working_step (p : Pool) (l : Label) (p' : Pool) (h : p.Working n) (hl : l.Harmless)
    (hs : p.step l = some p') : p'.Working n := by
  have hkeeps : Keeps p p' := by
    obtain ⟨-, hs⟩ := step_cases hs
    cases hs with
    | run c request =>
        exact ⟨rfl, rfl, rfl, h.stays, h.heap, harmless_update h.callers hl⟩
    | get c request =>
        exact ⟨rfl, rfl, rfl, h.stays, h.heap, harmless_update h.callers trivial⟩
    | deinit => exact hl.elim
    | caller c choice hc => exact keeps_callerStep h hc
    | worker i hw => exact keeps_workerStep h hw
  exact ⟨sturdy_step p l p' h.sturdy hs, conserved_step p l p' h.conserved hs,
    hkeeps.running.trans h.running, hkeeps.alive.trans h.alive, hkeeps.length.trans h.length,
    hkeeps.stays, hkeeps.heap, hkeeps.callers⟩

/-- Worker `i` can complete the job without anybody else: it holds the job, or the job is
in the queue and nobody else owns the mutex. -/
def Focused (p : Pool) (i : ℕ) (job : JobRef) : Prop :=
  (job ∈ p.jobQueue ∧ (p.qMtx = none ∨ p.qMtx = some (.worker i))) ∨
    ∃ pc, p.WorkerAt i pc ∧ pc.holds = some job

/-- A bound on the steps of worker `i` until it has completed all jobs of the queue. -/
def rank (p : Pool) (i : ℕ) : ℕ :=
  8 * p.jobQueue.length + ((p.workers[i]?).elim 0 WorkerPc.distance)

theorem rank_of_workerAt {i : ℕ} {pc : WorkerPc} (hpc : p.WorkerAt i pc) :
    p.rank i = 8 * p.jobQueue.length + pc.distance := by
  rw [rank, hpc, Option.elim_some]

theorem Focused.move {i : ℕ} {job : JobRef} {old pc : WorkerPc} (h : p.Focused i job)
    (hold : p.WorkerAt i old) (hworkers : p'.workers = p.workers.set i pc)
    (hqueue : p'.jobQueue = p.jobQueue)
    (hmtx : p.qMtx = none ∨ p.qMtx = some (.worker i) →
      p'.qMtx = none ∨ p'.qMtx = some (.worker i))
    (hholds : old.holds = some job → pc.holds = some job) (hcloser : pc.distance < old.distance) :
    p'.Focused i job ∧ p'.rank i < p.rank i := by
  have hpc : p'.WorkerAt i pc := hold.moved hworkers
  refine ⟨?_, ?_⟩
  · rcases h with ⟨hin, hfree⟩ | ⟨pc', hpc', hjob⟩
    · exact Or.inl ⟨hqueue ▸ hin, hmtx hfree⟩
    · obtain rfl : old = pc' := hold.unique hpc'
      exact Or.inr ⟨pc, hpc, hholds hjob⟩
  · rw [rank_of_workerAt hold, rank_of_workerAt hpc, hqueue]
    omega

theorem Focused.queued {i : ℕ} {job : JobRef} {pc : WorkerPc} (h : p.Focused i job)
    (hpc : p.WorkerAt i pc) (hholds : pc.holds = none) :
    job ∈ p.jobQueue ∧ (p.qMtx = none ∨ p.qMtx = some (.worker i)) := by
  rcases h with hqueued | ⟨pc', hpc', hjob⟩
  · exact hqueued
  · obtain rfl : pc = pc' := hpc.unique hpc'
    rw [hholds] at hjob
    cases hjob

theorem Working.free (h : p.Working n) {i : ℕ} {pc : WorkerPc} (hpc : p.WorkerAt i pc)
    (howns : pc.owns = false) (hfree : p.qMtx = none ∨ p.qMtx = some (.worker i)) :
    p.qMtx = none := by
  refine hfree.resolve_right fun hmine => ?_
  obtain ⟨pc', hpc', howns'⟩ := h.sturdy.held.worker i hmine
  obtain rfl : pc = pc' := hpc.unique hpc'
  rw [howns] at howns'
  cases howns'

theorem focused_take (h : p.Working n) {i : ℕ} {job : JobRef} (hfocus : p.Focused i job)
    (hpc : p.WorkerAt i .exitTest) :
    ∃ p', p.step (.worker i) = some p' ∧ p'.Focused i job ∧ p'.rank i < p.rank i := by
  obtain ⟨hin, -⟩ := hfocus.queued hpc rfl
  cases hqueue : p.jobQueue with
  | nil =>
      rw [hqueue] at hin
      cases hin
  | cons first rest =>
      have hstep : p.step (.worker i) = some ((setWorker { p with qMtx := none, jobQueue := rest } i
          (.evaluate first)).emit (.taken i first)) := by
        simp [step, h.alive, workerStep, hpc, hqueue]
      have hnew : WorkerAt ((setWorker { p with qMtx := none, jobQueue := rest } i
          (.evaluate first)).emit (.taken i first)) i (.evaluate first) :=
        hpc.moved rfl
      refine ⟨_, hstep, ?_, ?_⟩
      · rw [hqueue] at hin
        rcases List.mem_cons.mp hin with rfl | hrest
        · exact Or.inr ⟨_, hnew, rfl⟩
        · exact Or.inl ⟨hrest, Or.inl rfl⟩
      · rw [rank_of_workerAt hpc, rank_of_workerAt hnew, hqueue]
        simp only [emit_jobQueue, setWorker_jobQueue, List.length_cons, WorkerPc.distance]
        omega

/-- A focused worker can take a step, and either it has published the job then or it is
closer to that. -/
theorem focused_next (h : p.Working n) {i : ℕ} {job : JobRef} {pc : WorkerPc}
    (hpc : p.WorkerAt i pc) (hfocus : p.Focused i job) :
    ∃ p', p.step (.worker i) = some p' ∧
      (p'.isDone job = true ∨ (p'.Focused i job ∧ p'.rank i < p.rank i)) := by
  have hmtx : ∀ {q : Option Owner}, q = none ∨ q = some (.worker i) →
      q = none ∨ q = some (.worker i) := id
  cases pc with
  | loopTest =>
      refine ⟨p.setWorker i .lock, by simp [step, h.alive, workerStep, hpc, h.running], Or.inr ?_⟩
      exact hfocus.move hpc rfl rfl hmtx (by simp [WorkerPc.holds]) (by simp [WorkerPc.distance])
  | lock | woken =>
      obtain ⟨-, hfree⟩ := hfocus.queued hpc rfl
      have hnone := h.free hpc rfl hfree
      refine ⟨setWorker { p with qMtx := some (.worker i) } i .waitTest,
        by simp [step, h.alive, workerStep, hpc, hnone], Or.inr ?_⟩
      exact hfocus.move hpc rfl rfl (fun _ => Or.inr rfl) (by simp [WorkerPc.holds])
        (by simp [WorkerPc.distance])
  | waitTest =>
      obtain ⟨hin, -⟩ := hfocus.queued hpc rfl
      have hempty : p.jobQueue.isEmpty = false := by
        rw [List.isEmpty_eq_false_iff]
        exact List.ne_nil_of_mem hin
      refine ⟨p.setWorker i .exitTest, by simp [step, h.alive, workerStep, hpc, hempty], Or.inr ?_⟩
      exact hfocus.move hpc rfl rfl hmtx (by simp [WorkerPc.holds]) (by simp [WorkerPc.distance])
  | enterWait =>
      -- the worker has seen an empty queue and owns the mutex since
      obtain ⟨hin, -⟩ := hfocus.queued hpc rfl
      rw [h.sturdy.locked.empty i hpc h.running] at hin
      cases hin
  | blocked =>
      refine ⟨p.setWorker i .woken, by simp [step, h.alive, workerStep, hpc], Or.inr ?_⟩
      exact hfocus.move hpc rfl rfl hmtx (by simp [WorkerPc.holds]) (by simp [WorkerPc.distance])
  | exitTest =>
      obtain ⟨p', hs, hfocus', hrank⟩ := focused_take h hfocus hpc
      exact ⟨p', hs, Or.inr ⟨hfocus', hrank⟩⟩
  | evaluate k =>
      obtain ⟨j, hj⟩ : ∃ j, p.heap[k]? = some j :=
        ⟨_, List.getElem?_eq_getElem (h.conserved.lt_of_holds hpc rfl)⟩
      obtain ⟨⟨status, result⟩, heval⟩ :=
        Option.ne_none_iff_exists'.mp (h.heap j (List.mem_of_getElem? hj))
      refine ⟨(p.setWorker i (.publish k status result)).emit (.evaluated i k),
        by simp [step, h.alive, workerStep, hpc, hj, heval], Or.inr ?_⟩
      exact hfocus.move hpc rfl rfl hmtx id (by simp [WorkerPc.distance])
  | publish k status result =>
      refine ⟨((p.publish k status result).setWorker i (.notify k)).emit (.published k),
        by simp [step, h.alive, workerStep, hpc], ?_⟩
      by_cases hk : k = job
      · refine Or.inl ?_
        have hdone := isDone_publish (h.conserved.lt_of_holds hpc rfl) status result job
        rw [hk, beq_self_eq_true, Bool.or_true] at hdone
        rw [← hk] at hdone ⊢
        exact hdone
      · refine Or.inr (hfocus.move hpc rfl rfl hmtx ?_ (by simp [WorkerPc.distance]))
        exact fun hholds => absurd (Option.some.inj hholds) hk
  | notify k =>
      refine ⟨setWorker { p with callers := fun c => (p.callers c).notified k } i .loopTest,
        by simp [step, h.alive, workerStep, hpc], Or.inr ?_⟩
      exact hfocus.move hpc rfl rfl hmtx (by simp [WorkerPc.holds]) (by simp [WorkerPc.distance])
  | exited => exact absurd (List.mem_of_getElem? hpc) h.stays

/-- A focused worker can complete its job. -/
theorem exists_done_of_focused (h : p.Working n) {i : ℕ} {job : JobRef} (hi : i < n)
    (hfocus : p.Focused i job) :
    ∃ k q, run step p (List.replicate k (.worker i)) = some q ∧ q.isDone job = true := by
  induction hrank : p.rank i using Nat.strong_induction_on generalizing p with
  | _ r ih =>
      have hlt : i < p.workers.length := h.length.symm ▸ hi
      obtain ⟨p', hs, hdone | ⟨hfocus', hcloser⟩⟩ :=
        focused_next h (List.getElem?_eq_getElem hlt) hfocus
      · exact ⟨1, p', by simpa using hs, hdone⟩
      · obtain ⟨k, q, hq, hdone⟩ := ih (p'.rank i) (hrank ▸ hcloser)
          (working_step p (.worker i) p' h trivial hs) hfocus' rfl
        exact ⟨k + 1, q, run_cons_eq_some.mpr ⟨p', hs, hq⟩, hdone⟩

/-- For every job that is pushed and not done there is a focused worker, if no calling
thread owns the mutex. -/
theorem exists_focused (h : p.Working n) (hn : 0 < n) (hfree : ∀ c, (p.callers c).owns = false)
    {job : JobRef} (hpushed : job ∈ p.pushed) (hnot : p.isDone job = false) :
    ∃ i, i < n ∧ p.Focused i job := by
  rcases h.conserved.inOnePlace hpushed with ⟨hin, -, -⟩ | ⟨-, hheld, -⟩ | ⟨-, -, hdone⟩
  · have hqueued : job ∈ p.jobQueue := List.count_pos_iff.mp (by omega)
    cases hmtx : p.qMtx with
    | none => exact ⟨0, hn, Or.inl ⟨hqueued, Or.inl hmtx⟩⟩
    | some owner =>
        cases owner with
        | worker i =>
            obtain ⟨pc, hpc, -⟩ := h.sturdy.held.worker i hmtx
            exact ⟨i, h.length ▸ hpc.lt, Or.inl ⟨hqueued, Or.inr hmtx⟩⟩
        | caller c =>
            have howns := h.sturdy.held.caller c hmtx
            rw [hfree c] at howns
            cases howns
  · obtain ⟨pc, hpc, hholds⟩ := List.countP_pos_iff.mp (show 0 < p.heldCount job by omega)
    obtain ⟨i, hi⟩ := List.mem_iff_getElem?.mp hpc
    exact ⟨i, h.length ▸ WorkerAt.lt hi, Or.inr ⟨pc, hi, by simpa using hholds⟩⟩
  · rw [hnot] at hdone
    cases hdone

/-- From the state, the workers alone can complete every job that was pushed. -/
def CanComplete (p : Pool) : Prop :=
  ∀ job ∈ p.pushed, ∃ (is : List ℕ) (q : Pool),
    run step p (is.map Label.worker) = some q ∧ q.isDone job = true

/-- Among them is the job behind every ticket that `run` has answered. -/
theorem CanComplete.of_ran (h : p.CanComplete) {ls : List Label}
    (hrun : run step (start n) ls = some p) {c : ℕ} {request : SubmitRequest}
    {response : SubmitResponse} {ticket : Ticket} (hran : .ran c request response ∈ p.log)
    (hticket : response.ticket = some ticket) :
    ∃ job, p.IsFor job request ticket.reqId ∧ ∃ (is : List ℕ) (q : Pool),
      run step p (is.map Label.worker) = some q ∧ q.isDone job = true := by
  obtain ⟨job, hpushed, hfor⟩ := accepted_of_ran hrun hran hticket
  exact ⟨job, hfor, h job hpushed⟩

theorem canComplete_of_working (h : p.Working n) (hn : 0 < n)
    (hfree : ∀ c, (p.callers c).owns = false) : p.CanComplete := by
  intro job hpushed
  cases hdone : p.isDone job with
  | true => exact ⟨[], p, rfl, hdone⟩
  | false =>
      obtain ⟨i, hi, hfocus⟩ := exists_focused h hn hfree hpushed hdone
      obtain ⟨k, q, hq, hcomplete⟩ := exists_done_of_focused h hi hfocus
      exact ⟨List.replicate k i, q, by simpa using hq, hcomplete⟩

theorem run_workers_of_nil (h : p.workers = []) {is : List ℕ} {q : Pool}
    (hrun : run step p (is.map Label.worker) = some q) : q = p := by
  cases is with
  | nil => exact (Option.some.inj hrun).symm
  | cons i is =>
      obtain ⟨r, hr, -⟩ := run_cons_eq_some.mp hrun
      simp [step, workerStep, h] at hr

def addSchedule : List Label :=
  [.run 0 (addRequest 2 3), .caller 0 {}, .caller 0 {}, .caller 0 {}, .caller 0 {}, .caller 0 {},
    .caller 0 {}]

/-- Without workers the addition is accepted all the same, and never done. -/
theorem stuck_without_workers :
    ∃ p, run step (start 0) addSchedule = some p ∧ p.Alone ∧ p.callers 0 = .idle ∧
      ¬ p.CanComplete := by
  obtain ⟨p, hp, htest⟩ := exists_of_run_any step (start 0) addSchedule
    (fun p => p.pushed = [0] ∧ p.workers = [] ∧ p.isDone 0 = false ∧ p.callers 0 = .idle) (by decide)
  simp only [decide_eq_true_eq] at htest
  obtain ⟨hpushed, hworkers, hnot, hidle⟩ := htest
  refine ⟨p, hp, alone_of_run hp (by decide), hidle, fun hcan => ?_⟩
  obtain ⟨is, q, hq, hdone⟩ := hcan 0 (by simp [hpushed])
  rw [run_workers_of_nil hworkers hq, hnot] at hdone
  cases hdone

/-- The workers of a new runner are the threads that could be created. -/
theorem threads_pos_iff {threads : Int32} {creates : ℕ → Bool} {runner : AlgoRunner}
    (hinit : AlgoRunner.init {} threads creates = some runner) :
    0 < runner.threads ↔ ∃ i : ℕ, (i : ℤ) < threads.toInt ∧ creates i = true := by
  simp only [AlgoRunner.init, AlgoRunnerIpml.init, Bool.false_eq_true, if_false,
    Option.map_eq_some_iff] at hinit
  obtain ⟨impl, himpl, rfl⟩ := hinit
  split at himpl
  · cases himpl
  · obtain rfl := Option.some.inj himpl
    simp only [Nat.zero_add, List.countP_pos_iff, List.mem_range, Int.lt_toNat]

/-- After an `init` that returns: from every state that calls and workers reach before a
`deinit`, without a request that traps, and in which no call owns `qMtx`, the workers alone
can complete every accepted job, exactly when one of the threads could be created. -/
theorem accepted_complete_iff (threads : Int32) (creates : ℕ → Bool) (runner : AlgoRunner)
    (hinit : AlgoRunner.init {} threads creates = some runner) :
    (∀ (ls : List Label) (p : Pool), run step (start runner.threads) ls = some p →
        (∀ l ∈ ls, l.Harmless) → (∀ c, (p.callers c).owns = false) → p.CanComplete) ↔
      ∃ i : ℕ, (i : ℤ) < threads.toInt ∧ creates i = true := by
  rw [← threads_pos_iff hinit]
  constructor
  · intro hall
    by_contra hzero
    have hnone : runner.threads = 0 := by omega
    obtain ⟨p, hp, halone, hidle, hstuck⟩ := stuck_without_workers
    refine hstuck (hall addSchedule p (hnone ▸ hp) (by decide) fun c => ?_)
    by_cases hc : c = 0
    · rw [hc, hidle]
      rfl
    · rw [halone c hc]
      rfl
  · intro hpos ls p hrun hharmless hfree
    have hguard : Guarded step (fun _ l => l.Harmless) (start runner.threads) ls :=
      guarded_of_forall fun _ => hharmless
    have hworking : p.Working runner.threads :=
      run_invariant_of_guarded working_step (working_start runner.threads) hguard hrun
    exact canComplete_of_working hworking hpos hfree

/-- `init` with four threads, one of which can be created: an addition that was accepted and
that no worker has seen can be completed. -/
theorem accepted_complete_one :
    ∃ runner, AlgoRunner.init {} 4 (fun i => i == 2) = some runner ∧
      ∃ p, run step (start runner.threads) addSchedule = some p ∧ p.jobQueue = [0] ∧
        p.isDone 0 = false ∧ p.CanComplete := by
  obtain ⟨p, hp, htest⟩ := exists_of_run_any step (start 1) addSchedule
    (fun p => p.jobQueue = [0] ∧ p.isDone 0 = false ∧ p.callers 0 = .idle) (by decide)
  simp only [decide_eq_true_eq] at htest
  obtain ⟨hqueue, hnot, hidle⟩ := htest
  have hinit : AlgoRunner.init {} 4 (fun i => i == 2) = some
      { outImpl := some { maxThreads := 4, workers := 1, running := true }, threads := 1 } := by
    decide
  refine ⟨_, hinit, p, hp, hqueue, hnot, ?_⟩
  have hcan := (accepted_complete_iff 4 (fun i => i == 2) _ hinit).mpr ⟨2, by decide, rfl⟩
  refine hcan addSchedule p hp (by decide) fun c => ?_
  by_cases hc : c = 0
  · rw [hc, hidle]
    rfl
  · rw [alone_of_run hp (by decide) c hc]
    rfl

/-- `init` with four threads, none of which can be created, returns all the same, and an
addition that is submitted then can never be done. -/
theorem accepted_stuck :
    ∃ runner, AlgoRunner.init {} 4 (fun _ => false) = some runner ∧ runner.threads = 0 ∧
      ∃ p, run step (start runner.threads) addSchedule = some p ∧ ¬ p.CanComplete := by
  obtain ⟨p, hp, -, -, hstuck⟩ := stuck_without_workers
  exact ⟨{ outImpl := some { maxThreads := 4, workers := 0, running := true }, threads := 0 },
    by decide, rfl, p, hp, hstuck⟩

end Pool

end InterProcess
