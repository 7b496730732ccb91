import InterProcess.Runner.Lookup

/-!
# What is left in the queue at shutdown

The exit test of a worker asks for an empty queue, but a worker gets to it only
through the test of the outer loop, which asks for `running` alone. After `deinit`
stored `running = false` a worker that has passed the test of the outer loop, and is
not evaluating, takes one more job if there is one; no other worker takes any. So the
queue is drained exactly when it held no more jobs than there were such workers.
-/

namespace InterProcess

open Transition Counting

/-- The worker has passed the test of the outer loop and holds no job. -/
def WorkerPc.searches : WorkerPc → Bool
  | .lock | .waitTest | .enterWait | .blocked | .woken | .exitTest => true
  | .loopTest | .evaluate _ | .publish _ _ _ | .notify _ | .exited => false

def Label.Starts : Label → Prop
  | .run _ _ | .get _ _ | .deinit _ => True
  | .caller _ _ | .worker _ => False

instance : DecidablePred Label.Starts
  | .run _ _ | .get _ _ | .deinit _ => inferInstanceAs (Decidable True)
  | .caller _ _ | .worker _ => inferInstanceAs (Decidable False)

namespace Pool

def searching (p : Pool) : ℕ := p.workers.countP WorkerPc.searches

theorem searching_setWorker {p : Pool} {i : ℕ} {old : WorkerPc} (pc : WorkerPc)
    (hold : p.WorkerAt i old) :
    (p.setWorker i pc).searching + old.searches.toNat = p.searching + pc.searches.toNat :=
  countP_set_add _ pc hold

theorem searches_wake (pc : WorkerPc) : pc.wake.searches = pc.searches := by
  cases pc <;> rfl

def AllExited (p : Pool) : Prop := ∀ pc ∈ p.workers, pc = .exited

/-- What the point of the thread in `deinit` says about the workers. -/
def Joined (p : Pool) : CallerPc → Prop
  | .stopTest => p.running = true
  | .stopStore | .stopBroadcast => True
  | .join i => ∀ j < i, p.WorkerAt j .exited
  | .stopped | .idle => p.AllExited
  | _ => False

/-- One thread is in `deinit` and all others are idle, so that nothing is pushed. -/
structure Stopping (c : ℕ) (jobs : List JobRef) (p : Pool) : Prop where
  others : ∀ d, d ≠ c → p.callers d = .idle
  point : p.Joined (p.callers c)
  pushed : p.pushed = jobs

/-- The flag is down, and whether the queue will be drained is settled. -/
structure Emptying (fits : Prop) (p : Pool) : Prop where
  flag : p.running = false
  load : p.jobQueue.length ≤ p.searching ↔ fits

inductive DeinitStep (p : Pool) (c : ℕ) : Pool → Prop
  | test (hpc : p.callers c = .stopTest) (hrun : p.running = true) :
      DeinitStep p c (p.setCaller c .stopStore)
  | store (hpc : p.callers c = .stopStore) :
      DeinitStep p c (setCaller { p with running := false } c .stopBroadcast)
  | broadcast (hpc : p.callers c = .stopBroadcast) :
      DeinitStep p c (setCaller { p with workers := p.workers.map WorkerPc.wake } c (.join 0))
  | join (i : ℕ) (hpc : p.callers c = .join i) (hexit : p.WorkerAt i .exited) :
      DeinitStep p c (p.setCaller c (.join (i + 1)))
  | joined (i : ℕ) (hpc : p.callers c = .join i) (hlen : p.workers[i]? = none) :
      DeinitStep p c (p.setCaller c .stopped)
  | stopped (hpc : p.callers c = .stopped) : DeinitStep p c (p.setCaller c .idle)

variable {p p' : Pool} {c : ℕ} {jobs : List JobRef} {fits : Prop}

theorem Stopping.deinitStep (h : p.Stopping c jobs) {d : ℕ} {choice : Choice}
    (hs : CallerStep p d choice p') : p.DeinitStep c p' := by
  have hd : d = c := by
    by_contra hne
    exact hs.not_idle (h.others d hne)
  subst hd
  have hpoint := h.point
  cases hs with
  | stopTest hpc =>
      rw [hpc] at hpoint
      have hrun : p.running = true := hpoint
      rw [if_pos hrun]
      exact .test hpc hrun
  | stopStore hpc => exact .store hpc
  | stopBroadcast hpc => exact .broadcast hpc
  | join i hpc hexit => exact .join i hpc hexit
  | joined i hpc hlen => exact .joined i hpc hlen
  | stopped hpc => exact .stopped hpc
  | notFinished _ _ hpc | wake _ _ hpc =>
      rcases hpc with hpc | hpc <;> simp [hpc, Joined] at hpoint
  | consume _ _ hpc =>
      rcases hpc with hpc | ⟨timeout, hpc⟩ <;> simp [hpc, Joined] at hpoint
  | _ => simp_all [Joined]

theorem WorkerStep.moves {i : ℕ} (hs : WorkerStep p i p') :
    ∃ old pc, p.WorkerAt i old ∧ old ≠ .exited ∧ p'.workers = p.workers.set i pc := by
  cases hs with
  | acquire hpc =>
      rcases hpc with hpc | hpc
      · exact ⟨.lock, _, hpc, by simp, rfl⟩
      · exact ⟨.woken, _, hpc, by simp, rfl⟩
  | trap job hpc =>
      refine ⟨_, .evaluate job, hpc, by simp, ?_⟩
      obtain ⟨hlt, heq⟩ := List.getElem?_eq_some_iff.mp hpc
      rw [← heq, List.set_getElem_self]
  | loopTest hpc | wait hpc | leaveWait hpc | enterWait hpc | spurious hpc | exit hpc
  | take hpc | evaluate _ hpc | publish _ _ _ hpc | notify _ hpc =>
      exact ⟨_, _, hpc, by simp, rfl⟩

theorem WorkerStep.exited {i j : ℕ} (hs : WorkerStep p i p') (hj : p.WorkerAt j .exited) :
    p'.WorkerAt j .exited := by
  obtain ⟨old, pc, hold, hne, hworkers⟩ := hs.moves
  have hij : i ≠ j := by
    rintro rfl
    exact hne (hold.unique hj)
  exact hj.stays hworkers hij

theorem WorkerStep.not_allExited {i : ℕ} (hs : WorkerStep p i p') : ¬ p.AllExited := by
  obtain ⟨old, pc, hold, hne, -⟩ := hs.moves
  exact fun hall => hne (hall old (List.mem_of_getElem? hold))

theorem allExited_of_joined {i : ℕ} (h : ∀ j < i, p.WorkerAt j .exited)
    (hlen : p.workers[i]? = none) : p.AllExited := by
  intro pc hpc
  obtain ⟨j, hj⟩ := List.mem_iff_getElem?.mp hpc
  have hlt : j < p.workers.length := WorkerAt.lt hj
  have hji := h j (lt_of_lt_of_le hlt (List.getElem?_eq_none_iff.mp hlen))
  exact WorkerAt.unique hj hji

theorem WorkerStep.joined {i : ℕ} (hs : WorkerStep p i p') (hrun : p'.running = p.running)
    {pc : CallerPc} (h : p.Joined pc) : p'.Joined pc := by
  cases pc with
  | join k => exact fun j hj => hs.exited (h j hj)
  | stopped | idle => exact absurd h hs.not_allExited
  | stopTest => exact hrun.trans h
  | _ => exact h

theorem stopping_step (h : p.Stopping c jobs) {l : Label} (hl : ¬ l.Starts)
    (hs : p.step l = some p') : p'.Stopping c jobs := by
  have hmove : ∀ pc, (∀ d, d ≠ c → (p.setCaller c pc).callers d = .idle) := by
    intro pc d hd
    rw [setCaller_callers, Function.update_of_ne hd]
    exact h.others d hd
  have hpoint := h.point
  obtain ⟨-, hs⟩ := step_cases hs
  cases hs with
  | run | get | deinit => exact absurd trivial hl
  | caller d choice hc =>
      cases h.deinitStep hc with
      | test | store => exact ⟨hmove _, by simp [Joined], h.pushed⟩
      | broadcast => exact ⟨hmove _, by simp [Joined], h.pushed⟩
      | join i hpc hexit =>
          rw [hpc] at hpoint
          refine ⟨hmove _, ?_, h.pushed⟩
          simp only [setCaller_callers, Function.update_self]
          intro j hj
          rcases Nat.lt_succ_iff_lt_or_eq.mp hj with hlt | rfl
          · exact hpoint j hlt
          · exact hexit
      | joined i hpc hlen =>
          rw [hpc] at hpoint
          refine ⟨hmove _, ?_, h.pushed⟩
          simp only [setCaller_callers, Function.update_self]
          exact allExited_of_joined hpoint hlen
      | stopped hpc =>
          rw [hpc] at hpoint
          refine ⟨hmove _, ?_, h.pushed⟩
          simp only [setCaller_callers, Function.update_self]
          exact hpoint
  | worker i hw =>
      have hpushed : p'.pushed = p.pushed := by
        cases hw <;> simp [Pool.pushed, Event.pushed?]
      have hrun : p'.running = p.running := by
        cases hw <;> rfl
      have hcallers : ∀ d, p.Joined (p.callers d) → p'.callers d = p.callers d := by
        intro d hd
        cases hw with
        | notify job =>
            cases hpc : p.callers d <;> simp_all [Joined, CallerPc.notified]
        | _ => rfl
      refine ⟨fun d hd => ?_, ?_, hpushed.trans h.pushed⟩
      · cases hw with
        | notify job => simp [h.others d hd, CallerPc.notified]
        | _ => exact h.others d hd
      · rw [hcallers c hpoint]
        exact hw.joined hrun hpoint

theorem Emptying.move (h : p.Emptying fits) {i : ℕ} {old pc : WorkerPc}
    (hold : p.WorkerAt i old) (hworkers : p'.workers = p.workers.set i pc)
    (hrun : p'.running = p.running)
    (hload : p'.jobQueue.length + old.searches.toNat = p.jobQueue.length + pc.searches.toNat ∨
      p.jobQueue = [] ∧ p'.jobQueue = []) : p'.Emptying fits where
  flag := hrun.trans h.flag
  load := by
    have hcount : p'.searching + old.searches.toNat = p.searching + pc.searches.toNat := by
      have := searching_setWorker pc hold
      rwa [searching, setWorker_workers, ← hworkers] at this
    rw [← h.load]
    rcases hload with hload | ⟨hempty, hempty'⟩
    · omega
    · simp [hempty, hempty']

theorem emptying_worker (h : p.Emptying fits) {i : ℕ} (hw : WorkerStep p i p') :
    p'.Emptying fits := by
  cases hw with
  | loopTest hpc =>
      refine h.move hpc rfl rfl (Or.inl ?_)
      simp [h.flag, WorkerPc.searches]
  | acquire hpc =>
      rcases hpc with hpc | hpc <;> exact h.move hpc rfl rfl (Or.inl rfl)
  | wait _ hrun => simp [h.flag] at hrun
  | exit hpc _ hempty => exact h.move hpc rfl rfl (Or.inr ⟨hempty, hempty⟩)
  | take hpc job rest hqueue =>
      refine h.move hpc rfl rfl (Or.inl ?_)
      simp [hqueue, WorkerPc.searches]
  | trap => exact ⟨h.flag, h.load⟩
  | leaveWait hpc | enterWait hpc | spurious hpc | evaluate _ hpc | publish _ _ _ hpc
  | notify _ hpc => exact h.move hpc rfl rfl (Or.inl rfl)

theorem emptying_step (h : p.Emptying fits) (hstop : p.Stopping c jobs) {l : Label}
    (hl : ¬ l.Starts) (hs : p.step l = some p') : p'.Emptying fits := by
  obtain ⟨-, hs⟩ := step_cases hs
  cases hs with
  | run | get | deinit => exact absurd trivial hl
  | caller d choice hc =>
      cases hstop.deinitStep hc with
      | broadcast =>
          refine ⟨h.flag, ?_⟩
          rw [← h.load, searching, searching]
          exact iff_of_eq (congrArg _ (countP_map_of_eq _ searches_wake _))
      | store => exact ⟨rfl, h.load⟩
      | _ => exact ⟨h.flag, h.load⟩
  | worker i hw => exact emptying_worker h hw

/-- When all workers have left their loops, every pushed job is done that is not in
the queue any more. -/
theorem Conserved.done_iff_of_allExited (h : p.Conserved) (hall : p.AllExited) :
    (∀ job ∈ p.pushed, p.isDone job = true) ↔ p.jobQueue = [] := by
  have hheld : ∀ job, p.heldCount job = 0 := by
    intro job
    rw [heldCount, List.countP_eq_zero]
    intro pc hpc
    simp [hall pc hpc, WorkerPc.holds]
  constructor
  · intro hdone
    refine List.eq_nil_iff_forall_not_mem.mpr fun job hjob => ?_
    have hcount := h.account job
    have hle := h.pushed_count_le job
    have hpos := List.count_pos_iff.mpr hjob
    have hmem : job ∈ p.pushed := h.order ▸ List.mem_append_right _ hjob
    rw [hdone job hmem, Bool.toNat_true] at hcount
    omega
  · intro hempty job hjob
    have hcount := h.account job
    have hpos := List.count_pos_iff.mpr hjob
    rw [hheld, hempty, List.count_nil] at hcount
    cases hdone : p.isDone job with
    | true => rfl
    | false =>
        rw [hdone, Bool.toNat_false] at hcount
        omega

/-- When `deinit` returns, the jobs that were enqueued before it was called are done
exactly if the queue, when `running` was set to false, held no more jobs than there
were workers searching it. -/
theorem drained_iff (n : ℕ) (before mid after : List Label) (p q p' : Pool) (c : ℕ)
    (choice : Choice) (hbefore : run step (start n) before = some p)
    (hrunning : p.running = true) (hidle : ∀ d, p.callers d = .idle)
    (hmid : ∀ l ∈ mid, ¬ l.Starts) (hq : run step p (.deinit c :: mid) = some q)
    (hstore : q.callers c = .stopStore) (hafter : ∀ l ∈ after, ¬ l.Starts)
    (hrun : run step q (.caller c choice :: after) = some p')
    (hreturn : p'.callers c = .stopped) :
    (∀ job ∈ p.pushed, p'.isDone job = true) ↔ q.jobQueue.length ≤ q.searching := by
  have hcalled : Stopping c p.pushed (p.setCaller c .stopTest) := by
    refine ⟨fun d hd => ?_, ?_, rfl⟩
    · rw [setCaller_callers, Function.update_of_ne hd]
      exact hidle d
    · simpa [Joined] using hrunning
  obtain ⟨p₁, hp₁, hmidrun⟩ := run_cons_eq_some.mp hq
  obtain rfl : p.setCaller c .stopTest = p₁ := by
    obtain ⟨-, hs⟩ := step_cases hp₁
    cases hs
    rfl
  have hguarded : Guarded step (fun _ l => ¬ l.Starts) (p.setCaller c .stopTest) mid :=
    guarded_of_forall fun _ => hmid
  have hstopping : q.Stopping c p.pushed :=
    run_invariant_of_guarded (fun _ _ _ h hl hs => stopping_step h hl hs) hcalled hguarded hmidrun
  obtain ⟨q₁, hq₁, hafterrun⟩ := run_cons_eq_some.mp hrun
  have hemptying : q₁.Emptying (q.jobQueue.length ≤ q.searching) := by
    obtain ⟨-, hs⟩ := step_cases hq₁
    cases hs with
    | caller _ _ hc =>
        cases hstopping.deinitStep hc with
        | store => exact ⟨rfl, Iff.rfl⟩
        | test hpc | broadcast hpc | join _ hpc | joined _ hpc | stopped hpc =>
            rw [hstore] at hpc
            cases hpc
  have hguarded' : Guarded step (fun _ l => ¬ l.Starts) q₁ after :=
    guarded_of_forall fun _ => hafter
  obtain ⟨hstopped, hempty⟩ : p'.Stopping c p.pushed ∧
      p'.Emptying (q.jobQueue.length ≤ q.searching) :=
    run_invariant_of_guarded
      (P := fun r => r.Stopping c p.pushed ∧ r.Emptying (q.jobQueue.length ≤ q.searching))
      (fun _ _ _ h hl hs => ⟨stopping_step h.1 hl hs, emptying_step h.2 h.1 hl hs⟩)
      ⟨stopping_step hstopping id hq₁, hemptying⟩ hguarded' hafterrun
  have hall : p'.AllExited := by
    have hpoint := hstopped.point
    rwa [hreturn] at hpoint
  have hwhole : run step (start n) (before ++ (.deinit c :: mid) ++ (.caller c choice :: after)) =
      some p' := by
    rw [run_append_eq_some]
    exact ⟨q, run_append_eq_some.mpr ⟨p, hbefore, hq⟩, hrun⟩
  have hconserved : p'.Conserved := conserved_of_run hwhole
  rw [← hstopped.pushed, hconserved.done_iff_of_allExited hall, ← hempty.load, searching,
    List.countP_eq_zero.mpr fun pc hpc => by simp [hall pc hpc, WorkerPc.searches],
    Nat.le_zero, List.length_eq_zero_iff]

/-- Two additions are submitted, and the only worker takes the first one. -/
def twoJobsSchedule : List Label :=
  [.run 0 (addRequest 2 3), .caller 0 { reading := 5 }, .caller 0 {}, .caller 0 {},
    .caller 0 {}, .caller 0 {}, .caller 0 {}, .run 0 (addRequest 4 5),
    .caller 0 { reading := 6 }, .caller 0 {}, .caller 0 {}, .caller 0 {}, .caller 0 {},
    .caller 0 {}] ++ List.replicate 4 (.worker 0)

/-- The worker evaluates its job, `deinit` stores the flag, and the worker leaves its
loop before it looks at the queue again. -/
theorem shutdown_leaves_job :
    ((run step (start 1) twoJobsSchedule).any fun p =>
      p.pushed = [0, 1] ∧ p.running = true ∧ p.callers 0 = .idle ∧
        (run step p ([.deinit 0, .caller 0 {}, .caller 0 {}, .caller 0 {}] ++
          List.replicate 4 (.worker 0) ++ [.caller 0 {}, .caller 0 {}])).any fun p' =>
            p'.callers 0 = .stopped ∧ p'.workers = [.exited] ∧ p'.jobQueue = [1] ∧
              p'.isDone 1 = false) = true := by
  decide

/-- One job and a worker that has not taken it yet: the job is done when `deinit`
returns. -/
theorem drained_one :
    ∃ p p', run step (start 1) (twoJobsSchedule.take 7 ++ List.replicate 2 (.worker 0)) = some p ∧
      p.pushed = [0] ∧
      run step p ([.deinit 0, .caller 0 {}, .caller 0 {}, .caller 0 {}] ++
        List.replicate 6 (.worker 0) ++ [.caller 0 {}, .caller 0 {}]) = some p' ∧
      p'.callers 0 = .stopped ∧ ∀ job ∈ p.pushed, p'.isDone job = true := by
  refine ⟨_, _, rfl, by decide, rfl, rfl, ?_⟩
  refine (drained_iff 1 (twoJobsSchedule.take 7 ++ List.replicate 2 (.worker 0))
    [.caller 0 {}] ([.caller 0 {}] ++ List.replicate 6 (.worker 0) ++
    [.caller 0 {}, .caller 0 {}]) _ _ _ 0 {} rfl rfl ?_ (by decide) rfl rfl (by decide) rfl
      rfl).mpr (by decide)
  intro d
  rcases d with _ | d <;> rfl

end Pool

end InterProcess
