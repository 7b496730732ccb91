import InterProcess.Library.Termination
import InterProcess.Runner.Drain
import InterProcess.Runner.Progress
import InterProcess.Runner.Shutdown

/-!
# The end of `deinit`

`deinit` joins the workers one after the other, so it returns if all of them leave their
loops. Once the flag is down a worker cannot go around its loop any more: the measure
`remaining` goes down with every step, a spurious wakeup included, and no run of the workers
and of `deinit` takes more than `10 * n + 3` steps.

A run that goes on until nothing can move, but for spurious wakeups, has ended in a trap,
or with all workers outside their loops or blocked on `qCv`. Whether one is blocked is
decided at the broadcast. A worker that was not in the window then wakes up and leaves, and
`deinit` returns; if there was one in the window, `deinit` does not return.
-/

namespace InterProcess

open Transition

/-- A bound on the steps that are left of a worker when the flag is down. -/
def WorkerPc.remaining : WorkerPc → ℕ
  | .exited => 0
  | .loopTest => 1
  | .notify _ => 2
  | .publish _ _ _ => 3
  | .evaluate _ => 4
  | .exitTest => 5
  | .waitTest => 6
  | .lock | .woken => 7
  | .blocked => 8
  | .enterWait => 9

theorem WorkerPc.remaining_le (pc : WorkerPc) : pc.remaining ≤ 9 := by
  cases pc <;> simp [remaining]

/-- A bound on the steps that are left of `deinit` when it joins `n` workers. -/
def CallerPc.remaining (n : ℕ) : CallerPc → ℕ
  | .join i => n - i + 2
  | .stopped => 1
  | _ => 0

def CallerPc.Joins : CallerPc → Prop
  | .join _ | .stopped | .idle => True
  | _ => False

theorem CallerPc.joins_notified (job : JobRef) (pc : CallerPc) :
    (pc.notified job).Joins ↔ pc.Joins :=
  iff_of_eq (notified_congr Joins (fun _ _ => rfl) job pc)

theorem CallerPc.remaining_notified (n : ℕ) (job : JobRef) (pc : CallerPc) :
    (pc.notified job).remaining n = pc.remaining n :=
  notified_congr (remaining n) (fun _ _ => rfl) job pc

namespace Pool

variable {n : ℕ} {p p' : Pool} {c : ℕ} {jobs : List JobRef}

/-- The step is not a spurious wakeup, and no call begins with it. -/
def Unforced (p : Pool) (l : Label) : Prop :=
  ¬ l.Starts ∧ ∀ i, l = .worker i → ¬ p.WorkerAt i .blocked

/-- The pool after the broadcast of `deinit`. -/
structure Ending (c : ℕ) (jobs : List JobRef) (p : Pool) : Prop where
  stopping : p.Stopping c jobs
  flag : p.running = false
  past : (p.callers c).Joins

/-- A bound on the steps that are left of the pool. -/
def remaining (c : ℕ) (p : Pool) : ℕ :=
  (p.workers.map WorkerPc.remaining).sum + (p.callers c).remaining p.workers.length +
    (!p.trapped).toNat

/-- What a step of a worker is for the measure: the worker gets closer to the end of its
loop, or the process traps. -/
theorem WorkerStep.closer {i : ℕ} (hw : WorkerStep p i p') (hflag : p.running = false) :
    p'.running = p.running ∧ (∀ d, (p'.callers d).Joins ↔ (p.callers d).Joins) ∧
      (∀ d n, (p'.callers d).remaining n = (p.callers d).remaining n) ∧
      ((∃ old pc, p.WorkerAt i old ∧ p'.workers = p.workers.set i pc ∧
          pc.remaining < old.remaining ∧ p'.trapped = p.trapped) ∨
        p'.workers = p.workers ∧ p'.trapped = true) := by
  cases hw with
  | loopTest hpc =>
      refine ⟨rfl, fun _ => Iff.rfl, fun _ _ => rfl, Or.inl ⟨_, _, hpc, rfl, ?_, rfl⟩⟩
      rw [hflag]
      decide
  | acquire hpc =>
      refine ⟨rfl, fun _ => Iff.rfl, fun _ _ => rfl, Or.inl ?_⟩
      rcases hpc with hpc | hpc
      · exact ⟨_, _, hpc, rfl, by decide, rfl⟩
      · exact ⟨_, _, hpc, rfl, by decide, rfl⟩
  | wait _ hrun =>
      rw [hflag] at hrun
      cases hrun
  | trap => exact ⟨rfl, fun _ => Iff.rfl, fun _ _ => rfl, Or.inr ⟨rfl, rfl⟩⟩
  | notify job hpc =>
      exact ⟨rfl, fun _ => CallerPc.joins_notified job _,
        fun _ n => CallerPc.remaining_notified n job _,
        Or.inl ⟨_, _, hpc, rfl, Nat.one_lt_two, rfl⟩⟩
  | leaveWait hpc | enterWait hpc | spurious hpc | exit hpc | take hpc | evaluate _ hpc
  | publish _ _ _ hpc =>
      exact ⟨rfl, fun _ => Iff.rfl, fun _ _ => rfl,
        Or.inl ⟨_, _, hpc, rfl, by simp [WorkerPc.remaining], rfl⟩⟩

theorem ending_step (h : p.Ending c jobs) {l : Label} (hl : ¬ l.Starts)
    (hs : p.step l = some p') : p'.Ending c jobs := by
  have hstopping := stopping_step h.stopping hl hs
  have hpast := h.past
  obtain ⟨-, hs⟩ := step_cases hs
  cases hs with
  | run | get | deinit => exact absurd trivial hl
  | caller d choice hc =>
      cases h.stopping.deinitStep hc with
      | test hpc | store hpc | broadcast hpc =>
          rw [hpc] at hpast
          exact hpast.elim
      | join | joined | stopped =>
          refine ⟨hstopping, h.flag, ?_⟩
          rw [setCaller_callers, Function.update_self]
          trivial
  | worker i hw =>
      obtain ⟨hrun, hjoins, -⟩ := hw.closer h.flag
      exact ⟨hstopping, hrun.trans h.flag, (hjoins c).mpr hpast⟩

theorem remaining_step (h : p.Ending c jobs) {l : Label} (hl : ¬ l.Starts)
    (hs : p.step l = some p') : p'.remaining c < p.remaining c := by
  have hpast := h.past
  obtain ⟨halive, hs⟩ := step_cases hs
  cases hs with
  | run | get | deinit => exact absurd trivial hl
  | caller d choice hc =>
      have hmove : ∀ {pc : CallerPc}, pc.remaining p.workers.length <
          (p.callers c).remaining p.workers.length → (p.setCaller c pc).remaining c < p.remaining c := by
        intro pc hpc
        simp only [remaining, setCaller_callers, Function.update_self, setCaller_workers,
          setCaller_trapped]
        omega
      cases h.stopping.deinitStep hc with
      | test hpc | store hpc | broadcast hpc =>
          rw [hpc] at hpast
          exact hpast.elim
      | join i hpc hexit =>
          have hlt := hexit.lt
          refine hmove ?_
          simp only [hpc, CallerPc.remaining]
          omega
      | joined i hpc =>
          refine hmove ?_
          simp only [hpc, CallerPc.remaining]
          omega
      | stopped hpc =>
          refine hmove ?_
          simp [hpc, CallerPc.remaining]
  | worker i hw =>
      obtain ⟨-, -, hcallers, ⟨old, pc, hold, hworkers, hcloser, htrapped⟩ | ⟨hworkers, htrapped⟩⟩ :=
        hw.closer h.flag
      · have hsum := sum_map_set_add WorkerPc.remaining pc hold
        rw [remaining, remaining, hcallers, hworkers, htrapped, List.length_set]
        omega
      · rw [remaining, remaining, hcallers, hworkers, htrapped, halive]
        simp

/-- After the broadcast every step lowers the measure. -/
theorem descends_ending (c : ℕ) (jobs : List JobRef) :
    Descends step (fun _ l => ¬ l.Starts) (Ending c jobs) (remaining c) where
  keeps _ _ _ h hl hs := ending_step h hl hs
  lowers _ _ _ h hl hs := remaining_step h hl hs

/-! ### States without a next step -/

theorem unforced_worker {i : ℕ} {pc : WorkerPc} (hpc : p.WorkerAt i pc) (hne : pc ≠ .blocked) :
    p.Unforced (.worker i) := by
  refine ⟨id, fun j hj hblocked => hne ?_⟩
  cases hj
  exact hpc.unique hblocked

theorem workerStep_enabled (h : p.Sturdy) (hconserved : p.Conserved) (halive : p.trapped = false)
    {i : ℕ} {pc : WorkerPc} (hpc : p.WorkerAt i pc) (hloop : pc ≠ .exited)
    (hfree : pc.remaining = 7 → p.qMtx = none) : p.step (.worker i) ≠ none := by
  cases pc with
  | exited => exact absurd rfl hloop
  | lock | woken => simp [step, halive, workerStep, hpc, hfree rfl]
  | enterWait =>
      obtain ⟨q, hq, -⟩ := release_next h halive hpc (Or.inl rfl)
      simp [hq]
  | exitTest =>
      obtain ⟨q, hq, -⟩ := release_next h halive hpc (Or.inr rfl)
      simp [hq]
  | evaluate job =>
      obtain ⟨j, hj⟩ : ∃ j, p.heap[job]? = some j :=
        ⟨_, List.getElem?_eq_getElem (hconserved.lt_of_holds hpc rfl)⟩
      cases heval : evaluate j.req <;> simp [step, halive, workerStep, hpc, hj, heval]
  | loopTest | waitTest | blocked | publish | notify => simp [step, halive, workerStep, hpc]

/-- Where no step is enabled but spurious wakeups, nobody owns the mutex. -/
theorem free_of_settled (h : p.Sturdy) (hconserved : p.Conserved) (halive : p.trapped = false)
    (hending : p.Ending c jobs) (hsettled : Settled step Unforced p) : p.qMtx = none := by
  cases howner : p.qMtx with
  | none => rfl
  | some owner =>
      cases owner with
      | worker i =>
          obtain ⟨pc, hpc, howns⟩ := h.held.worker i howner
          have howner : ∀ pc', pc'.owns = false → pc ≠ pc' := by
            rintro pc' hout rfl
            exact absurd howns (by simp [hout])
          refine absurd (hsettled _ (unforced_worker hpc (howner _ rfl)))
            (workerStep_enabled h hconserved halive hpc (howner _ rfl) fun hseven => ?_)
          cases pc <;> simp_all [WorkerPc.remaining, WorkerPc.owns]
      | caller d =>
          have howns := h.held.caller d howner
          by_cases hd : d = c
          · have hpast := hending.past
            rw [hd] at howns
            cases hpc : p.callers c <;> simp_all [CallerPc.owns, CallerPc.Joins]
          · rw [hending.stopping.others d hd] at howns
            cases howns

/-- And every worker has left its loop or is blocked on `qCv`. -/
theorem workers_of_settled (h : p.Sturdy) (hconserved : p.Conserved) (halive : p.trapped = false)
    (hending : p.Ending c jobs) (hsettled : Settled step Unforced p) :
    ∀ i pc, p.WorkerAt i pc → pc = .exited ∨ pc = .blocked := by
  intro i pc hpc
  by_contra hneither
  obtain ⟨hloop, hblocked⟩ := not_or.mp hneither
  have hfree := free_of_settled h hconserved halive hending hsettled
  exact workerStep_enabled h hconserved halive hpc hloop (fun _ => hfree)
    (hsettled _ (unforced_worker hpc hblocked))

theorem idle_of_settled (halive : p.trapped = false) (hending : p.Ending c jobs)
    (hsettled : Settled step Unforced p) (hall : p.AllExited) : p.callers c = .idle := by
  have hstill : p.step (.caller c {}) = none := hsettled _ ⟨id, fun i hi => by cases hi⟩
  have hpast := hending.past
  cases hpc : p.callers c with
  | idle => rfl
  | stopped => simp [step, halive, callerStep, hpc] at hstill
  | join i =>
      cases hi : p.workers[i]? with
      | none => simp [step, halive, callerStep, hpc, hi] at hstill
      | some pc =>
          obtain rfl := hall pc (List.mem_of_getElem? hi)
          simp [step, halive, callerStep, hpc, hi] at hstill
  | _ =>
      rw [hpc] at hpast
      exact hpast.elim

/-! ### A worker in the window -/

/-- The worker blocks next or is blocked. -/
def Stranded (p : Pool) (i : ℕ) : Prop := p.WorkerAt i .enterWait ∨ p.WorkerAt i .blocked

theorem stranded_workerStep {i j : ℕ} (h : p.Stranded i) (hw : WorkerStep p j p')
    (hl : p.Unforced (.worker j)) : p'.Stranded i := by
  by_cases hij : j = i
  · subst hij
    have hat : p.WorkerAt j .enterWait := h.resolve_right (hl.2 j rfl)
    cases hw with
    | enterWait => exact Or.inr (hat.moved rfl)
    | acquire hpc => rcases hpc with hpc | hpc <;> cases hat.unique hpc
    | loopTest hpc | wait hpc | leaveWait hpc | spurious hpc | exit hpc | take hpc | evaluate _ hpc
    | trap _ hpc | publish _ _ _ hpc | notify _ hpc => cases hat.unique hpc
  · obtain ⟨old, pc, -, -, hworkers⟩ := hw.moves
    exact h.imp (fun hat => hat.stays hworkers hij) fun hat => hat.stays hworkers hij

/-- Without spurious wakeups a stranded worker stays so: the broadcast is over. -/
theorem stranded_step (hending : p.Ending c jobs) {i : ℕ} (h : p.Stranded i) {l : Label}
    (hl : p.Unforced l) (hs : p.step l = some p') : p'.Stranded i := by
  have hpast := hending.past
  obtain ⟨-, hs⟩ := step_cases hs
  cases hs with
  | run | get | deinit => exact absurd trivial hl.1
  | caller d choice hc =>
      cases hending.stopping.deinitStep hc with
      | test hpc | store hpc | broadcast hpc =>
          rw [hpc] at hpast
          exact hpast.elim
      | join | joined | stopped => exact h
  | worker j hw => exact stranded_workerStep h hw hl

theorem Stranded.not_allExited {i : ℕ} (h : p.Stranded i) : ¬ p.AllExited := by
  intro hall
  rcases h with hat | hat <;> cases hall _ (List.mem_of_getElem? hat)

theorem length_step (p : Pool) (l : Label) (p' : Pool) (h : p.workers.length = n)
    (hs : p.step l = some p') : p'.workers.length = n := by
  obtain ⟨-, hs⟩ := step_cases hs
  cases hs with
  | run | get | deinit => exact h
  | caller c choice hc =>
      cases hc with
      | signal => exact List.length_mapIdx.trans h
      | stopBroadcast => exact (List.length_map _).trans h
      | _ => exact h
  | worker i hw =>
      obtain ⟨_, _, -, -, hworkers⟩ := hw.moves
      rw [hworkers, List.length_set, h]

theorem eq_of_broadcast {choice : Choice} (hpc : p.callers c = .stopBroadcast)
    (hstep : p.step (.caller c choice) = some p') :
    p' = setCaller { p with workers := p.workers.map WorkerPc.wake } c (.join 0) := by
  obtain ⟨-, hs⟩ := step_cases hstep
  cases hs with
  | caller _ _ hc => cases hc <;> simp_all

theorem ending_of_broadcast {choice : Choice} (hothers : ∀ d, d ≠ c → p.callers d = .idle)
    (hpc : p.callers c = .stopBroadcast) (hflag : p.running = false)
    (hstep : p.step (.caller c choice) = some p') : p'.Ending c p.pushed := by
  have hstopping : p.Stopping c p.pushed := ⟨hothers, by rw [hpc]; trivial, rfl⟩
  refine ⟨stopping_step hstopping id hstep, ?_, ?_⟩
  · rw [eq_of_broadcast hpc hstep]
    exact hflag
  · rw [eq_of_broadcast hpc hstep, setCaller_callers, Function.update_self]
    trivial

theorem remaining_of_broadcast {choice : Choice} (hpc : p.callers c = .stopBroadcast)
    (hstep : p.step (.caller c choice) = some p') (hlength : p'.workers.length = n) :
    p'.remaining c ≤ 10 * n + 3 := by
  have hcaller : (p'.callers c).remaining p'.workers.length = n + 2 := by
    rw [hlength, eq_of_broadcast hpc hstep, setCaller_callers, Function.update_self]
    rfl
  have hsum := List.sum_le_card_nsmul (p'.workers.map WorkerPc.remaining) 9 fun k hk => by
    obtain ⟨pc, -, rfl⟩ := List.mem_map.mp hk
    exact pc.remaining_le
  rw [List.length_map, hlength, Nat.nsmul_eq_mul] at hsum
  have htrap := Bool.toNat_le (!p'.trapped)
  rw [remaining, hcaller]
  omega

/-- After the broadcast, and without a trap, a pool that cannot go on has returned from
`deinit`, if no worker was in the window. -/
theorem returned_of_settled {before ls : List Label} {q : Pool} {choice : Choice}
    (hbefore : run step (start n) before = some p) (hothers : ∀ d, d ≠ c → p.callers d = .idle)
    (hpc : p.callers c = .stopBroadcast) (hstep : p.step (.caller c choice) = some p')
    (hwindow : ∀ i, ¬ p.WorkerAt i .enterWait) (hguard : Guarded step Unforced p' ls)
    (hq : run step p' ls = some q) (hsettled : Settled step Unforced q)
    (htrap : q.trapped = false) : q.callers c = .idle ∧ q.AllExited := by
  have hflag : p.running = false :=
    run_invariant stopStored_step (stopStored_start n) hbefore c hpc
  have hp' := eq_of_broadcast hpc hstep
  have hend : q.Ending c p.pushed :=
    run_invariant_of_guarded (fun _ _ _ h hl hs => ending_step h hl.1 hs)
      (ending_of_broadcast hothers hpc hflag hstep) hguard hq
  have hqrun : run step (start n) (before ++ [.caller c choice] ++ ls) = some q := by
    refine run_append_eq_some.mpr ⟨p', run_append_eq_some.mpr ⟨p, hbefore, ?_⟩, hq⟩
    rw [run_singleton, hstep]
  have hdrained : q.Drained :=
    run_invariant drained_step (hp' ▸ drained_of_broadcast hflag hwindow) hq
  have hall : q.AllExited := by
    intro pc hmem
    obtain ⟨i, hi⟩ := List.mem_iff_getElem?.mp hmem
    have hcases := workers_of_settled (run_invariant sturdy_step (sturdy_start n) hqrun)
      (conserved_of_run hqrun) htrap hend hsettled i pc hi
    exact hcases.resolve_right (hdrained.awake pc hmem).2
  exact ⟨idle_of_settled htrap hend hsettled hall, hall⟩

/-- After the broadcast a pool can go on until nothing can move. -/
theorem exists_settled_of_broadcast {choice : Choice} (hothers : ∀ d, d ≠ c → p.callers d = .idle)
    (hpc : p.callers c = .stopBroadcast) (hflag : p.running = false)
    (hstep : p.step (.caller c choice) = some p') :
    ∃ ls q, Guarded step Unforced p' ls ∧ run step p' ls = some q ∧ Settled step Unforced q :=
  ((descends_ending c p.pushed).mono fun _ _ hl => hl.1).exists_settled
    (ending_of_broadcast hothers hpc hflag hstep)

/-- After the broadcast of `deinit` no run without new calls is longer than `10 * n + 3`
steps. Each can go on until nothing can move but spuriously, and where it got there without
spurious wakeups, and without a trap, `deinit` has returned and all workers are gone exactly
if the broadcast found no worker between its wait predicate and `pthread_cond_wait`. -/
theorem deinit_returns_iff (n : ℕ) (before : List Label) (p p' : Pool) (c : ℕ) (choice : Choice)
    (hbefore : run step (start n) before = some p) (hothers : ∀ d, d ≠ c → p.callers d = .idle)
    (hpc : p.callers c = .stopBroadcast) (hstep : p.step (.caller c choice) = some p') :
    (∀ ls q, (∀ l ∈ ls, ¬ l.Starts) → run step p' ls = some q → ls.length ≤ 10 * n + 3 ∧
      ∃ ms r, Guarded step Unforced q ms ∧ run step q ms = some r ∧ Settled step Unforced r) ∧
    ∀ ls q, Guarded step Unforced p' ls → run step p' ls = some q → Settled step Unforced q →
      q.trapped = true ∨
        ((q.callers c = .idle ∧ q.AllExited) ↔ ∀ i, ¬ p.WorkerAt i .enterWait) := by
  have hflag : p.running = false :=
    run_invariant stopStored_step (stopStored_start n) hbefore c hpc
  have hp' := eq_of_broadcast hpc hstep
  have hending := ending_of_broadcast hothers hpc hflag hstep
  have hwhole : run step (start n) (before ++ [.caller c choice]) = some p' := by
    rw [run_append_eq_some]
    exact ⟨p, hbefore, by rw [run_singleton, hstep]⟩
  have hbound := remaining_of_broadcast hpc hstep
    (run_invariant length_step List.length_replicate hwhole)
  have hdescends := descends_ending c p.pushed
  have hunforced : Descends step Unforced _ _ := hdescends.mono fun _ _ hl => hl.1
  constructor
  · intro ls q hls hq
    have hguard : Guarded step (fun _ l => ¬ l.Starts) p' ls := guarded_of_forall fun _ => hls
    have hle := hdescends.length_add_le hending hguard hq
    exact ⟨by omega,
      hunforced.exists_settled (run_invariant_of_guarded hdescends.keeps hending hguard hq)⟩
  · intro ls q hguard hq hsettled
    cases htrap : q.trapped with
    | true => exact Or.inl rfl
    | false =>
        refine Or.inr ⟨?_, fun hwindow => ?_⟩
        · -- a worker in the window is stranded to the end
          rintro ⟨-, hall⟩ i hi
          have hstranded : p'.Stranded i := Or.inl (by simp [hp', WorkerAt, hi, WorkerPc.wake])
          have hend' : q.Ending c p.pushed ∧ q.Stranded i :=
            run_invariant_of_guarded (P := fun r => r.Ending c p.pushed ∧ r.Stranded i)
              (fun _ _ _ h hl hs => ⟨ending_step h.1 hl.1 hs, stranded_step h.1 h.2 hl hs⟩)
              ⟨hending, hstranded⟩ hguard hq
          exact hend'.2.not_allExited hall
        · exact returned_of_settled hbefore hothers hpc hstep hwindow hguard hq hsettled htrap

/-- The broadcast finds the only worker blocked, and `deinit` returns. -/
theorem deinit_returns_blocked :
    ∃ p p' ls q, run step (start 1) (List.replicate 4 (.worker 0) ++
        [.deinit 0, .caller 0 {}, .caller 0 {}]) = some p ∧ p.workers = [.blocked] ∧
      p.step (.caller 0 {}) = some p' ∧ run step p' ls = some q ∧
      (q.trapped = true ∨ q.callers 0 = .idle ∧ q.AllExited) := by
  obtain ⟨p, p', hp, hworkers, hothers, hpc, hp'⟩ : ∃ p p', run step (start 1)
      (List.replicate 4 (.worker 0) ++ [.deinit 0, .caller 0 {}, .caller 0 {}]) = some p ∧
      p.workers = [.blocked] ∧ (∀ d, d ≠ 0 → p.callers d = .idle) ∧
      p.callers 0 = .stopBroadcast ∧ p.step (.caller 0 {}) = some p' := by
    refine ⟨_, _, rfl, rfl, fun d hd => ?_, rfl, rfl⟩
    rcases d with _ | d
    · exact absurd rfl hd
    · rfl
  obtain ⟨hends, hreturns⟩ := deinit_returns_iff 1 _ p p' 0 {} hp hothers hpc hp'
  obtain ⟨-, ls, q, hguard, hq, hsettled⟩ := hends [] p' (by simp) rfl
  have hwindow : ∀ i, ¬ p.WorkerAt i .enterWait := by
    intro i
    rcases i with _ | i <;> simp [WorkerAt, hworkers]
  exact ⟨p, p', ls, q, hp, hworkers, hp', hq,
    (hreturns ls q hguard hq hsettled).imp_right fun h => h.mpr hwindow⟩

end Pool

end InterProcess
