import InterProcess.Runner.Refinement

/-!
# Two pools that agree on some tickets

`AgreesOn N p q` says that two pools are in the same state except for what
belongs to tickets outside of `N`: whether they are still in `jobs`, and whether
the result of their job was taken. A call of `get` for such a ticket keeps the
agreement on its own side, and so does any call of `get` that does not take a
result; every other step keeps it when both pools take it.
-/

namespace InterProcess

open Transition

/-- Two records that differ at most in the result, and not even in that if the
ticket is in `N`. -/
structure Job.Same (N : Set UInt64) (j k : Job) : Prop where
  id : j.id = k.id
  req : j.req = k.req
  status : j.status = k.status
  done : j.done = k.done
  result : j.id ∈ N → j.result = k.result

namespace Pool

structure AgreesOn (N : Set UInt64) (p q : Pool) : Prop where
  running : p.running = q.running
  qMtx : p.qMtx = q.qMtx
  jobQueue : p.jobQueue = q.jobQueue
  seq : p.seq = q.seq
  workers : p.workers = q.workers
  trapped : p.trapped = q.trapped
  length : p.heap.length = q.heap.length
  records : ∀ (job : JobRef) (j k : Job), p.heap[job]? = some j → q.heap[job]? = some k →
    j.Same N k
  jobs : ∀ t ∈ N, p.jobs t = q.jobs t

variable {N : Set UInt64} {p q : Pool}

theorem AgreesOn.refl (p : Pool) : p.AgreesOn N p where
  running := rfl
  qMtx := rfl
  jobQueue := rfl
  seq := rfl
  workers := rfl
  trapped := rfl
  length := rfl
  records job j k hj hk := by
    obtain rfl : j = k := Option.some.inj (hj.symm.trans hk)
    exact ⟨rfl, rfl, rfl, rfl, fun _ => rfl⟩
  jobs t _ := rfl

theorem AgreesOn.record (h : p.AgreesOn N q) {job : JobRef} {j : Job}
    (hj : p.heap[job]? = some j) : ∃ k, q.heap[job]? = some k ∧ j.Same N k := by
  have hlt := (List.getElem?_eq_some_iff.mp hj).1
  have hk := List.getElem?_eq_getElem (h.length ▸ hlt)
  exact ⟨_, hk, h.records job j _ hj hk⟩

theorem AgreesOn.modify {p' q' : Pool} (h : p.AgreesOn N q) (job : JobRef) (f g : Job → Job)
    (hp : p' = { p with heap := p.heap.modify job f })
    (hq : q' = { q with heap := q.heap.modify job g })
    (hsame : ∀ j k, p.heap[job]? = some j → j.Same N k → (f j).Same N (g k)) :
    p'.AgreesOn N q' := by
  subst hp hq
  refine ⟨h.running, h.qMtx, h.jobQueue, h.seq, h.workers, h.trapped, ?_, ?_, h.jobs⟩
  · simpa using h.length
  · intro r j k hj hk
    simp only [List.getElem?_modify] at hj hk
    obtain ⟨j₀, hj₀, rfl⟩ := Option.map_eq_some_iff.mp hj
    obtain ⟨k₀, hk₀, rfl⟩ := Option.map_eq_some_iff.mp hk
    have hold := h.records r j₀ k₀ hj₀ hk₀
    by_cases hr : job = r
    · subst hr
      simpa using hsame j₀ k₀ hj₀ hold
    · simpa [hr] using hold

theorem AgreesOn.allocate (h : p.AgreesOn N q) (request : SubmitRequest) (id : UInt64) :
    (p.allocate request id).AgreesOn N (q.allocate request id) := by
  refine ⟨h.running, h.qMtx, h.jobQueue, by simp [h.seq], h.workers, h.trapped,
    by simp [h.length], ?_, h.jobs⟩
  intro r j k hj hk
  simp only [allocate_heap, List.getElem?_append] at hj hk
  rw [← h.length] at hk
  split at hj
  · next hlt =>
      rw [if_pos hlt] at hk
      exact h.records r j k hj hk
  · next hge =>
      rw [if_neg hge] at hk
      obtain rfl : j = k := Option.some.inj (hj.symm.trans hk)
      exact ⟨rfl, rfl, rfl, rfl, fun _ => rfl⟩

theorem AgreesOn.control {p' q' : Pool} (h : p.AgreesOn N q)
    (hp : p'.heap = p.heap ∧ p'.jobs = p.jobs) (hq : q'.heap = q.heap ∧ q'.jobs = q.jobs)
    (hrunning : p'.running = q'.running) (hqMtx : p'.qMtx = q'.qMtx)
    (hqueue : p'.jobQueue = q'.jobQueue) (hseq : p'.seq = q'.seq)
    (hworkers : p'.workers = q'.workers) (htrapped : p'.trapped = q'.trapped) :
    p'.AgreesOn N q' := by
  refine ⟨hrunning, hqMtx, hqueue, hseq, hworkers, htrapped, ?_, ?_, ?_⟩
  · rw [hp.1, hq.1]
    exact h.length
  · rw [hp.1, hq.1]
    exact h.records
  · rw [hp.2, hq.2]
    exact h.jobs

theorem AgreesOn.congr {p' q' : Pool} (h : p.AgreesOn N q)
    (hp : p' = { p with callers := p'.callers, log := p'.log })
    (hq : q' = { q with callers := q'.callers, log := q'.log }) : p'.AgreesOn N q' := by
  rw [hp, hq]
  exact h.control ⟨rfl, rfl⟩ ⟨rfl, rfl⟩ h.running h.qMtx h.jobQueue h.seq h.workers h.trapped

theorem AgreesOn.get_step {p' : Pool} {choice : Choice} {request : GetRequest}
    (h : p.AgreesOn N q) (hticketed : p.Ticketed) (hget : (p.callers 0).Getting request)
    (hs : p.step (.caller 0 choice) = some p')
    (hbefore : ∀ t, (p.callers 0).erases = some t → t ∉ N)
    (hafter : ∀ t, (p'.callers 0).erases = some t → t ∉ N) : p'.AgreesOn N q := by
  obtain ⟨-, hs⟩ := step_cases hs
  cases hs with
  | caller _ _ hc =>
      cases hc with
      | blocking | trap | refuse | enqueue | insert | lockQueue | push | signal =>
          simp_all [CallerPc.Getting]
      | stopStore | stopBroadcast => simp_all [CallerPc.Getting]
      | consume r job hpc j hj hdone =>
          have hread : p.HasId job r.reqId := by
            refine hticketed.reading 0 _ _ ?_
            rcases hpc with hpc | ⟨timeout, hpc⟩ <;> rw [hpc] <;> rfl
          have hnot : r.reqId ∉ N := hafter _ (by simp [Pool.consume, CallerPc.erases])
          have hswap : (p.swapOut job).AgreesOn N q := by
            refine h.modify job (fun j => { j with result := {} }) id rfl
              (by simp) ?_
            intro j₁ k hj₁ hsame
            obtain ⟨j₂, hj₂, hid⟩ := hread
            obtain rfl : j₁ = j₂ := Option.some.inj (hj₁.symm.trans hj₂)
            exact ⟨hsame.id, hsame.req, hsame.status, hsame.done,
              fun hin => absurd (hid ▸ hin) hnot⟩
          exact hswap.congr rfl rfl
      | erase r response hpc =>
          have hnot : r.reqId ∉ N := hbefore _ (by rw [hpc]; rfl)
          refine ⟨h.running, h.qMtx, h.jobQueue, h.seq, h.workers, h.trapped, h.length,
            h.records, fun t ht => ?_⟩
          have hne : t ≠ r.reqId := fun heq => hnot (heq ▸ ht)
          simpa [Table.erase_of_ne _ hne] using h.jobs t ht
      | _ => exact h.congr rfl rfl

theorem AgreesOn.worker_step {p' q' : Pool} {i : ℕ} (h : p.AgreesOn N q)
    (hp : p.step (.worker i) = some p') (hq : q.step (.worker i) = some q') :
    p'.AgreesOn N q' ∧ ∃ f : CallerPc → CallerPc, (f = id ∨ ∃ job, f = CallerPc.notified job) ∧
      p'.callers 0 = f (p.callers 0) ∧ q'.callers 0 = f (q.callers 0) := by
  obtain ⟨-, hp⟩ := step_cases hp
  have hq : q.workerStep i = some q' := by
    unfold step at hq
    split at hq
    · cases hq
    · exact hq
  have hpc : q.workers[i]? = p.workers[i]? := by rw [h.workers]
  cases hp with
  | worker _ hw =>
      cases hw with
      | loopTest hw =>
          simp only [workerStep, hpc, hw, ← h.running, Option.some.injEq] at hq
          subst hq
          exact ⟨h.control ⟨rfl, rfl⟩ ⟨rfl, rfl⟩ h.running h.qMtx h.jobQueue h.seq
            (by simp [h.workers]) h.trapped, id, Or.inl rfl, rfl, rfl⟩
      | acquire hw hfree =>
          have hq' : q' = setWorker { q with qMtx := some (.worker i) } i .waitTest := by
            rcases hw with hw | hw <;>
              simp_all [workerStep, ← h.qMtx]
          subst hq'
          exact ⟨h.control ⟨rfl, rfl⟩ ⟨rfl, rfl⟩ h.running rfl h.jobQueue h.seq
            (by simp [h.workers]) h.trapped, id, Or.inl rfl, rfl, rfl⟩
      | wait hw hrun hempty =>
          simp only [workerStep, hpc, hw, ← h.running, ← h.jobQueue, hrun, hempty,
            Option.some.injEq] at hq
          subst hq
          exact ⟨h.control ⟨rfl, rfl⟩ ⟨rfl, rfl⟩ h.running h.qMtx h.jobQueue h.seq
            (by simp [h.workers]) h.trapped, id, Or.inl rfl, rfl, rfl⟩
      | leaveWait hw hgo =>
          have hq' : q' = q.setWorker i .exitTest := by
            have htest : (q.running && q.jobQueue.isEmpty) = false := by
              rw [← h.running, ← h.jobQueue]
              rcases hgo with hrun | hne
              · simp [hrun]
              · simp [hne]
            simpa [workerStep, hpc, hw, htest] using hq.symm
          subst hq'
          exact ⟨h.control ⟨rfl, rfl⟩ ⟨rfl, rfl⟩ h.running h.qMtx h.jobQueue h.seq
            (by simp [h.workers]) h.trapped, id, Or.inl rfl, rfl, rfl⟩
      | enterWait hw =>
          simp only [workerStep, hpc, hw, Option.some.injEq] at hq
          subst hq
          exact ⟨h.control ⟨rfl, rfl⟩ ⟨rfl, rfl⟩ h.running rfl h.jobQueue h.seq
            (by simp [h.workers]) h.trapped, id, Or.inl rfl, rfl, rfl⟩
      | spurious hw =>
          simp only [workerStep, hpc, hw, Option.some.injEq] at hq
          subst hq
          exact ⟨h.control ⟨rfl, rfl⟩ ⟨rfl, rfl⟩ h.running h.qMtx h.jobQueue h.seq
            (by simp [h.workers]) h.trapped, id, Or.inl rfl, rfl, rfl⟩
      | exit hw hrun hempty =>
          simp only [workerStep, hpc, hw, ← h.running, ← h.jobQueue, hrun, hempty, and_self,
            if_true, Option.some.injEq] at hq
          subst hq
          exact ⟨h.control ⟨rfl, rfl⟩ ⟨rfl, rfl⟩ hrun rfl hempty h.seq
            (by simp [h.workers]) h.trapped, id, Or.inl rfl, rfl, rfl⟩
      | take hw job rest hqueue =>
          simp only [workerStep, hpc, hw, ← h.jobQueue, hqueue, reduceCtorEq, and_false,
            if_false, Option.some.injEq] at hq
          subst hq
          exact ⟨h.control ⟨rfl, rfl⟩ ⟨rfl, rfl⟩ h.running rfl rfl h.seq
            (by simp [h.workers]) h.trapped, id, Or.inl rfl, rfl, rfl⟩
      | evaluate job hw j hj status result heval =>
          obtain ⟨k, hk, hsame⟩ := h.record hj
          simp only [workerStep, hpc, hw, hk, ← hsame.req, heval, Option.some.injEq] at hq
          subst hq
          exact ⟨h.control ⟨rfl, rfl⟩ ⟨rfl, rfl⟩ h.running h.qMtx h.jobQueue h.seq
            (by simp [h.workers]) h.trapped, id, Or.inl rfl, rfl, rfl⟩
      | trap job hw j hj heval =>
          obtain ⟨k, hk, hsame⟩ := h.record hj
          simp only [workerStep, hpc, hw, hk, ← hsame.req, heval, Option.some.injEq] at hq
          subst hq
          exact ⟨h.control ⟨rfl, rfl⟩ ⟨rfl, rfl⟩ h.running h.qMtx h.jobQueue h.seq
            h.workers rfl, id, Or.inl rfl, rfl, rfl⟩
      | publish job status result hw =>
          simp only [workerStep, hpc, hw, Option.some.injEq] at hq
          subst hq
          have hpublish : (p.publish job status result).AgreesOn N (q.publish job status result) :=
            h.modify job _ _ rfl rfl fun j k _ hsame =>
              ⟨hsame.id, hsame.req, rfl, rfl, fun _ => rfl⟩
          exact ⟨hpublish.control ⟨rfl, rfl⟩ ⟨rfl, rfl⟩ h.running h.qMtx h.jobQueue h.seq
            (by simp [h.workers]) h.trapped, id, Or.inl rfl, rfl, rfl⟩
      | notify job hw =>
          simp only [workerStep, hpc, hw, Option.some.injEq] at hq
          subst hq
          exact ⟨h.control ⟨rfl, rfl⟩ ⟨rfl, rfl⟩ h.running h.qMtx h.jobQueue h.seq
            (by simp [h.workers]) h.trapped, _, Or.inr ⟨job, rfl⟩, rfl, rfl⟩

theorem AgreesOn.caller_step {p' q' : Pool} {choice : Choice} (h : p.AgreesOn N q)
    (hticketed : p.Ticketed) (hsame : q.callers 0 = p.callers 0)
    (hget : ∀ request, (p.callers 0).Getting request → request.reqId ∈ N)
    (hp : p.step (.caller 0 choice) = some p') (hq : q.step (.caller 0 choice) = some q') :
    p'.AgreesOn N q' ∧ q'.callers 0 = p'.callers 0 := by
  obtain ⟨-, hp⟩ := step_cases hp
  have hq : q.callerStep 0 choice = some q' := by
    unfold step at hq
    split at hq
    · cases hq
    · exact hq
  cases hp with
  | caller _ _ hc =>
      cases hc with
      | blocking request hpc hmode response heval =>
          simp only [callerStep, hsame, hpc, hmode, heval, Option.some.injEq] at hq
          subst hq
          exact ⟨h.congr rfl rfl, by simp⟩
      | trap request hpc hmode heval =>
          simp only [callerStep, hsame, hpc, hmode, heval, Option.some.injEq] at hq
          subst hq
          exact ⟨h.control ⟨rfl, rfl⟩ ⟨rfl, rfl⟩ h.running h.qMtx h.jobQueue h.seq h.workers rfl,
            hsame⟩
      | refuse request hpc hmode hbad =>
          have hq' : q' = q.setCaller 0 (.ran request { status := .stErrorInvalidInput }) := by
            cases hm : request.mode with
            | blocking => exact absurd hm hmode
            | nonblocking => simpa [callerStep, hsame, hpc, hm, hbad hm] using hq.symm
            | unrecognized => simpa [callerStep, hsame, hpc, hm] using hq.symm
          subst hq'
          exact ⟨h.congr rfl rfl, by simp⟩
      | enqueue request hpc hmode hpayload =>
          obtain ⟨payload, hpay⟩ := Option.ne_none_iff_exists'.mp hpayload
          simp only [callerStep, hsame, hpc, hmode, hpay, ← h.seq, ← h.length,
            Option.some.injEq] at hq
          subst hq
          exact ⟨(h.allocate request _).congr rfl rfl, by simp⟩
      | insert request id job hpc =>
          simp only [callerStep, hsame, hpc, Option.some.injEq] at hq
          subst hq
          refine ⟨⟨h.running, h.qMtx, h.jobQueue, h.seq, h.workers, h.trapped, h.length,
            h.records, fun t ht => ?_⟩, by simp⟩
          simp only [setCaller_jobs, Table.insert_apply, h.jobs t ht]
      | lockQueue request id job hpc hfree =>
          simp only [callerStep, hsame, hpc, ← h.qMtx, hfree, if_true, Option.some.injEq] at hq
          subst hq
          exact ⟨h.control ⟨rfl, rfl⟩ ⟨rfl, rfl⟩ h.running rfl h.jobQueue h.seq h.workers
            h.trapped, by simp⟩
      | push request id job hpc =>
          simp only [callerStep, hsame, hpc, Option.some.injEq] at hq
          subst hq
          exact ⟨h.control ⟨rfl, rfl⟩ ⟨rfl, rfl⟩ h.running rfl (by simp [h.jobQueue]) h.seq
            h.workers h.trapped, by simp⟩
      | signal request id job hpc hok =>
          have hok' : q.SignalOk choice.wake := by
            unfold SignalOk at hok ⊢
            rwa [← h.workers]
          simp only [callerStep, hsame, hpc, hok', if_true, Option.some.injEq] at hq
          subst hq
          exact ⟨h.control ⟨rfl, rfl⟩ ⟨rfl, rfl⟩ h.running h.qMtx h.jobQueue h.seq
            (by simp [h.workers]) h.trapped, by simp⟩
      | findNone request hpc hjob =>
          have hin : request.reqId ∈ N := hget request (by rw [hpc]; rfl)
          simp only [callerStep, hsame, hpc, ← h.jobs _ hin, hjob, Option.some.injEq] at hq
          subst hq
          exact ⟨h.congr rfl rfl, by simp⟩
      | findNoWait request hpc job hjob hmode | findWaitUpTo request hpc job hjob hmode =>
          have hin : request.reqId ∈ N := hget request (by rw [hpc]; rfl)
          simp only [callerStep, hsame, hpc, ← h.jobs _ hin, hjob, hmode,
            Option.some.injEq] at hq
          subst hq
          exact ⟨h.congr rfl rfl, by simp⟩
      | findBadMode request hpc job hjob hno hwait =>
          have hin : request.reqId ∈ N := hget request (by rw [hpc]; rfl)
          have hq' : q' = q.setCaller 0 (.got request { status := .stErrorInvalidInput }) := by
            cases hm : request.waitMode with
            | noWait => exact absurd hm hno
            | waitUpTo => exact absurd hm hwait
            | unrecognized =>
                simpa [callerStep, hsame, hpc, ← h.jobs _ hin, hjob, hm] using hq.symm
          subst hq'
          exact ⟨h.congr rfl rfl, by simp⟩
      | notFinished request job hpc j hj hdone =>
          obtain ⟨k, hk, hrec⟩ := h.record hj
          have hq' : q' = q.setCaller 0 (.got request { status := .stNotFinished }) := by
            rcases hpc with hpc | hpc <;>
              simpa [callerStep, hsame, hpc, hk, ← hrec.done, hdone] using hq.symm
          subst hq'
          exact ⟨h.congr rfl rfl, by simp⟩
      | block request job hpc j hj hdone =>
          obtain ⟨k, hk, hrec⟩ := h.record hj
          simp only [callerStep, hsame, hpc, hk, ← hrec.done, hdone, if_true,
            Option.some.injEq] at hq
          subst hq
          exact ⟨h.congr rfl rfl, by simp⟩
      | consume request job hpc j hj hdone =>
          obtain ⟨k, hk, hrec⟩ := h.record hj
          have hread : (p.callers 0).reads = some (request.reqId, job) ∧
              request.reqId ∈ N := by
            rcases hpc with hpc | ⟨timeout, hpc⟩ <;>
              exact ⟨by rw [hpc]; rfl, hget request (by rw [hpc]; rfl)⟩
          obtain ⟨j₁, hj₁, hid⟩ := hticketed.reading 0 _ _ hread.1
          obtain rfl : j = j₁ := Option.some.inj (hj.symm.trans hj₁)
          have hresult : k.result = j.result := (hrec.result (hid ▸ hread.2)).symm
          have hq' : q' = q.consume 0 request job k := by
            rcases hpc with hpc | ⟨timeout, hpc⟩ <;>
              simpa [callerStep, hsame, hpc, hk, ← hrec.done, hdone] using hq.symm
          subst hq'
          have hswap : (p.swapOut job).AgreesOn N (q.swapOut job) :=
            h.modify job _ _ rfl rfl fun j k _ hsame =>
              ⟨hsame.id, hsame.req, hsame.status, hsame.done, fun _ => rfl⟩
          refine ⟨hswap.congr rfl rfl, ?_⟩
          simp [Pool.consume, hresult, hrec.status]
      | wake request job hpc =>
          have hq' : q' = q.setCaller 0 (.waitUpTo request job choice.timedOut) := by
            rcases hpc with hpc | hpc <;> simpa [callerStep, hsame, hpc] using hq.symm
          subst hq'
          exact ⟨h.congr rfl rfl, by simp⟩
      | erase request response hpc =>
          simp only [callerStep, hsame, hpc, Option.some.injEq] at hq
          subst hq
          refine ⟨⟨h.running, h.qMtx, h.jobQueue, h.seq, h.workers, h.trapped, h.length,
            h.records, fun t ht => ?_⟩, by simp⟩
          simp only [setCaller_jobs, Table.erase_apply, h.jobs t ht]
      | ran request response hpc | got request response hpc | stopped hpc =>
          simp only [callerStep, hsame, hpc, Option.some.injEq] at hq
          subst hq
          exact ⟨h.congr rfl rfl, by simp⟩
      | stopTest hpc =>
          simp only [callerStep, hsame, hpc, ← h.running, Option.some.injEq] at hq
          subst hq
          exact ⟨h.congr rfl rfl, by simp⟩
      | stopStore hpc =>
          simp only [callerStep, hsame, hpc, Option.some.injEq] at hq
          subst hq
          exact ⟨h.control ⟨rfl, rfl⟩ ⟨rfl, rfl⟩ rfl h.qMtx h.jobQueue h.seq h.workers
            h.trapped, by simp⟩
      | stopBroadcast hpc =>
          simp only [callerStep, hsame, hpc, Option.some.injEq] at hq
          subst hq
          exact ⟨h.control ⟨rfl, rfl⟩ ⟨rfl, rfl⟩ h.running h.qMtx h.jobQueue h.seq
            (by simp [h.workers]) h.trapped, by simp⟩
      | join i hpc hexit =>
          simp only [callerStep, hsame, hpc, ← h.workers, hexit, Option.some.injEq] at hq
          subst hq
          exact ⟨h.congr rfl rfl, by simp⟩
      | joined i hpc hlen =>
          simp only [callerStep, hsame, hpc, ← h.workers, hlen, Option.some.injEq] at hq
          subst hq
          exact ⟨h.congr rfl rfl, by simp⟩

theorem AgreesOn.worker_enabled {p' : Pool} {i : ℕ} (h : p.AgreesOn N q)
    (hp : p.step (.worker i) = some p') : ∃ q', q.step (.worker i) = some q' := by
  obtain ⟨htrap, hp⟩ := step_cases hp
  rw [h.trapped] at htrap
  have hpc : q.workers[i]? = p.workers[i]? := by rw [h.workers]
  cases hp with
  | worker _ hw =>
      cases hw with
      | acquire hw hfree =>
          rw [h.qMtx] at hfree
          rcases hw with hw | hw <;> simp [step, htrap, workerStep, hpc, hw, hfree]
      | exit hw hrun hempty =>
          simp [step, htrap, workerStep, hpc, hw, ← h.running, hrun, ← h.jobQueue, hempty]
      | take hw job rest hqueue =>
          simp [step, htrap, workerStep, hpc, hw, ← h.jobQueue, hqueue]
      | evaluate job hw j hj status result heval =>
          obtain ⟨k, hk, hsame⟩ := h.record hj
          rw [hsame.req] at heval
          simp [step, htrap, workerStep, hpc, hw, hk, heval]
      | trap job hw j hj heval =>
          obtain ⟨k, hk, hsame⟩ := h.record hj
          rw [hsame.req] at heval
          simp [step, htrap, workerStep, hpc, hw, hk, heval]
      | loopTest hw | wait hw | leaveWait hw | enterWait hw | spurious hw
      | publish job status result hw | notify job hw =>
          simp [step, htrap, workerStep, hpc, hw]

theorem AgreesOn.caller_enabled {p' : Pool} {choice : Choice} (h : p.AgreesOn N q)
    (hsame : q.callers 0 = p.callers 0) (hp : p.step (.caller 0 choice) = some p') :
    ∃ q', q.step (.caller 0 choice) = some q' := by
  obtain ⟨htrap, hp⟩ := step_cases hp
  rw [h.trapped] at htrap
  cases hp with
  | caller _ _ hc =>
      cases hc with
      | blocking request hpc hmode response heval =>
          simp [step, htrap, callerStep, hsame, hpc, hmode, heval]
      | trap request hpc hmode heval =>
          simp [step, htrap, callerStep, hsame, hpc, hmode, heval]
      | refuse request hpc hmode hbad =>
          cases hm : request.mode with
          | blocking => exact absurd hm hmode
          | nonblocking => simp [step, htrap, callerStep, hsame, hpc, hm, hbad hm]
          | unrecognized => simp [step, htrap, callerStep, hsame, hpc, hm]
      | enqueue request hpc hmode hpayload =>
          obtain ⟨payload, hsome⟩ := Option.ne_none_iff_exists'.mp hpayload
          simp [step, htrap, callerStep, hsame, hpc, hmode, hsome]
      | lockQueue request id job hpc hfree =>
          rw [h.qMtx] at hfree
          simp [step, htrap, callerStep, hsame, hpc, hfree]
      | signal request id job hpc hok =>
          have hok' : q.SignalOk choice.wake := by
            unfold SignalOk at hok ⊢
            rw [← h.workers]
            exact hok
          simp [step, htrap, callerStep, hsame, hpc, hok']
      | findNone request hpc | findNoWait request hpc | findWaitUpTo request hpc
      | findBadMode request hpc =>
          cases hjob : q.jobs request.reqId with
          | none => simp [step, htrap, callerStep, hsame, hpc, hjob]
          | some job =>
              cases hm : request.waitMode <;>
                simp [step, htrap, callerStep, hsame, hpc, hjob, hm]
      | notFinished request job hpc j hj =>
          obtain ⟨k, hk, -⟩ := h.record hj
          cases hdone : k.done <;>
            rcases hpc with hpc | hpc <;>
              simp [step, htrap, callerStep, hsame, hpc, hk, hdone]
      | block request job hpc j hj =>
          obtain ⟨k, hk, -⟩ := h.record hj
          cases hdone : k.done <;> simp [step, htrap, callerStep, hsame, hpc, hk, hdone]
      | consume request job hpc j hj hdone =>
          obtain ⟨k, hk, hrec⟩ := h.record hj
          rw [hrec.done] at hdone
          rcases hpc with hpc | ⟨timeout, hpc⟩ <;>
            simp [step, htrap, callerStep, hsame, hpc, hk, hdone]
      | wake request job hpc =>
          rcases hpc with hpc | hpc <;> simp [step, htrap, callerStep, hsame, hpc]
      | join i hpc hexit =>
          rw [h.workers] at hexit
          simp [step, htrap, callerStep, hsame, hpc, hexit]
      | joined i hpc hlen =>
          rw [h.workers] at hlen
          simp [step, htrap, callerStep, hsame, hpc, hlen]
      | insert request id job hpc | push request id job hpc | ran request response hpc
      | erase request response hpc | got request response hpc | stopTest hpc | stopStore hpc
      | stopBroadcast hpc | stopped hpc =>
          simp [step, htrap, callerStep, hsame, hpc]

end Pool

end InterProcess
