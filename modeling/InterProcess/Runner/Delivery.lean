import InterProcess.Runner.Record

/-!
# Results that are delivered once

A call of `get` that finds its job done swaps the result out under `job->m` and erases
the ticket under `jobsMtx`, and it has looked the job up in a section before both. Two
threads with the same ticket can both pass the lookup, and then both find the job done:
the second one answers the final status with the result that the first one has left
behind. `takes` lists the calls of a run that find their job done. As long as each of
them still finds the ticket in `jobs`, with no other call between its swap and its erase,
every job is taken once and every answer with a result is complete.
-/

namespace InterProcess

open Transition

def delivery (request : GetRequest) (response : GetResponse) : Option (GetRequest × GetResponse) :=
  if response.result.isSome then some (request, response) else none

/-- The answer with a result that a call has not returned yet. -/
def CallerPc.carries : CallerPc → Option (GetRequest × GetResponse)
  | .erase request response | .got request response => delivery request response
  | _ => none

def Event.delivered? (c : ℕ) : Event → Option (GetRequest × GetResponse)
  | .got d request response => if d = c then delivery request response else none
  | _ => none

def CallerPc.response : CallerPc → Option GetResponse
  | .erase _ response | .got _ response => some response
  | _ => none

/-- A response without a result is one of the two answers that have none. -/
def GetResponse.Proper (response : GetResponse) : Prop :=
  response.result = none → response.status = .stNotFinished ∨ response.status = .stErrorInvalidInput

/-- The request and the job whose `done` the thread is about to test. -/
def CallerPc.reaches : CallerPc → Option (GetRequest × JobRef)
  | .noWait request job | .waitUpTo request job _ => some (request, job)
  | _ => none

theorem CallerPc.reads_of_reaches {pc : CallerPc} {request : GetRequest} {job : JobRef}
    (h : pc.reaches = some (request, job)) : pc.reads = some (request.reqId, job) := by
  cases pc with
  | noWait | waitUpTo =>
      obtain ⟨rfl, rfl⟩ := Prod.mk.inj (Option.some.inj h)
      rfl
  | _ => cases h

/-- A call of `get` that has found its job done, and what it has found in the record. -/
structure Take where
  caller : ℕ
  request : GetRequest
  job : JobRef
  record : Job
  deriving DecidableEq, Repr

def Take.answer (take : Take) : GetRequest × GetResponse :=
  (take.request, { status := take.record.status, result := some take.record.result })

namespace Pool

variable {p p' : Pool}

def take (p : Pool) : Label → Option Take
  | .caller c _ =>
      match (p.callers c).reaches with
      | none => none
      | some (request, job) =>
          match p.heap[job]? with
          | none => none
          | some j => if j.done then some ⟨c, request, job, j⟩ else none
  | .run _ _ | .get _ _ | .deinit _ | .worker _ => none

def takes : Pool → List Label → List Take := observed step take

/-- The answers with a result of the calls of thread `c`, the last of which may not have
returned yet. -/
def deliveries (p : Pool) (c : ℕ) : List (GetRequest × GetResponse) :=
  p.log.filterMap (Event.delivered? c) ++ (p.callers c).carries.toList

/-- A call that finds its job done finds its ticket in `jobs` with that job, and no call
is about to erase the ticket. -/
def Undisputed (p : Pool) (l : Label) : Prop :=
  ∀ take, p.take l = some take → p.jobs take.request.reqId = some take.job ∧
    ∀ c, (p.callers c).erases ≠ some take.request.reqId

/-- Each result is delivered once. -/
structure Once (takes : List Take) (p : Pool) : Prop where
  /-- no two calls find the same job done -/
  once : (takes.map Take.job).Nodup
  /-- each of them finds the status and the whole result of the job -/
  complete : ∀ take ∈ takes, evaluate take.record.req = some (take.record.status, take.record.result)
  /-- and answers them -/
  delivered : ∀ c, p.deliveries c = (takes.filter fun take => take.caller = c).map Take.answer
  /-- every other call answers that there is no result -/
  others : ∀ c request response, .got c request response ∈ p.log → response.Proper
  /-- no call answers `ST_SUCCESS` without a value -/
  full : ∀ c request response, .got c request response ∈ p.log → response.status = .stSuccess →
    ∃ value, response.result = some { value := some value }

theorem take_eq_some {l : Label} {take : Take} :
    p.take l = some take ↔ ∃ choice, l = .caller take.caller choice ∧
      (p.callers take.caller).reaches = some (take.request, take.job) ∧
      p.heap[take.job]? = some take.record ∧ take.record.done = true := by
  cases l with
  | caller c choice =>
      unfold Pool.take
      constructor
      · intro h
        dsimp only at h
        split at h
        · cases h
        · next request job hreaches =>
            split at h
            · cases h
            · next j hj =>
                split at h
                · next hdone =>
                    cases h
                    exact ⟨choice, rfl, hreaches, hj, hdone⟩
                · cases h
      · rintro ⟨choice', heq, hreaches, hj, hdone⟩
        obtain ⟨rfl, rfl⟩ : c = take.caller ∧ choice = choice' := by simpa using heq
        simp [hreaches, hj, hdone]
  | run | get | deinit | worker => simp [Pool.take]

theorem carries_notified (job : JobRef) (pc : CallerPc) : (pc.notified job).carries = pc.carries :=
  CallerPc.notified_congr CallerPc.carries (fun _ _ => rfl) job pc

theorem deliveries_move {c d : ℕ} {pc : CallerPc} (hcallers : p'.callers = Function.update p.callers d pc)
    (hlog : p'.log.filterMap (Event.delivered? c) = p.log.filterMap (Event.delivered? c))
    (hcarries : pc.carries = (p.callers d).carries) : p'.deliveries c = p.deliveries c := by
  unfold deliveries
  rw [hlog, hcallers, Function.update_apply]
  split
  · next hd => rw [hd, hcarries]
  · rfl

theorem deliveries_step {l : Label} (hs : p.step l = some p') (c : ℕ) :
    p'.deliveries c = p.deliveries c ++
      ((p.take l).toList.filter fun take => take.caller = c).map Take.answer := by
  obtain ⟨-, hs⟩ := step_cases hs
  -- a step that takes nothing adds nothing
  suffices hquiet : p.take l = none ∧ p'.deliveries c = p.deliveries c ∨
      ∃ take, p.take l = some take ∧ p'.deliveries c =
        p.deliveries c ++ if take.caller = c then [take.answer] else [] by
    rcases hquiet with ⟨hnone, hsame⟩ | ⟨take, htake, hmore⟩
    · rw [hnone, hsame]
      simp
    · rw [htake, hmore]
      by_cases hc : take.caller = c <;> simp [hc]
  cases hs with
  | run d _ hidle | get d _ hidle | deinit d hidle =>
      exact Or.inl ⟨rfl, deliveries_move rfl rfl (by rw [hidle]; rfl)⟩
  | worker i hw =>
      refine Or.inl ⟨rfl, ?_⟩
      cases hw with
      | notify job =>
          unfold deliveries
          rw [setWorker_callers, carries_notified]
          rfl
      | take | evaluate | publish =>
          simp [deliveries, Event.delivered?]
      | _ => rfl
  | caller d choice hc =>
      cases hc with
      | consume request job hpc j hj hdone =>
          have hreaches : (p.callers d).reaches = some (request, job) := by
            rcases hpc with hpc | ⟨timeout, hpc⟩ <;> rw [hpc] <;> rfl
          have hcarries : (p.callers d).carries = none := by
            rcases hpc with hpc | ⟨timeout, hpc⟩ <;> rw [hpc] <;> rfl
          refine Or.inr ⟨⟨d, request, job, j⟩, take_eq_some.mpr ⟨choice, rfl, hreaches, hj, hdone⟩, ?_⟩
          unfold deliveries Pool.consume
          rw [setCaller_callers, Function.update_apply]
          by_cases hcd : c = d
          · subst hcd
            rw [hcarries, if_pos rfl, if_pos rfl]
            simp [CallerPc.carries, delivery, Take.answer]
          · simp [hcd, Ne.symm hcd]
      | erase request response hpc =>
          refine Or.inl ⟨by simp [Pool.take, hpc, CallerPc.reaches], ?_⟩
          exact deliveries_move rfl rfl (by rw [hpc]; rfl)
      | got request response hpc =>
          refine Or.inl ⟨by simp [Pool.take, hpc, CallerPc.reaches], ?_⟩
          unfold deliveries
          rw [emit_callers, setCaller_callers, Function.update_apply, emit_log, setCaller_log]
          by_cases hcd : c = d
          · subst hcd
            cases hdelivery : delivery request response <;>
              simp [hpc, CallerPc.carries, Event.delivered?, hdelivery]
          · simp [hcd, Ne.symm hcd, Event.delivered?]
      | notFinished request job hpc j hj hdone =>
          refine Or.inl ⟨?_, ?_⟩
          · rcases hpc with hpc | hpc <;> simp [Pool.take, hpc, CallerPc.reaches, hj, hdone]
          · refine deliveries_move rfl rfl ?_
            rcases hpc with hpc | hpc <;> rw [hpc] <;> rfl
      | block request job hpc j hj hdone =>
          refine Or.inl ⟨by simp [Pool.take, hpc, CallerPc.reaches, hj, hdone], ?_⟩
          exact deliveries_move rfl rfl (by rw [hpc]; rfl)
      | wake request job hpc =>
          refine Or.inl ⟨?_, ?_⟩
          · rcases hpc with hpc | hpc <;> simp [Pool.take, hpc, CallerPc.reaches]
          · refine deliveries_move rfl rfl ?_
            rcases hpc with hpc | hpc <;> rw [hpc] <;> rfl
      | stopTest hpc =>
          refine Or.inl ⟨by simp [Pool.take, hpc, CallerPc.reaches], deliveries_move rfl rfl ?_⟩
          rw [hpc]
          split <;> rfl
      | trap _ hpc => exact Or.inl ⟨by simp [Pool.take, hpc, CallerPc.reaches], rfl⟩
      | enqueue _ hpc | push _ _ _ hpc | ran _ _ hpc =>
          refine Or.inl ⟨by simp [Pool.take, hpc, CallerPc.reaches], ?_⟩
          exact deliveries_move rfl (by simp [Event.delivered?]) (by rw [hpc]; rfl)
      | blocking _ hpc | refuse _ hpc | insert _ _ _ hpc | lockQueue _ _ _ hpc | signal _ _ _ hpc
      | findNone _ hpc | findNoWait _ hpc | findWaitUpTo _ hpc | findBadMode _ hpc
      | stopStore hpc | stopBroadcast hpc | join _ hpc | joined _ hpc | stopped hpc =>
          refine Or.inl ⟨by simp [Pool.take, hpc, CallerPc.reaches], ?_⟩
          exact deliveries_move rfl rfl (by rw [hpc]; rfl)

/-- All responses are proper, returned or not. -/
structure Responding (p : Pool) : Prop where
  here : ∀ c response, (p.callers c).response = some response → response.Proper
  logged : ∀ c request response, .got c request response ∈ p.log → response.Proper

theorem responding_start (n : ℕ) : (start n).Responding where
  here c response h := by cases h
  logged c request response h := by cases h

theorem response_notified (job : JobRef) (pc : CallerPc) :
    (pc.notified job).response = pc.response :=
  CallerPc.notified_congr CallerPc.response (fun _ _ => rfl) job pc

theorem Responding.move (h : p.Responding) {d : ℕ} {pc : CallerPc}
    (hcallers : p'.callers = Function.update p.callers d pc)
    (hlog : ∀ c request response, .got c request response ∈ p'.log →
      .got c request response ∈ p.log ∨ response.Proper)
    (hpc : ∀ response, pc.response = some response → response.Proper) : p'.Responding where
  here c response hc := by
    rw [hcallers, Function.update_apply] at hc
    split at hc
    · exact hpc response hc
    · exact h.here c response hc
  logged c request response hin :=
    (hlog c request response hin).elim (h.logged c request response) id

theorem responding_step (p : Pool) (l : Label) (p' : Pool) (h : p.Responding)
    (hs : p.step l = some p') : p'.Responding := by
  obtain ⟨-, hs⟩ := step_cases hs
  have hsame : ∀ c request response, Event.got c request response ∈ p.log →
      .got c request response ∈ p.log ∨ response.Proper := fun _ _ _ hin => Or.inl hin
  cases hs with
  | run | get | deinit => exact h.move rfl hsame (by simp [CallerPc.response])
  | worker i hw =>
      cases hw with
      | notify job =>
          refine ⟨fun c response hc => h.here c response ?_, h.logged⟩
          rw [← response_notified job]
          exact hc
      | take | evaluate | publish => exact ⟨h.here, by simpa using h.logged⟩
      | _ => exact ⟨h.here, h.logged⟩
  | caller d choice hc =>
      cases hc with
      | trap => exact ⟨h.here, h.logged⟩
      | findNone | findBadMode =>
          refine h.move rfl hsame ?_
          rintro response ⟨⟩
          exact fun _ => Or.inr rfl
      | notFinished =>
          refine h.move rfl hsame ?_
          rintro response ⟨⟩
          exact fun _ => Or.inl rfl
      | consume =>
          refine h.move rfl hsame ?_
          rintro response ⟨⟩ hnone
          cases hnone
      | erase request response hpc =>
          refine h.move rfl hsame ?_
          rintro response' ⟨⟩
          exact h.here d response (by rw [hpc]; rfl)
      | got request response hpc =>
          refine h.move rfl (fun c r response' hin => ?_) (by simp [CallerPc.response])
          simp only [emit_log, List.mem_append, List.mem_singleton, Event.got.injEq] at hin
          refine hin.imp id fun heq => ?_
          rw [heq.2.2]
          exact h.here d response (by rw [hpc]; rfl)
      | enqueue | push | ran =>
          exact h.move rfl (fun c r response hin => Or.inl (by simpa using hin))
            (by simp [CallerPc.response])
      | stopTest =>
          refine h.move rfl hsame ?_
          split <;> simp [CallerPc.response]
      | _ => exact h.move rfl hsame (by simp [CallerPc.response])

/-- No call can find the job any more, once its ticket is erased: it is not about to be
inserted, and if it is in `jobs`, its ticket is about to be erased. -/
structure Spent (p : Pool) (job : JobRef) : Prop where
  erased : ∃ t, p.HasId job t ∧ (p.jobs t = some job → ∃ c, (p.callers c).erases = some t)
  inserted : ∀ c t, (p.callers c).inserts ≠ some (t, job)

theorem extends_step {l : Label} (hs : p.step l = some p') : p.Extends p' := by
  intro job j hj
  obtain ⟨j', hj', hkeeps⟩ := record_step hs hj
  exact ⟨j', hj', hkeeps.id, hkeeps.done⟩

theorem Spent.mono {job : JobRef} (h : p.Spent job) (hext : p.Extends p')
    (hjobs : ∀ t, p'.jobs t = some job → p.jobs t = some job ∧
      ∀ c, (p.callers c).erases = some t → ∃ d, (p'.callers d).erases = some t)
    (hinserts : ∀ c t, (p'.callers c).inserts = some (t, job) →
      ∃ d, (p.callers d).inserts = some (t, job)) : p'.Spent job := by
  obtain ⟨t, hid, herased⟩ := h.erased
  refine ⟨⟨t, hext.hasId hid, fun hin => ?_⟩, fun c t' hc => ?_⟩
  · obtain ⟨hold, hkeeps⟩ := hjobs t hin
    obtain ⟨c, hc⟩ := herased hold
    exact hkeeps c hc
  · obtain ⟨d, hd⟩ := hinserts c t' hc
    exact h.inserted d t' hd

theorem Spent.move {job : JobRef} (h : p.Spent job) (hext : p.Extends p') {d : ℕ} {pc : CallerPc}
    (hcallers : p'.callers = Function.update p.callers d pc)
    (hjobs : ∀ t, p'.jobs t = some job → p.jobs t = some job ∧ (p.callers d).erases ≠ some t)
    (hinserts : ∀ t, pc.inserts ≠ some (t, job)) : p'.Spent job := by
  refine h.mono hext (fun t hin => ⟨(hjobs t hin).1, fun c hc => ⟨c, ?_⟩⟩) fun c t hc => ⟨c, ?_⟩
  · have hcd : c ≠ d := by
      rintro rfl
      exact (hjobs t hin).2 hc
    rw [hcallers, Function.update_of_ne hcd]
    exact hc
  · rw [hcallers, Function.update_apply] at hc
    split at hc
    · exact absurd hc (hinserts t)
    · exact hc

theorem spent_step {job : JobRef} (h : p.Spent job) {l : Label} (hs : p.step l = some p') :
    p'.Spent job := by
  have hext := extends_step hs
  have hlt : job < p.heap.length := by
    obtain ⟨t, ⟨j, hj, -⟩, -⟩ := h.erased
    exact (List.getElem?_eq_some_iff.mp hj).1
  obtain ⟨-, hs⟩ := step_cases hs
  cases hs with
  | run d _ hidle | get d _ hidle | deinit d hidle =>
      exact h.move hext rfl (fun t hin => ⟨hin, by rw [hidle]; simp [CallerPc.erases]⟩)
        (by simp [CallerPc.inserts])
  | worker i hw =>
      cases hw with
      | notify k =>
          refine h.mono hext (fun t hin => ⟨hin, fun c hc => ⟨c, ?_⟩⟩) fun c t hc => ⟨c, ?_⟩
          · exact (erases_notified k (p.callers c)).trans hc
          · exact (inserts_notified k (p.callers c)).symm.trans hc
      | _ => exact h.mono hext (fun t hin => ⟨hin, fun c hc => ⟨c, hc⟩⟩) fun c t hc => ⟨c, hc⟩
  | caller d choice hc =>
      cases hc with
      | trap => exact h.mono hext (fun t hin => ⟨hin, fun c hc => ⟨c, hc⟩⟩) fun c t hc => ⟨c, hc⟩
      | enqueue request hpc =>
          -- the new job is another one
          refine h.move hext rfl (fun t hin => ⟨hin, by rw [hpc]; simp [CallerPc.erases]⟩) fun t ht => ?_
          obtain rfl : p.heap.length = job := (Prod.mk.inj (Option.some.inj ht)).2
          exact lt_irrefl _ hlt
      | insert request id k hpc =>
          refine h.move hext rfl (fun t hin => ?_) (by simp [CallerPc.inserts])
          refine ⟨?_, by rw [hpc]; simp [CallerPc.erases]⟩
          simp only [setCaller_jobs, Table.insert_apply] at hin
          split at hin
          · obtain rfl : k = job := Option.some.inj hin
            exact absurd (by rw [hpc]; rfl) (h.inserted d id)
          · exact hin
      | erase request response hpc =>
          refine h.move hext rfl (fun t hin => ?_) (by simp [CallerPc.inserts])
          obtain ⟨hne, hold⟩ := Table.of_erase_eq_some hin
          refine ⟨hold, ?_⟩
          rw [hpc]
          simpa [CallerPc.erases] using Ne.symm hne
      | consume request k hpc j =>
          refine h.move hext rfl (fun t hin => ⟨hin, ?_⟩) (by simp [CallerPc.inserts])
          rcases hpc with hpc | ⟨timeout, hpc⟩ <;> rw [hpc] <;> simp [CallerPc.erases]
      | notFinished _ _ hpc | wake _ _ hpc =>
          refine h.move hext rfl (fun t hin => ⟨hin, ?_⟩) (by simp [CallerPc.inserts])
          rcases hpc with hpc | hpc <;> rw [hpc] <;> simp [CallerPc.erases]
      | stopTest hpc =>
          refine h.move hext rfl (fun t hin => ⟨hin, by rw [hpc]; simp [CallerPc.erases]⟩) ?_
          split <;> simp [CallerPc.inserts]
      | blocking _ hpc | refuse _ hpc | lockQueue _ _ _ hpc | push _ _ _ hpc | signal _ _ _ hpc
      | ran _ _ hpc | findNone _ hpc | findNoWait _ hpc | findWaitUpTo _ hpc | findBadMode _ hpc
      | block _ _ hpc | got _ _ hpc | stopStore hpc | stopBroadcast hpc | join _ hpc
      | joined _ hpc | stopped hpc =>
          exact h.move hext rfl (fun t hin => ⟨hin, by rw [hpc]; simp [CallerPc.erases]⟩)
            (by simp [CallerPc.inserts])

theorem eq_consume_of_take {l : Label} {take : Take} (htake : p.take l = some take)
    (hs : p.step l = some p') : p' = p.consume take.caller take.request take.job take.record := by
  obtain ⟨choice, rfl, hreaches, hj, hdone⟩ := take_eq_some.mp htake
  unfold step at hs
  split at hs
  · cases hs
  · cases hpc : p.callers take.caller with
    | noWait request job | waitUpTo request job timeout =>
        rw [hpc] at hreaches
        obtain ⟨rfl, rfl⟩ : request = take.request ∧ job = take.job := by
          simpa [CallerPc.reaches] using hreaches
        simpa [callerStep, hpc, hj, hdone, eq_comm] using hs
    | _ =>
        rw [hpc] at hreaches
        cases hreaches

theorem Spent.disputed {take : Take} (h : p.Spent take.job) (hticketed : p.Ticketed)
    (hin : p.jobs take.request.reqId = some take.job)
    (hfree : ∀ c, (p.callers c).erases ≠ some take.request.reqId) : False := by
  obtain ⟨t, hid, herased⟩ := h.erased
  obtain rfl : t = take.request.reqId := hid.id_unique (hticketed.entry _ _ hin)
  obtain ⟨c, hc⟩ := herased hin
  exact hfree c hc

theorem spent_of_take (h : p.Recorded) {l : Label} {take : Take} (htake : p.take l = some take)
    (hs : p.step l = some p') : p'.Spent take.job := by
  obtain ⟨choice, -, hreaches, hj, hdone⟩ := take_eq_some.mp htake
  have hid : p.HasId take.job take.request.reqId :=
    h.ticketed.reading take.caller _ _ (CallerPc.reads_of_reaches hreaches)
  have hext := extends_step hs
  obtain rfl := eq_consume_of_take htake hs
  refine ⟨⟨take.request.reqId, hext.hasId hid, fun _ => ⟨take.caller, by simp [Pool.consume, CallerPc.erases]⟩⟩,
    fun d t hd => ?_⟩
  -- a job that is about to be inserted is not done
  have hold : (p.callers d).inserts = some (t, take.job) := by
    by_cases hdc : d = take.caller
    · simp [Pool.consume, hdc, CallerPc.inserts] at hd
    · simpa [Pool.consume, hdc] using hd
  have henqueues : (p.callers d).enqueues = some take.job := by
    cases hpc : p.callers d <;> simp_all [CallerPc.inserts, CallerPc.enqueues]
  have hnot := h.conserved.not_done_of_enqueues henqueues
  rw [isDone_eq_of_record hj, hdone] at hnot
  cases hnot

/-- What holds along the runs in which no taken result is disputed. -/
structure Delivering (n : ℕ) (ls : List Label) (p : Pool) : Prop where
  recorded : p.Recorded
  responding : p.Responding
  delivered : ∀ c, p.deliveries c =
    ((takes (start n) ls).filter fun take => take.caller = c).map Take.answer
  spent : ∀ take ∈ takes (start n) ls, p.Spent take.job
  once : ((takes (start n) ls).map Take.job).Nodup
  complete : ∀ take ∈ takes (start n) ls,
    evaluate take.record.req = some (take.record.status, take.record.result)

theorem delivering_step {n : ℕ} {ls : List Label} {l : Label}
    (hrun : run step (start n) ls = some p) (h : p.Delivering n ls) (hok : p.Undisputed l)
    (hs : p.step l = some p') : p'.Delivering n (ls ++ [l]) := by
  have htakes : takes (start n) (ls ++ [l]) = takes (start n) ls ++ (p.take l).toList :=
    observed_append_singleton hrun l
  have hmem : ∀ take, take ∈ takes (start n) (ls ++ [l]) ↔
      take ∈ takes (start n) ls ∨ p.take l = some take := by
    intro take
    rw [htakes, List.mem_append, Option.mem_toList]
  refine ⟨recorded_step p l p' h.recorded hs, responding_step p l p' h.responding hs, fun c => ?_,
    fun take hin => ?_, ?_, fun take hin => ?_⟩
  · rw [deliveries_step hs c, h.delivered c, htakes, List.filter_append, List.map_append]
  · rcases (hmem take).mp hin with hold | hnew
    · exact spent_step (h.spent take hold) hs
    · exact spent_of_take h.recorded hnew hs
  · rw [htakes, List.map_append]
    cases htake : p.take l with
    | none => simpa using h.once
    | some take =>
        obtain ⟨hin, hfree⟩ := hok take htake
        refine List.Nodup.append h.once (List.nodup_singleton _) ?_
        intro job hold hnew
        obtain rfl := List.mem_singleton.mp hnew
        obtain ⟨take', hin', heq⟩ := List.mem_map.mp hold
        exact (heq ▸ h.spent take' hin').disputed h.recorded.ticketed hin hfree
  · rcases (hmem take).mp hin with hold | hnew
    · exact h.complete take hold
    · obtain ⟨hjob, hfree⟩ := hok take hnew
      obtain ⟨choice, -, -, hj, hdone⟩ := take_eq_some.mp hnew
      exact h.recorded.intact _ _ _ hjob hj hdone hfree

theorem Delivering.exists_take {n : ℕ} {ls : List Label} (h : p.Delivering n ls) {c : ℕ}
    {request : GetRequest} {response : GetResponse} (hin : .got c request response ∈ p.log)
    (hresult : response.result ≠ none) :
    ∃ take ∈ takes (start n) ls, take.caller = c ∧ take.answer = (request, response) := by
  have hdelivered : (request, response) ∈ p.deliveries c := by
    refine List.mem_append_left _ (List.mem_filterMap.mpr ⟨_, hin, ?_⟩)
    simp [Event.delivered?, delivery, Option.isSome_iff_ne_none, hresult]
  rw [h.delivered c] at hdelivered
  obtain ⟨take, htake, hanswer⟩ := List.mem_map.mp hdelivered
  obtain ⟨hin, hcaller⟩ := List.mem_filter.mp htake
  exact ⟨take, hin, by simpa using hcaller, hanswer⟩

theorem Delivering.once_takes {n : ℕ} {ls : List Label} (h : p.Delivering n ls) :
    Once (takes (start n) ls) p where
  once := h.once
  complete := h.complete
  delivered := h.delivered
  others := h.responding.logged
  full c request response hin hstatus := by
    cases hresult : response.result with
    | none =>
        rcases h.responding.logged c request response hin hresult with hno | hno
        · rw [hstatus] at hno
          cases hno
        · rw [hstatus] at hno
          cases hno
    | some result =>
        obtain ⟨take, htake, -, hanswer⟩ := h.exists_take hin (by simp [hresult])
        obtain ⟨-, rfl⟩ := Prod.mk.inj hanswer
        have heval := h.complete take htake
        obtain rfl : take.record.result = result := by simpa using hresult
        have hsuccess : take.record.status = .stSuccess := hstatus
        rw [hsuccess] at heval
        obtain ⟨value, hvalue⟩ := evaluate_success_value heval
        exact ⟨value, by rw [← hvalue]⟩

/-- With a single calling thread no result is disputed. -/
theorem undisputed_of_single (h : p.Serial) {l : Label} (hl : l.Single) : p.Undisputed l := by
  intro take htake
  obtain ⟨choice, rfl, hreaches, -, -⟩ := take_eq_some.mp htake
  have hzero : take.caller = 0 := hl
  rw [hzero] at hreaches
  have hlooks : (p.callers 0).looks = some (take.request, take.job) := by
    cases hpc : p.callers 0 <;> simp_all [CallerPc.reaches, CallerPc.looks]
  refine ⟨(h.looked _ _ hlooks).2, fun c hc => ?_⟩
  by_cases hc0 : c = 0
  · subst hc0
    cases hpc : p.callers 0 <;> simp_all [CallerPc.looks, CallerPc.erases]
  · rw [h.alone c hc0] at hc
    cases hc

theorem guarded_undisputed (n : ℕ) (ls : List Label) (hsingle : ∀ l ∈ ls, l.Single) :
    Guarded step Undisputed (start n) ls := by
  have hguard : Guarded step (fun _ l => l.Single) (start n) ls := guarded_of_forall fun _ => hsingle
  refine Guarded.imp_of_invariant (P := fun p => p.Serial ∧ p.Ticketed ∧ p.Computed) ?_
    (fun p l hp hl => undisputed_of_single hp.1 hl)
    ⟨serial_start n, ticketed_start n, computed_start n⟩ hguard
  intro p l p' hp hl hs
  exact ⟨serial_step hp.1 hp.2.1 hp.2.2 hl hs, ticketed_step p l p' hp.2.1 hs,
    computed_step p l p' hp.2.2 hs⟩

/-- Any number of threads call `get` and `run` while the workers run. As long as every
call that finds its job done finds the ticket in `jobs` with that job, and no other call
about to erase the ticket, each result is delivered once. -/
theorem delivered_once (n : ℕ) (ls : List Label) (p : Pool) (hrun : run step (start n) ls = some p)
    (hok : Guarded step Undisputed (start n) ls) : Once (takes (start n) ls) p := by
  refine Delivering.once_takes (run_history_of_guarded (P := fun ls p => p.Delivering n ls)
    (fun ls p l p' hp h hl hs => delivering_step hp h hl hs) ?_ hok hrun)
  exact ⟨recorded_start n, responding_start n, fun _ => rfl, by simp [takes], by simp [takes],
    by simp [takes]⟩

def pollRequest : GetRequest := { ticket := some { reqId := ticketId 5 0 }, waitMode := .noWait }

/-- The calling thread is one of the first `k`. -/
def Within (k : ℕ) : Label → Prop
  | .run c _ | .get c _ | .deinit c | .caller c _ => c < k
  | .worker _ => True

instance (k : ℕ) : DecidablePred (Within k)
  | .run c _ | .get c _ | .deinit c | .caller c _ => inferInstanceAs (Decidable (c < k))
  | .worker _ => inferInstanceAs (Decidable True)

theorem idle_step {k : ℕ} (h : ∀ c, k ≤ c → p.callers c = .idle) {l : Label} (hl : Within k l)
    (hs : p.step l = some p') : ∀ c, k ≤ c → p'.callers c = .idle := by
  obtain ⟨-, hs⟩ := step_cases hs
  intro d hd
  have hne : ∀ {c : ℕ}, c < k → d ≠ c := fun hc => by omega
  cases hs with
  | run c | get c | deinit c => simpa [hne hl] using h d hd
  | caller c choice hc => cases hc <;> simpa [Pool.consume, hne hl] using h d hd
  | worker i hw =>
      cases hw with
      | notify job => simp [h d hd, CallerPc.notified]
      | _ => exact h d hd

/-- `Undisputed`, where only the first `k` threads call. -/
def UndisputedWithin (k : ℕ) (p : Pool) (l : Label) : Prop :=
  Within k l ∧ ∀ take ∈ p.take l, p.jobs take.request.reqId = some take.job ∧
    ∀ c < k, (p.callers c).erases ≠ some take.request.reqId

instance (k : ℕ) (p : Pool) (l : Label) : Decidable (p.UndisputedWithin k l) :=
  inferInstanceAs (Decidable (_ ∧ _))

theorem guarded_undisputed_within {n k : ℕ} {ls : List Label}
    (h : Guarded step (UndisputedWithin k) (start n) ls) :
    Guarded step Undisputed (start n) ls := by
  refine Guarded.imp_of_invariant (P := fun p => ∀ c, k ≤ c → p.callers c = .idle)
    (fun p l p' hp hl hs => idle_step hp hl.1 hs) (fun p l hp hl take htake => ?_)
    (fun _ _ => rfl) h
  obtain ⟨hjob, herases⟩ := hl.2 take htake
  refine ⟨hjob, fun c => ?_⟩
  by_cases hc : c < k
  · exact herases c hc
  · simp [hp c (by omega), CallerPc.erases]

/-- Two threads ask for the result of an addition, and both look the ticket up before one of
them answers. The one comes before the worker is done, the other after that. -/
def pollOverlap : List Label :=
  takenSchedule ++ [.get 0 pollRequest, .get 1 pollRequest, .caller 0 {}, .caller 1 {},
    .caller 1 {}, .caller 1 {}, .worker 0, .worker 0, .caller 0 {}, .caller 0 {}, .caller 0 {}]

/-- The first is answered that there is no result yet, the second delivers it. -/
theorem delivered_once_overlap :
    ∃ p, run step (start 1) pollOverlap = some p ∧
      (takes (start 1) pollOverlap).map (fun take => (take.caller, take.job)) = [(0, 0)] ∧
      .got 1 pollRequest { status := .stNotFinished } ∈ p.log ∧
      Once (takes (start 1) pollOverlap) p := by
  obtain ⟨p, hp, htest⟩ := exists_of_run_any step (start 1) pollOverlap
    (fun p => .got 1 pollRequest { status := .stNotFinished } ∈ p.log) (by decide +kernel)
  refine ⟨p, hp, by decide +kernel, by simpa using htest, ?_⟩
  exact delivered_once 1 pollOverlap p hp (guarded_undisputed_within (k := 2) (by decide +kernel))

/-- Two threads ask for the result of a done addition, and both look the ticket up before
one of them erases it. -/
def pollBoth : List Label :=
  takenSchedule ++ [.worker 0, .worker 0, .get 0 pollRequest, .get 1 pollRequest, .caller 0 {},
    .caller 1 {}, .caller 0 {}, .caller 1 {}, .caller 0 {}, .caller 1 {}, .caller 0 {}, .caller 1 {}]

/-- The second of them answers `ST_SUCCESS` with an empty result. -/
theorem delivered_twice :
    ∃ p, run step (start 1) pollBoth = some p ∧
      .got 1 pollRequest { status := .stSuccess, result := some {} } ∈ p.log ∧
      ¬ Once (takes (start 1) pollBoth) p := by
  obtain ⟨p, hp, htest⟩ := exists_of_run_any step (start 1) pollBoth
    (fun p => .got 1 pollRequest { status := .stSuccess, result := some {} } ∈ p.log) (by decide)
  simp only [decide_eq_true_eq] at htest
  refine ⟨p, hp, htest, fun honce => ?_⟩
  obtain ⟨value, hvalue⟩ := honce.full _ _ _ htest rfl
  cases hvalue

end Pool

end InterProcess
