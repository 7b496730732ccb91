import InterProcess.Message.Codec
import InterProcess.Runner.Step

/-!
# What the operations can yield

A property of status and result that every evaluation of the requests in the pool has is
a property of everything that is computed, stored and answered. `get` swaps the result
out of the record, so the property has to survive that as well.
-/

namespace InterProcess

/-- Whatever the request evaluates to has the property. -/
def SubmitRequest.Yields (P : Status → Result → Prop) (request : SubmitRequest) : Prop :=
  ∀ status result, evaluate request = some (status, result) → P status result

/-- The answer that is computed or given at the program point has the property, if it
comes with a result. -/
def CallerPc.Yields (P : Status → Result → Prop) : CallerPc → Prop
  | .run request => request.Yields P
  | .ran _ response => ∀ result, response.result = some result → P response.status result
  | .erase _ response => ∃ result, response.result = some result ∧ P response.status result
  | .got _ response => ∀ result, response.result = some result → P response.status result
  | _ => True

def WorkerPc.Yields (P : Status → Result → Prop) : WorkerPc → Prop
  | .publish _ status result => P status result
  | _ => True

theorem CallerPc.yields_notified {P : Status → Result → Prop} (job : JobRef) (pc : CallerPc) :
    (pc.notified job).Yields P ↔ pc.Yields P :=
  iff_of_eq (notified_congr (fun pc => pc.Yields P) (fun _ _ => rfl) job pc)

theorem WorkerPc.yields_wake {P : Status → Result → Prop} {pc : WorkerPc} :
    pc.wake.Yields P ↔ pc.Yields P := by
  cases pc <;> rfl

theorem SubmitRequest.Yields.blocking {P : Status → Result → Prop} {request : SubmitRequest}
    (h : request.Yields P) {response : SubmitResponse}
    (heval : runBlocking request = some response) (result : Result)
    (hresult : response.result = some result) : P response.status result := by
  rw [runBlocking_eq] at heval
  obtain ⟨⟨status, out⟩, hout, rfl⟩ := Option.map_eq_some_iff.mp heval
  obtain rfl := Option.some.inj hresult
  exact h status out hout

theorem runMath_texts {args : MathArgs} {status : Status} {result : Result}
    (h : runMath args {} = some (status, result)) : result.texts = [] := by
  unfold runMath at h
  cases hop : args.op with
  | mathDiv =>
      by_cases hb : args.b = 0
      · simp only [hop, hb, if_true, Option.some.injEq, Prod.mk.injEq] at h
        rw [← h.2]
        rfl
      · simp only [hop, hb, if_false, Option.map_eq_some_iff, Prod.mk.injEq] at h
        obtain ⟨q, -, -, hresult⟩ := h
        rw [← hresult]
        rfl
  | mathAdd | mathSub | mathMul | unrecognized =>
      simp only [hop, Option.some.injEq, Prod.mk.injEq] at h
      rw [← h.2]
      rfl

theorem runStr_brief (args : StrArgs) : (runStr args {}).2.Brief := by
  unfold runStr Result.Brief
  cases args.op with
  | strConcat =>
      dsimp only
      split
      · simp [Result.texts]
      · next hlength => simpa [Result.texts] using hlength
  | strFindStart =>
      dsimp only
      split <;> simp [Result.texts]
  | unrecognized => simp [Result.texts]

/-- No operation gives a result that is longer than the limit of `concat`. -/
theorem yields_brief (request : SubmitRequest) :
    request.Yields fun _ result => result.Brief := by
  intro status result heval
  unfold evaluate at heval
  rcases hpayload : request.payload with _ | (args | args)
  · simp only [hpayload, Option.some.injEq, Prod.mk.injEq] at heval
    simp [← heval.2, Result.Brief, Result.texts]
  · simp only [hpayload] at heval
    simp [Result.Brief, runMath_texts heval]
  · simp only [hpayload, Option.some.injEq] at heval
    have hbrief := runStr_brief args
    rwa [heval] at hbrief

namespace Pool

variable {P : Status → Result → Prop} {p p' : Pool}

/-- Everything that is computed, stored and answered has the property. -/
structure Yielding (P : Status → Result → Prop) (p : Pool) : Prop where
  callers : ∀ c, (p.callers c).Yields P
  workers : ∀ pc ∈ p.workers, pc.Yields P
  records : ∀ j ∈ p.heap, j.req.Yields P ∧ (j.done = true → P j.status j.result)

theorem yielding_start (P : Status → Result → Prop) (n : ℕ) : (start n).Yielding P where
  callers c := trivial
  workers pc h := by
    rw [List.eq_of_mem_replicate h]
    trivial
  records j h := by cases h

theorem Yielding.moveCaller (h : p.Yielding P) {c : ℕ} {pc : CallerPc}
    (hcallers : p'.callers = Function.update p.callers c pc) (hpc : pc.Yields P)
    (hworkers : ∀ pc ∈ p'.workers, pc.Yields P)
    (hrecords : ∀ j ∈ p'.heap, j.req.Yields P ∧ (j.done = true → P j.status j.result)) :
    p'.Yielding P where
  callers d := by
    rw [hcallers, Function.update_apply]
    split
    · exact hpc
    · exact h.callers d
  workers := hworkers
  records := hrecords

theorem Yielding.moveWorker (h : p.Yielding P) {i : ℕ} {pc : WorkerPc}
    (hworkers : p'.workers = p.workers.set i pc) (hpc : pc.Yields P)
    (hcallers : ∀ c, (p'.callers c).Yields P)
    (hrecords : ∀ j ∈ p'.heap, j.req.Yields P ∧ (j.done = true → P j.status j.result)) :
    p'.Yielding P where
  callers := hcallers
  workers pc' hpc' := by
    rw [hworkers] at hpc'
    rcases List.mem_or_eq_of_mem_set hpc' with hold | rfl
    · exact h.workers pc' hold
    · exact hpc
  records := hrecords

theorem Yielding.modify (h : p.Yielding P) (job : JobRef) {f : Job → Job}
    (hf : ∀ j, p.heap[job]? = some j →
      (f j).req = j.req ∧ ((f j).done = true → P (f j).status (f j).result)) :
    ∀ j ∈ p.heap.modify job f, j.req.Yields P ∧ (j.done = true → P j.status j.result) := by
  intro j hj
  obtain ⟨r, hr⟩ := List.mem_iff_getElem?.mp hj
  obtain ⟨j₀, hj₀, ⟨rfl, rfl⟩ | ⟨-, rfl⟩⟩ := record_modify_cases hr
  · obtain ⟨hreq, hdone⟩ := hf j₀ hj₀
    exact ⟨hreq ▸ (h.records j₀ (List.mem_of_getElem? hj₀)).1, hdone⟩
  · exact h.records _ (List.mem_of_getElem? hj₀)

theorem yielding_callerStep (h : p.Yielding P) (hswap : ∀ status result, P status result → P status {})
    {c : ℕ} {choice : Choice} (hc : CallerStep p c choice p') : p'.Yielding P := by
  cases hc with
  | trap => exact ⟨h.callers, h.workers, h.records⟩
  | blocking request hpc _ response heval =>
      have hrequest := h.callers c
      rw [hpc] at hrequest
      exact h.moveCaller rfl (SubmitRequest.Yields.blocking hrequest heval) h.workers h.records
  | enqueue request hpc =>
      have hrequest := h.callers c
      rw [hpc] at hrequest
      refine h.moveCaller rfl trivial h.workers fun j hj => ?_
      rcases List.mem_append.mp hj with hold | hnew
      · exact h.records j hold
      · rw [List.mem_singleton.mp hnew]
        exact ⟨hrequest, by simp⟩
  | signal request id job =>
      refine h.moveCaller rfl (by simp [CallerPc.Yields]) (fun pc hpc => ?_) h.records
      obtain ⟨i, hi, rfl⟩ := List.mem_mapIdx.mp hpc
      have hold := h.workers _ (List.getElem_mem hi)
      split
      · exact WorkerPc.yields_wake.mpr hold
      · exact hold
  | stopBroadcast =>
      refine h.moveCaller rfl trivial (fun pc hpc => ?_) h.records
      obtain ⟨old, hold, rfl⟩ := List.mem_map.mp hpc
      exact WorkerPc.yields_wake.mpr (h.workers old hold)
  | consume request job hpc j hj hdone =>
      have hstored := (h.records j (List.mem_of_getElem? hj)).2 hdone
      refine h.moveCaller rfl ?_ h.workers (h.modify job fun j' hj' => ⟨rfl, fun hdone' => ?_⟩)
      · exact ⟨j.result, rfl, hstored⟩
      · exact hswap _ _ ((h.records j' (List.mem_of_getElem? hj')).2 hdone')
  | erase request response hpc =>
      have hresponse := h.callers c
      rw [hpc] at hresponse
      obtain ⟨result, hresult, hyields⟩ := hresponse
      refine h.moveCaller rfl (fun result' hresult' => ?_) h.workers h.records
      obtain rfl : result = result' := Option.some.inj (hresult.symm.trans hresult')
      exact hyields
  | stopTest =>
      refine h.moveCaller rfl ?_ h.workers h.records
      split <;> trivial
  | _ => exact h.moveCaller rfl (by simp [CallerPc.Yields]) h.workers h.records

theorem yielding_workerStep (h : p.Yielding P) {i : ℕ} (hw : WorkerStep p i p') :
    p'.Yielding P := by
  cases hw with
  | trap => exact ⟨h.callers, h.workers, h.records⟩
  | loopTest =>
      refine h.moveWorker rfl ?_ h.callers h.records
      split <;> trivial
  | evaluate job hpc j hj status result heval =>
      exact h.moveWorker rfl ((h.records j (List.mem_of_getElem? hj)).1 status result heval)
        h.callers h.records
  | publish job status result hpc =>
      have hresult : P status result := h.workers _ (List.mem_of_getElem? hpc)
      exact h.moveWorker rfl trivial h.callers (h.modify job fun j _ => ⟨rfl, fun _ => hresult⟩)
  | notify job =>
      exact h.moveWorker rfl trivial (fun c => (CallerPc.yields_notified job _).mpr (h.callers c))
        h.records
  | _ => exact h.moveWorker rfl trivial h.callers h.records

theorem yielding_step (hswap : ∀ status result, P status result → P status {}) (p : Pool)
    (l : Label) (p' : Pool) (h : p.Yielding P)
    (hl : ∀ c request, l = .run c request → request.Yields P) (hs : p.step l = some p') :
    p'.Yielding P := by
  obtain ⟨-, hs⟩ := step_cases hs
  cases hs with
  | run c request => exact h.moveCaller rfl (hl c request rfl) h.workers h.records
  | get | deinit => exact h.moveCaller rfl trivial h.workers h.records
  | caller c choice hc => exact yielding_callerStep h hswap hc
  | worker i hw => exact yielding_workerStep h hw

end Pool

end InterProcess
