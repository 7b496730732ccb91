import InterProcess.Runner.Store
import Mathlib.Data.List.Forall2

/-!
# Non-blocking execution refines blocking execution

`Sound.store_step` says what one step of the pool is in the store of deferred
answers, and `traced_of_run` what a whole run is: the calls that returned, and
the one that is past its point of no return, are operations of the store that
lead from the empty store to the present one. `nonblocking_refines_blocking`
reads the life of a ticket off that trace.
-/

namespace InterProcess

open Transition

def Event.isReturn : Event → Bool
  | .ran _ _ _ | .got _ _ _ => true
  | _ => false

def Label.Enters (c : ℕ) : Label → Prop
  | .run d _ | .get d _ | .deinit d => d = c
  | _ => False

/-- The thread is in the call of `get` with this request. -/
def CallerPc.Getting (request : GetRequest) : CallerPc → Prop
  | .find r | .noWait r _ | .waitUpTo r _ _ | .cvBlocked r _ | .cvNotified r _ | .erase r _
  | .got r _ => r = request
  | _ => False

/-- The call of `get` with this request has this answer, or has returned. -/
def CallerPc.Settles (request : GetRequest) (response : GetResponse) (pc : CallerPc) : Prop :=
  pc = .erase request response ∨ pc = .got request response ∨ pc = .idle

namespace Pool

def returns (p : Pool) : List Event := p.log.filter Event.isReturn

/-- The id that the calling thread computed and did not insert yet. -/
def inserting (p : Pool) : List UInt64 := ((p.callers 0).inserts.map Prod.fst).toList

/-- What one step is for the thread that calls: nothing, the point at which it
does what it answers later, or a return. -/
inductive Progress (p p' : Pool) : StoreOp → Prop
  | quiet (howes : (p'.callers 0).owes = (p.callers 0).owes) (hreturns : p'.returns = p.returns) :
      Progress p p' .skip
  | acts (op : StoreOp) (e : Event) (hold : (p.callers 0).owes = none)
      (hnew : (p'.callers 0).owes = some e) (hreturns : p'.returns = p.returns)
      (hshows : e.Shows op) : Progress p p' op
  | returned (e : Event) (hold : (p.callers 0).owes = some e)
      (hnew : (p'.callers 0).owes = none) (hreturns : p'.returns = p.returns ++ [e]) :
      Progress p p' .skip

theorem store_congr {p p' : Pool} (hjobs : p'.jobs = p.jobs)
    (hreq : ∀ r : JobRef, p'.heap[r]?.map Job.req = p.heap[r]?.map Job.req) :
    p'.store = p.store := by
  funext t
  simp only [store, hjobs, hreq]

theorem map_req_modify {heap : List Job} (job : JobRef) (f : Job → Job)
    (hf : ∀ j, (f j).req = j.req) (r : JobRef) :
    (heap.modify job f)[r]?.map Job.req = heap[r]?.map Job.req := by
  rw [List.getElem?_modify]
  cases heap[r]? with
  | none => rfl
  | some j => by_cases hr : job = r <;> simp [hr, hf]

theorem store_allocate {p : Pool} (h : p.Ticketed) (request : SubmitRequest) (id : UInt64) :
    (p.allocate request id).store = p.store := by
  funext t
  simp only [store, allocate_jobs, allocate_heap]
  cases hjob : p.jobs t with
  | none => rfl
  | some job =>
      obtain ⟨j, hj, -⟩ := h.entry t job hjob
      have hlt := (List.getElem?_eq_some_iff.mp hj).1
      simp [List.getElem?_append_left hlt]

theorem store_insert {p : Pool} {job : JobRef} {j : Job} (hj : p.heap[job]? = some j)
    (id : UInt64) :
    store { p with jobs := p.jobs.insert id job } = p.store.insert id j.req := by
  funext t
  simp only [store, Table.insert_apply]
  split
  · simp [hj]
  · rfl

theorem store_erase (p : Pool) (id : UInt64) :
    store { p with jobs := p.jobs.erase id } = p.store.erase id := by
  funext t
  simp only [store, Table.erase_apply]
  split <;> rfl

/-- The step of the store that one step of the pool is. -/
def Simulates (p p' : Pool) : Prop :=
  ∃ op : StoreOp, Tickets.step evaluate p.store op = some p'.store ∧ Progress p p' op ∧
    ∃ new, p'.ids = p.ids ++ new ∧ op.issued.toList ++ p'.inserting = p.inserting ++ new

theorem Simulates.quiet {p p' : Pool} (hstore : p'.store = p.store)
    (howes : (p'.callers 0).owes = (p.callers 0).owes) (hreturns : p'.returns = p.returns)
    (hids : p'.ids = p.ids) (hinserts : (p'.callers 0).inserts = (p.callers 0).inserts) :
    p.Simulates p' :=
  ⟨.skip, by rw [hstore]; rfl, .quiet howes hreturns, [], by simp [hids],
    by simp [inserting, hinserts, Tickets.Op.issued]⟩

theorem Simulates.acts {p p' : Pool} {pc : CallerPc} (op : StoreOp) {e : Event}
    (hstep : Tickets.step evaluate p.store op = some p'.store)
    (hcallers : p'.callers = Function.update p.callers 0 pc)
    (hold : (p.callers 0).owes = none) (hnew : pc.owes = some e)
    (hlog : p'.log = p.log) (hshows : e.Shows op) (hids : p'.ids = p.ids)
    (hinserts : pc.inserts = none) (hissued : op.issued.toList = p.inserting) :
    p.Simulates p' := by
  have hmine : p'.callers 0 = pc := by simp [hcallers]
  refine ⟨op, hstep, .acts op e hold (by rw [hmine, hnew]) (by rw [returns, hlog, returns])
    hshows, [], by simp [hids], ?_⟩
  simp [inserting, hmine, hinserts, hissued]

theorem Simulates.move {p p' : Pool} {pc : CallerPc}
    (hcallers : p'.callers = Function.update p.callers 0 pc)
    (hstore : p'.store = p.store) (hids : p'.ids = p.ids) (hreturns : p'.returns = p.returns)
    (howes : pc.owes = (p.callers 0).owes) (hold : (p.callers 0).inserts = none)
    (hinserts : pc.inserts = none) : p.Simulates p' := by
  have hmine : p'.callers 0 = pc := by simp [hcallers]
  exact .quiet hstore (by rw [hmine, howes]) hreturns hids (by rw [hmine, hold, hinserts])

theorem Simulates.returned {p p' : Pool} {e : Event}
    (hcallers : p'.callers = Function.update p.callers 0 .idle)
    (hstore : p'.store = p.store) (hids : p'.ids = p.ids) (hold : (p.callers 0).owes = some e)
    (hlog : p'.log = p.log ++ [e]) (he : e.isReturn = true)
    (hinserts : (p.callers 0).inserts = none) : p.Simulates p' := by
  have hmine : p'.callers 0 = .idle := by simp [hcallers]
  refine ⟨.skip, by rw [hstore]; rfl, .returned e hold (by rw [hmine]; rfl) ?_, [],
    by simp [hids], ?_⟩
  · simp [returns, hlog, he]
  · rw [inserting, inserting, hmine, hinserts]
    rfl

theorem simulates_enqueue {p : Pool} (h : p.Ticketed) {request : SubmitRequest}
    (hpc : p.callers 0 = .run request) (id reading : UInt64) :
    p.Simulates (((p.allocate request id).setCaller 0 (.insert request id p.heap.length)).emit
      (.enqueued reading)) := by
  refine ⟨.skip, congrArg some (store_allocate h request id).symm, .quiet ?_ ?_, [id], ?_, ?_⟩
  · simp [hpc, CallerPc.owes]
  · simp [returns, Event.isReturn]
  · simp [ids]
  · simp [inserting, hpc, CallerPc.inserts, Tickets.Op.issued]

theorem simulates_insert {p : Pool} (h : p.Sound) {request : SubmitRequest} {id : UInt64}
    {job : JobRef} (hpc : p.callers 0 = .insert request id job) :
    p.Simulates (Pool.setCaller { p with jobs := p.jobs.insert id job } 0
      (.lockQueue request id job)) := by
  obtain ⟨hmode, hpayload, j, hj, rfl⟩ := h.serial.inserting request id job hpc
  have hins : (p.callers 0).inserts = some (id, job) := by rw [hpc]; rfl
  have habsent : p.store id = none :=
    (store_eq_none h.ticketed).mpr (h.fresh.absent 0 id job hins)
  refine .acts (.issue id j.req) ?_ rfl (by rw [hpc]; rfl) rfl rfl
    (.issue j.req id hmode hpayload) rfl rfl ?_
  · rw [Tickets.step_issue habsent, ← store_insert hj]
    rfl
  · simp [inserting, hins, Tickets.Op.issued]

theorem simulates_erase {p : Pool} (h : p.Serial) {request : GetRequest}
    {response : GetResponse} (hpc : p.callers 0 = .erase request response) :
    p.Simulates (Pool.setCaller { p with jobs := p.jobs.erase request.reqId } 0
      (.got request response)) := by
  obtain ⟨hwaits, job, j, status, result, hjob, hj, rfl, heval⟩ :=
    h.erasing request response hpc
  have hstore : p.store request.reqId = some j.req := store_eq_some.mpr ⟨job, j, hjob, hj, rfl⟩
  refine .acts (.deliver request.reqId (status, result)) ?_ rfl (by rw [hpc]; rfl) rfl rfl
    (.deliver request status result hwaits) rfl rfl ?_
  · rw [Tickets.step_deliver hstore heval, ← store_erase]
    rfl
  · simp [inserting, hpc, CallerPc.inserts, Tickets.Op.issued]

theorem simulates_notFinished {p : Pool} (h : p.Sound) {request : GetRequest} {job : JobRef}
    (hpc : p.callers 0 = .noWait request job ∨ p.callers 0 = .waitUpTo request job true) :
    p.Simulates (p.setCaller 0 (.got request { status := .stNotFinished })) := by
  have hpoint : (p.callers 0).looks = some (request, job) ∧ (p.callers 0).owes = none ∧
      (p.callers 0).inserts = none := by
    rcases hpc with hpc | hpc <;> rw [hpc] <;> exact ⟨rfl, rfl, rfl⟩
  obtain ⟨hwaits, hjob⟩ := h.serial.looked request job hpoint.1
  obtain ⟨j, hj, -⟩ := h.ticketed.entry _ _ hjob
  have hstore : p.store request.reqId = some j.req := store_eq_some.mpr ⟨job, j, hjob, hj, rfl⟩
  refine .acts (.pending request.reqId) ?_ rfl hpoint.2.1 rfl rfl
    (.pending request hwaits) rfl rfl ?_
  · rw [Tickets.step_pending hstore]
    rfl
  · simp [inserting, hpoint.2.2, Tickets.Op.issued]

theorem simulates_callerStep {p p' : Pool} {choice : Choice} (h : p.Sound)
    (hs : CallerStep p 0 choice p') : p.Simulates p' := by
  cases hs with
  | enqueue request hpc => exact simulates_enqueue h.ticketed hpc _ _
  | insert request id job hpc => exact simulates_insert h hpc
  | erase request response hpc => exact simulates_erase h.serial hpc
  | notFinished request job hpc => exact simulates_notFinished h hpc
  | trap => exact .quiet rfl rfl rfl rfl rfl
  | blocking request hpc hmode response heval =>
      exact .acts .skip rfl rfl (by rw [hpc]; rfl) rfl rfl
        (.inline request response hmode heval) rfl rfl
        (by simp [inserting, hpc, CallerPc.inserts, Tickets.Op.issued])
  | refuse request hpc hmode hbad =>
      exact .acts .skip rfl rfl (by rw [hpc]; rfl) rfl rfl
        (.refuse request hmode hbad) rfl rfl
        (by simp [inserting, hpc, CallerPc.inserts, Tickets.Op.issued])
  | findNone request hpc hjob =>
      have hstore := (store_eq_none h.ticketed).mpr hjob
      exact .acts (.unknown request.reqId) (Tickets.step_unknown hstore) rfl
        (by rw [hpc]; rfl) rfl rfl (.unknown request) rfl rfl
        (by simp [inserting, hpc, CallerPc.inserts, Tickets.Op.issued])
  | findBadMode request hpc job hjob hno hwait =>
      exact .acts .skip rfl rfl (by rw [hpc]; rfl) rfl rfl
        (.badMode request (by simp [GetRequest.Waits, hno, hwait])) rfl rfl
        (by simp [inserting, hpc, CallerPc.inserts, Tickets.Op.issued])
  | consume request job hpc j hj =>
      have hpoint : (p.callers 0).owes = none ∧ (p.callers 0).inserts = none := by
        rcases hpc with hpc | ⟨timeout, hpc⟩ <;> rw [hpc] <;> exact ⟨rfl, rfl⟩
      exact .move rfl
        (store_congr rfl (map_req_modify job (fun j => { j with result := {} }) fun _ => rfl))
        (map_id_modify p.heap job fun _ => rfl) rfl hpoint.1.symm hpoint.2 rfl
  | ran request response hpc | got request response hpc =>
      exact .returned rfl rfl rfl (by rw [hpc]; rfl) rfl rfl (by rw [hpc]; rfl)
  | push request id job hpc =>
      exact .move rfl rfl rfl (by simp [returns, Event.isReturn]) (by rw [hpc]; rfl)
        (by rw [hpc]; rfl) rfl
  | wake request job hpc =>
      rcases hpc with hpc | hpc
      · exact .move rfl rfl rfl rfl (by rw [hpc]; rfl) (by rw [hpc]; rfl) rfl
      · exact .move rfl rfl rfl rfl (by rw [hpc]; rfl) (by rw [hpc]; rfl) rfl
  | stopTest hpc =>
      refine .move rfl rfl rfl rfl ?_ (by rw [hpc]; rfl) ?_
      · rw [hpc]; split <;> rfl
      · split <;> rfl
  | lockQueue request id job hpc | signal request id job hpc
  | findNoWait request hpc | findWaitUpTo request hpc | block request job hpc
  | stopStore hpc | stopBroadcast hpc | join i hpc | joined i hpc | stopped hpc =>
      exact .move rfl rfl rfl rfl (by rw [hpc]; rfl) (by rw [hpc]; rfl) rfl

/-- Every step of the pool is a step of the store. -/
theorem Sound.store_step {p p' : Pool} {l : Label} (h : p.Sound) (hl : l.Single)
    (hs : p.step l = some p') : p.Simulates p' := by
  obtain ⟨-, hs⟩ := step_cases hs
  cases hs with
  | run c request hidle | get c request hidle | deinit c hidle =>
      obtain rfl : c = 0 := hl
      exact .move rfl rfl rfl rfl (by rw [hidle]; rfl) (by rw [hidle]; rfl) rfl
  | caller c choice hc =>
      obtain rfl : c = 0 := hl
      exact simulates_callerStep h hc
  | worker i hw =>
      cases hw with
      | publish job status result =>
          exact .quiet (store_congr rfl (map_req_modify job
            (fun j => { j with status, result, done := true }) fun _ => rfl)) rfl
            (by simp [returns, Event.isReturn]) (map_id_modify p.heap job fun _ => rfl) rfl
      | notify job =>
          exact .quiet rfl (owes_notified job _) rfl rfl (inserts_notified job _)
      | take | evaluate => exact .quiet rfl rfl (by simp [returns, Event.isReturn]) rfl rfl
      | _ => exact .quiet rfl rfl rfl rfl rfl

/-- The calls that returned and the one that is past its point of no return lead
from the empty store to the present one, and the tickets they issued, with the
one that is computed and not inserted yet, are the ids of all jobs. -/
def Traced (p : Pool) : Prop :=
  ∃ ops : List StoreOp, List.Forall₂ Event.Shows (p.returns ++ (p.callers 0).owes.toList) ops ∧
    run (Tickets.step evaluate) Table.empty ops = some p.store ∧
    ops.filterMap Tickets.Op.issued ++ p.inserting = p.ids

theorem traced_start (n : ℕ) : (start n).Traced := ⟨[], .nil, rfl, rfl⟩

theorem Traced.extend {p p' : Pool} (h : p.Traced) (hs : p.Simulates p') : p'.Traced := by
  obtain ⟨ops, hshows, hrun, hissued⟩ := h
  obtain ⟨op, hstep, hprogress, new, hids, hnew⟩ := hs
  have hissued' : (ops ++ [op]).filterMap Tickets.Op.issued ++ p'.inserting = p'.ids := by
    have hone : [op].filterMap Tickets.Op.issued = op.issued.toList := by
      cases hop : op.issued <;> simp [hop]
    rw [List.filterMap_append, hone, List.append_assoc, hnew, ← List.append_assoc, hissued, hids]
  cases hprogress with
  | quiet howes hreturns =>
      refine ⟨ops, by rw [howes, hreturns]; exact hshows, ?_, ?_⟩
      · exact hrun.trans hstep
      · simpa [List.filterMap_cons] using hissued'
  | acts _ e hold howes hreturns hshow =>
      refine ⟨ops ++ [op], ?_, ?_, hissued'⟩
      · rw [hold] at hshows
        rw [howes, hreturns]
        exact List.rel_append (by simpa using hshows) (.cons hshow .nil)
      · exact run_append_eq_some.mpr ⟨p.store, hrun, by rw [run_singleton, hstep]⟩
  | returned e hold howes hreturns =>
      refine ⟨ops, ?_, hrun.trans hstep, ?_⟩
      · rw [hold] at hshows
        rw [howes, hreturns]
        simpa using hshows
      · simpa [List.filterMap_cons] using hissued'

theorem traced_step (p : Pool) (l : Label) (p' : Pool) (h : p.Sound ∧ p.Traced)
    (hok : p.Orderly l) (hs : p.step l = some p') : p'.Sound ∧ p'.Traced :=
  ⟨sound_step p l p' h.1 hok hs, h.2.extend (h.1.store_step hok.1 hs)⟩

theorem traced_of_run {n : ℕ} {ls : List Label} {p : Pool}
    (hrun : run step (start n) ls = some p) (hok : Guarded step Orderly (start n) ls) :
    p.Sound ∧ p.Traced :=
  run_invariant_of_guarded traced_step ⟨sound_start n, traced_start n⟩ hok hrun

/-- In a run of the single calling thread under a steady clock every step meets
what the refinement needs. -/
theorem guarded_orderly {n : ℕ} {ls : List Label} {p : Pool}
    (hrun : run step (start n) ls = some p) (hsingle : ∀ l ∈ ls, l.Single)
    (hclock : SteadyClock p.readings) : Guarded step Orderly (start n) ls :=
  guarded_and (guarded_of_forall fun _ => hsingle)
    (guarded_apart hrun ((clocked_of_run hrun).ids_nodup hclock))

def getsOf (t : UInt64) (events : List Event) : List (GetRequest × GetResponse) :=
  events.filterMap fun e =>
    match e with
    | .got _ request response => if request.reqId = t then some (request, response) else none
    | _ => none

theorem mem_getsOf {t : UInt64} {events : List Event} {request : GetRequest}
    {response : GetResponse} :
    (request, response) ∈ getsOf t events ↔
      request.reqId = t ∧ ∃ c, .got c request response ∈ events := by
  unfold getsOf
  rw [List.mem_filterMap]
  constructor
  · rintro ⟨e, hmem, he⟩
    cases e with
    | got c request' response' =>
        simp only at he
        split at he
        · next heq => cases he; exact ⟨heq, c, hmem⟩
        · cases he
    | _ => cases he
  · rintro ⟨heq, c, hmem⟩
    exact ⟨_, hmem, by simp [heq]⟩

/-- A call of `get` while the answer is not there. -/
def Unanswered (call : GetRequest × GetResponse) : Prop :=
  (call.1.Waits ∧ call.2 = { status := .stNotFinished }) ∨
    (¬ call.1.Waits ∧ call.2 = { status := .stErrorInvalidInput })

/-- What the calls of `get` with the ticket of a non-blocking request answer, in
order: that it is not finished, then once what the blocking mode answers, then
that the ticket is not valid. A wait mode that `get` does not know is answered
with an error and changes nothing. -/
def Redeemed (request : SubmitRequest) (gets : List (GetRequest × GetResponse)) : Prop :=
  ∃ before rest, gets = before ++ rest ∧ (∀ call ∈ before, Unanswered call) ∧
    (rest = [] ∨ ∃ (final : GetRequest) (response : SubmitResponse)
        (after : List (GetRequest × GetResponse)),
      rest = (final, { status := response.status, result := response.result }) :: after ∧
        final.Waits ∧ runBlocking { request with mode := .blocking } = some response ∧
        ∀ call ∈ after, call.2 = { status := .stErrorInvalidInput })

theorem shows_append {before after : List Event} {ops : List StoreOp}
    (h : List.Forall₂ Event.Shows (before ++ after) ops) :
    ∃ ops₁ ops₂, List.Forall₂ Event.Shows before ops₁ ∧
      List.Forall₂ Event.Shows after ops₂ ∧ ops = ops₁ ++ ops₂ :=
  ⟨_, _, (List.forall₂_take_append _ _ _ h.flip).flip,
    (List.forall₂_drop_append _ _ _ h.flip).flip, (List.take_append_drop _ _).symm⟩

theorem exists_shows {events : List Event} {ops : List StoreOp}
    (h : List.Forall₂ Event.Shows events ops) {e : Event} (he : e ∈ events) :
    ∃ op ∈ ops, e.Shows op := by
  induction h with
  | nil => cases he
  | @cons e' op events ops hshow _ ih =>
      rcases List.mem_cons.mp he with rfl | hmem
      · exact ⟨op, List.mem_cons_self, hshow⟩
      · obtain ⟨op', hop', hshow'⟩ := ih hmem
        exact ⟨op', List.mem_cons_of_mem _ hop', hshow'⟩

theorem shows_got {c : ℕ} {request : GetRequest} {response : GetResponse} {op : StoreOp}
    (h : Event.Shows (.got c request response) op) :
    (op.shown = some request.reqId ∨ op = .skip) ∧
      (op = .pending request.reqId → request.Waits ∧ response = { status := .stNotFinished }) ∧
      (op = .unknown request.reqId → response = { status := .stErrorInvalidInput }) ∧
      (op = .skip → ¬ request.Waits ∧ response = { status := .stErrorInvalidInput }) := by
  cases h <;> simp_all [Tickets.Op.shown]

theorem unanswered_of_pending {t : UInt64} {events : List Event} {ops : List StoreOp}
    (hshows : List.Forall₂ Event.Shows events ops)
    (h : ∀ op ∈ ops, op.shown = some t → op = .pending t) :
    ∀ call ∈ getsOf t events, Unanswered call := by
  rintro ⟨request, response⟩ hcall
  obtain ⟨rfl, c, hmem⟩ := mem_getsOf.mp hcall
  obtain ⟨op, hop, hshow⟩ := exists_shows hshows hmem
  obtain ⟨hkind, hpending, -, hskip⟩ := shows_got hshow
  rcases hkind with hshown | hskip'
  · exact Or.inl (hpending (h op hop hshown))
  · exact Or.inr (hskip hskip')

theorem invalid_of_unknown {t : UInt64} {events : List Event} {ops : List StoreOp}
    (hshows : List.Forall₂ Event.Shows events ops)
    (h : ∀ op ∈ ops, op.shown = some t → op = .unknown t) :
    ∀ call ∈ getsOf t events, call.2 = { status := .stErrorInvalidInput } := by
  rintro ⟨request, response⟩ hcall
  obtain ⟨rfl, c, hmem⟩ := mem_getsOf.mp hcall
  obtain ⟨op, hop, hshow⟩ := exists_shows hshows hmem
  obtain ⟨hkind, -, hunknown, hskip⟩ := shows_got hshow
  rcases hkind with hshown | hskip'
  · exact hunknown (h op hop hshown)
  · exact (hskip hskip').2

/-- The answer of the store to a non-blocking request is that of the blocking
mode. -/
theorem runBlocking_of_evaluate {request : SubmitRequest} {status : Status} {result : Result}
    (h : evaluate request = some (status, result)) :
    runBlocking { request with mode := .blocking } =
      some { status := status, result := some result } := by
  rw [runBlocking_eq]
  change (evaluate request).map _ = _
  rw [h]
  rfl

theorem redeemed_of_shows {request : SubmitRequest} {t : UInt64} {events : List Event}
    {ops : List StoreOp} {m m' : Table UInt64 SubmitRequest}
    (hshows : List.Forall₂ Event.Shows events ops) (hm : m t = some request)
    (hrun : run (Tickets.step evaluate) m ops = some m') (hissue : ∀ r, .issue t r ∉ ops) :
    Redeemed request (getsOf t events) := by
  rcases Tickets.lifecycle hm hrun hissue with hall | ⟨before, a, after, rfl, ha, hbefore, hafter⟩
  · exact ⟨getsOf t events, [], (List.append_nil _).symm, unanswered_of_pending hshows hall,
      Or.inl rfl⟩
  · have hleft := List.forall₂_take_append events before _ hshows
    have hright := List.forall₂_drop_append events before _ hshows
    obtain ⟨e, events', hshow, htail, hdrop⟩ := List.forall₂_cons_right_iff.mp hright
    have hsplit : events = events.take before.length ++ e :: events' := by
      rw [← hdrop, List.take_append_drop]
    cases hshow with
    | deliver final status result hwaits =>
        refine ⟨getsOf final.reqId (events.take before.length),
          (final, { status := status, result := some result }) :: getsOf final.reqId events',
          ?_, unanswered_of_pending hleft hbefore, Or.inr ?_⟩
        · conv_lhs => rw [hsplit]
          simp [getsOf]
        · exact ⟨final, { status := status, result := some result }, _, rfl, hwaits,
            runBlocking_of_evaluate ha, invalid_of_unknown htail hafter⟩

theorem shows_ran_ticket {c : ℕ} {request : SubmitRequest} {response : SubmitResponse}
    {op : StoreOp} {t : UInt64} (h : Event.Shows (.ran c request response) op)
    (hmode : request.mode = .nonblocking) (hticket : response.ticket = some { reqId := t }) :
    op = .issue t request := by
  cases h with
  | issue _ t' => simp_all
  | inline _ _ hmode' => simp [hmode] at hmode'
  | refuse => simp at hticket

theorem Traced.redeemed {p : Pool} (h : p.Traced) (hids : p.ids.Nodup)
    {before after : List Event} {c : ℕ} {request : SubmitRequest} {response : SubmitResponse}
    {t : UInt64} (hreturns : p.returns = before ++ .ran c request response :: after)
    (hmode : request.mode = .nonblocking) (hticket : response.ticket = some { reqId := t }) :
    Redeemed request (getsOf t after) := by
  obtain ⟨ops, hshows, hrun, hissued⟩ := h
  rw [hreturns, List.append_assoc] at hshows
  obtain ⟨ops₁, ops', -, hrest, rfl⟩ := shows_append hshows
  obtain ⟨op, ops₂, hshow, hafter, rfl⟩ := List.forall₂_cons_left_iff.mp hrest
  obtain rfl := shows_ran_ticket hshow hmode hticket
  obtain ⟨ops₃, ops₄, hshows₃, -, rfl⟩ := shows_append hafter
  obtain ⟨m₁, -, hrun₁⟩ := run_append_eq_some.mp hrun
  obtain ⟨m₂, hissue, hrun₂⟩ := run_cons_eq_some.mp hrun₁
  obtain ⟨m₃, hrun₃, -⟩ := run_append_eq_some.mp hrun₂
  obtain ⟨-, rfl⟩ := Tickets.step_issue_cases hissue
  refine redeemed_of_shows hshows₃ (Table.insert_self m₁ t request) hrun₃ ?_
  -- a second issue of the ticket would be a second job with that id
  intro r hr
  have hagain : t ∈ (ops₃ ++ ops₄).filterMap Tickets.Op.issued :=
    List.mem_filterMap.mpr ⟨.issue t r, List.mem_append_left _ hr, rfl⟩
  rw [← hissued, List.filterMap_append] at hids
  have hnodup := (List.nodup_append.mp (List.nodup_append.mp hids).1).2.1
  rw [List.filterMap_cons_some (Tickets.issued_issue t request), List.nodup_cons] at hnodup
  exact hnodup.1 hagain

/-- If the step is one of the calling thread, it leaves the map, the queue and all
records as they are. -/
def Untouched (p : Pool) (l : Label) : Prop :=
  ∀ choice, l = .caller 0 choice → ∀ p', p.step l = some p' →
    p'.jobs = p.jobs ∧ p'.jobQueue = p.jobQueue ∧ p'.heap = p.heap

theorem getting_notified {job : JobRef} {pc : CallerPc} {request : GetRequest} :
    (pc.notified job).Getting request ↔ pc.Getting request :=
  iff_of_eq (CallerPc.notified_congr (fun pc => pc.Getting request) (fun _ _ => rfl) job pc)

theorem settles_notified {job : JobRef} {pc : CallerPc} {request : GetRequest}
    {response : GetResponse} :
    (pc.notified job).Settles request response ↔ pc.Settles request response :=
  iff_of_eq (CallerPc.notified_congr (fun pc => pc.Settles request response)
    (fun _ _ => by simp [CallerPc.Settles]) job pc)

theorem settles_step {request : GetRequest} {response : GetResponse} (p : Pool) (l : Label)
    (p' : Pool) (h : (p.callers 0).Settles request response) (hl : ¬ l.Enters 0)
    (hs : p.step l = some p') : (p'.callers 0).Settles request response := by
  obtain ⟨-, hs⟩ := step_cases hs
  cases hs with
  | run c | get c | deinit c =>
      have hc : (0 : ℕ) ≠ c := fun heq => hl heq.symm
      simpa [Function.update_of_ne hc] using h
  | caller c choice hcall =>
      by_cases hc : 0 = c
      · subst hc
        rcases h with hpc | hpc | hpc <;> cases hcall <;> simp_all [CallerPc.Settles]
      · cases hcall <;> simpa [Pool.consume, Function.update_of_ne hc] using h
  | worker i hw =>
      cases hw with
      | notify job => exact settles_notified.mpr h
      | _ => exact h

/-- A step of the thread inside `get` changes the map, the queue or a record only
when the answer is settled and is not that the job is not finished. -/
theorem untouched_or_settles {p p' : Pool} {choice : Choice} {request : GetRequest}
    (h : p.Sound) (hget : (p.callers 0).Getting request)
    (hs : p.step (.caller 0 choice) = some p') :
    (p'.jobs = p.jobs ∧ p'.jobQueue = p.jobQueue ∧ p'.heap = p.heap) ∨
      ∃ response : GetResponse, (p'.callers 0).Settles request response ∧
        response.status ≠ .stNotFinished ∧ p'.callers 0 ≠ .idle := by
  obtain ⟨-, hs⟩ := step_cases hs
  cases hs with
  | caller _ _ hc =>
      cases hc with
      | enqueue r hpc | insert r id job hpc | push r id job hpc =>
          rw [hpc] at hget
          cases hget
      | consume r job hpc j hj hdone =>
          have hlooks : (p.callers 0).looks = some (r, job) ∧ (p.callers 0).erases = none ∧
              r = request := by
            rcases hpc with hpc | ⟨timeout, hpc⟩ <;> rw [hpc] at hget ⊢ <;>
              exact ⟨rfl, rfl, hget⟩
          obtain ⟨-, hin⟩ := h.serial.looked r job hlooks.1
          have heval := h.serial.published _ job j (Or.inl hin) hj hdone (by simp [hlooks.2.1])
          refine Or.inr ⟨_, Or.inl (by simp [Pool.consume, hlooks.2.2]; rfl),
            evaluate_status_ne_notFinished heval, by simp [Pool.consume]⟩
      | erase r response hpc =>
          obtain ⟨-, job, j, status, result, -, -, rfl, heval⟩ := h.serial.erasing r response hpc
          have heq : r = request := by rw [hpc] at hget; exact hget
          exact Or.inr ⟨_, Or.inr (Or.inl (by simp [heq]; rfl)),
            evaluate_status_ne_notFinished heval, by simp⟩
      | _ => exact Or.inl ⟨rfl, rfl, rfl⟩

theorem getting_caller_step {p p' : Pool} {choice : Choice} {request : GetRequest}
    (h : (p.callers 0).Getting request) (hs : p.step (.caller 0 choice) = some p') :
    (p'.callers 0).Getting request ∨
      ∃ response, p.callers 0 = .got request response ∧ p'.callers 0 = .idle := by
  obtain ⟨-, hs⟩ := step_cases hs
  cases hs with
  | caller _ _ hc =>
      cases hc with
      | trap => exact Or.inl h
      | notFinished r job hpc | wake r job hpc =>
          rcases hpc with hpc | hpc <;> rw [hpc] at h <;>
            exact Or.inl (by simpa [CallerPc.Getting] using h)
      | consume r job hpc =>
          rcases hpc with hpc | ⟨timeout, hpc⟩ <;> rw [hpc] at h <;>
            exact Or.inl (by simpa [Pool.consume, CallerPc.Getting] using h)
      | got r response hpc =>
          rw [hpc] at h
          exact Or.inr ⟨response, by rw [hpc]; exact congrArg₂ _ h rfl, by simp⟩
      | _ => simp_all [CallerPc.Getting]

theorem getting_step {p p' : Pool} {l : Label} {request : GetRequest}
    (h : (p.callers 0).Getting request ∨ p.callers 0 = .idle) (hl : ¬ l.Enters 0)
    (hs : p.step l = some p') : (p'.callers 0).Getting request ∨ p'.callers 0 = .idle := by
  obtain ⟨-, hcases⟩ := step_cases hs
  cases hcases with
  | run c | get c | deinit c =>
      have hc : (0 : ℕ) ≠ c := fun heq => hl heq.symm
      simpa [Function.update_of_ne hc] using h
  | caller c choice hcall =>
      by_cases hc : 0 = c
      · subst hc
        rcases h with hget | hidle
        · exact (getting_caller_step hget hs).imp id fun hreturn => hreturn.choose_spec.2
        · exact absurd hidle hcall.not_idle
      · cases hcall <;> simpa [Pool.consume, Function.update_of_ne hc] using h
  | worker i hw =>
      cases hw with
      | notify job =>
          exact h.imp getting_notified.mpr fun hidle => by simp [hidle, CallerPc.notified]
      | _ => exact h

/-- A call of `get` that answers that the job is not finished changed nothing. -/
theorem untouched_of_notFinished {p p' : Pool} {ks : List Label} {request : GetRequest}
    {response : GetResponse} (h : p.Sound)
    (hget : (p.callers 0).Getting request ∨ p.callers 0 = .idle)
    (hok : Guarded step Orderly p ks) (hcall : ∀ l ∈ ks, ¬ l.Enters 0)
    (hrun : run step p ks = some p') (hend : p'.callers 0 = .got request response)
    (hstatus : response.status = .stNotFinished) : Guarded step Untouched p ks := by
  induction ks generalizing p with
  | nil => trivial
  | cons l ks ih =>
      obtain ⟨q, hq, hrest⟩ := run_cons_eq_some.mp hrun
      have hcall' : ∀ l ∈ ks, ¬ l.Enters 0 := fun l hl => hcall l (List.mem_cons_of_mem _ hl)
      refine ⟨?_, ?_⟩
      · rintro choice rfl p₁ hp₁
        obtain rfl : q = p₁ := Option.some.inj (hq.symm.trans hp₁)
        rcases hget with hget | hidle
        · rcases untouched_or_settles h hget hq with hsame | ⟨settled, hsettled, hne, hbusy⟩
          · exact hsame
          · -- the settled answer would be the one returned
            have hlast := run_invariant_of_guarded
              (fun s l t hs hl => settles_step s l t hs hl) hsettled
              (guarded_of_forall fun _ => hcall') hrest
            rcases hlast with hpc | hpc | hpc <;> rw [hend] at hpc <;> cases hpc
            exact absurd hstatus hne
        · exact absurd hidle (not_idle_of_caller_step hq)
      · intro q' hq'
        obtain rfl : q = q' := Option.some.inj (hq.symm.trans hq')
        exact ih (sound_step p l q h hok.1 hq)
          (getting_step hget (hcall l List.mem_cons_self) hq) (hok.2 q hq) hcall' hrest

/-- Non-blocking execution refines blocking execution. In a run of the single
calling thread with any number of workers under a steady clock, what is answered
to the ticket of a non-blocking request is `Redeemed`, and a call of `get` that
answers that the job is not finished leaves the map, the queue and all records
as they are. -/
theorem nonblocking_refines_blocking (n : ℕ) (ls : List Label) (p : Pool)
    (hrun : run step (start n) ls = some p) (hsingle : ∀ l ∈ ls, l.Single)
    (hclock : SteadyClock p.readings) :
    (∀ before after c request response t,
      p.returns = before ++ .ran c request response :: after → request.mode = .nonblocking →
        response.ticket = some { reqId := t } → Redeemed request (getsOf t after)) ∧
      ∀ ms request ks rest q q' response,
        ls = ms ++ .get 0 request :: ks ++ rest → (∀ l ∈ ks, ¬ l.Enters 0) →
          run step (start n) ms = some q → run step q (.get 0 request :: ks) = some q' →
            q'.callers 0 = .got request response → response.status = .stNotFinished →
              Guarded step Untouched q (.get 0 request :: ks) := by
  have hguard := guarded_orderly hrun hsingle hclock
  constructor
  · intro before after c request response t hreturns hmode hticket
    exact (traced_of_run hrun hguard).2.redeemed ((clocked_of_run hrun).ids_nodup hclock)
      hreturns hmode hticket
  · rintro ms request ks rest q q' response rfl hcall hq hq' hend hstatus
    obtain ⟨hms, hgets⟩ := guarded_append.mp (guarded_append.mp hguard).1
    have hsound : q.Sound := (traced_of_run hq hms).1
    obtain ⟨q₁, hq₁, hks⟩ := run_cons_eq_some.mp hq'
    obtain ⟨hok, hguarded⟩ := hgets q hq
    refine ⟨fun choice hl => (by cases hl), fun q₂ hq₂ => ?_⟩
    obtain rfl : q₁ = q₂ := Option.some.inj (hq₁.symm.trans hq₂)
    have hfind : (q₁.callers 0).Getting request := by
      obtain ⟨-, hs⟩ := step_cases hq₁
      cases hs with
      | get => simp [CallerPc.Getting]
    exact untouched_of_notFinished (sound_step _ _ _ hsound hok hq₁) (Or.inl hfind)
      (hguarded q₁ hq₁) hcall hks hend hstatus

/-- An addition is submitted, asked for too early, computed by the only worker,
fetched, and asked for once more. -/
def redeemSchedule : List Label :=
  let get : Label := .get 0 { ticket := some { reqId := ticketId 5 0 } }
  takenSchedule.take 7 ++ [get, .caller 0 {}, .caller 0 {}, .caller 0 {}] ++
    List.replicate 7 (.worker 0) ++ [get] ++ List.replicate 4 (.caller 0 {}) ++
    [get, .caller 0 {}, .caller 0 {}]

/-- The answers of that schedule. -/
theorem redeemed_addition :
    ∃ p after, run step (start 1) redeemSchedule = some p ∧
      p.returns = .ran 0 (addRequest 2 3)
        { status := .stNotFinished, ticket := some { reqId := ticketId 5 0 } } :: after ∧
      (getsOf (ticketId 5 0) after).map Prod.snd =
        [{ status := .stNotFinished },
          { status := .stSuccess, result := some { value := some (.intResult 5) } },
          { status := .stErrorInvalidInput }] ∧
      Redeemed (addRequest 2 3) (getsOf (ticketId 5 0) after) := by
  obtain ⟨p, hp, htest⟩ := exists_of_run_any step (start 1) redeemSchedule
    (fun p => p.returns.head? = some (.ran 0 (addRequest 2 3)
        { status := .stNotFinished, ticket := some { reqId := ticketId 5 0 } }) ∧
      p.readings = [5] ∧ (getsOf (ticketId 5 0) p.returns.tail).map Prod.snd =
        [{ status := .stNotFinished },
          { status := .stSuccess, result := some { value := some (.intResult 5) } },
          { status := .stErrorInvalidInput }]) (by decide)
  simp only [decide_eq_true_eq] at htest
  obtain ⟨hhead, hreadings, hgets⟩ := htest
  have hreturns := (List.cons_head?_tail (Option.mem_def.mpr hhead)).symm
  have hsingle : ∀ l ∈ redeemSchedule, l.Single := by decide
  have hclock : SteadyClock p.readings := by
    rw [hreadings]
    exact ⟨List.pairwise_singleton _ _, by simp, fun a => List.count_le_length.trans (by simp)⟩
  exact ⟨p, p.returns.tail, hp, hreturns, hgets,
    (nonblocking_refines_blocking 1 _ p hp hsingle hclock).1 [] _ 0 _ _ _ hreturns rfl rfl⟩

end Pool

end InterProcess
