import InterProcess.Library.Count
import Mathlib.Data.List.Nodup
import InterProcess.Runner.Step

/-!
# Job conservation

Every job that was pushed is exactly once in the queue, or held by exactly one
worker, or done. The invariant `Conserved` states it as an account: for each job
the three counts add up to the number of times it was pushed, which is at most
one. The same structure carries the order in which jobs are taken and the number
of times each is evaluated.
-/

namespace InterProcess

open Transition Counting

/-- The job that a call of `enqueue` has made and not pushed yet. -/
def CallerPc.enqueues : CallerPc → Option JobRef
  | .insert _ _ job | .lockQueue _ _ job | .push _ _ job => some job
  | _ => none

/-- The job that a worker took and has not published yet. -/
def WorkerPc.holds : WorkerPc → Option JobRef
  | .evaluate job | .publish job _ _ => some job
  | _ => none

def WorkerPc.evaluates : WorkerPc → Option JobRef
  | .evaluate job => some job
  | _ => none

def Event.pushed? : Event → Option JobRef
  | .pushed job => some job
  | _ => none

def Event.taken? : Event → Option JobRef
  | .taken _ job => some job
  | _ => none

def Event.evaluated? : Event → Option JobRef
  | .evaluated _ job => some job
  | _ => none

namespace Pool

def pushed (p : Pool) : List JobRef := p.log.filterMap Event.pushed?

def taken (p : Pool) : List JobRef := p.log.filterMap Event.taken?

def evaluated (p : Pool) : List JobRef := p.log.filterMap Event.evaluated?

def heldCount (p : Pool) (job : JobRef) : ℕ :=
  p.workers.countP fun pc => pc.holds = some job

def evaluatingCount (p : Pool) (job : JobRef) : ℕ :=
  p.workers.countP fun pc => pc.evaluates = some job

def isDone (p : Pool) (job : JobRef) : Bool := (p.heap[job]?).any Job.done

/-- The account of all jobs. -/
structure Conserved (p : Pool) : Prop where
  account : ∀ job, p.jobQueue.count job + p.heldCount job + (p.isDone job).toNat =
    p.pushed.count job
  nodup : p.pushed.Nodup
  bounded : ∀ job : ℕ, job ∈ p.pushed → job < p.heap.length
  enqueuing : ∀ (c job : ℕ), (p.callers c).enqueues = some job →
    job < p.heap.length ∧ job ∉ p.pushed
  distinct : ∀ c d job, (p.callers c).enqueues = some job →
    (p.callers d).enqueues = some job → c = d
  order : p.pushed = p.taken ++ p.jobQueue
  evaluation : ∀ job, p.evaluated.count job + p.evaluatingCount job = p.taken.count job

/-- What the account reads is the same in two states. -/
structure SameAccount (p p' : Pool) : Prop where
  queue : p'.jobQueue = p.jobQueue
  length : p'.heap.length = p.heap.length
  done : ∀ job, p'.isDone job = p.isDone job
  held : ∀ job, p'.heldCount job = p.heldCount job
  evaluating : ∀ job, p'.evaluatingCount job = p.evaluatingCount job
  enqueues : ∀ c, (p'.callers c).enqueues = (p.callers c).enqueues
  pushed : p'.pushed = p.pushed
  taken : p'.taken = p.taken
  evaluated : p'.evaluated = p.evaluated

theorem SameAccount.conserved {p p' : Pool} (hs : SameAccount p p') (h : p.Conserved) :
    p'.Conserved where
  account job := by rw [hs.queue, hs.held, hs.done, hs.pushed, h.account]
  nodup := by rw [hs.pushed]; exact h.nodup
  bounded job hjob := by
    rw [hs.length]
    exact h.bounded job (hs.pushed ▸ hjob)
  enqueuing c job hc := by
    rw [hs.length, hs.pushed]
    exact h.enqueuing c job (hs.enqueues c ▸ hc)
  distinct c d job hc hd := h.distinct c d job (hs.enqueues c ▸ hc) (hs.enqueues d ▸ hd)
  order := by rw [hs.pushed, hs.taken, hs.queue, h.order]
  evaluation job := by rw [hs.evaluated, hs.evaluating, hs.taken, h.evaluation]

theorem sameAccount_setCaller {p : Pool} {c : ℕ} {pc : CallerPc}
    (hpc : pc.enqueues = (p.callers c).enqueues) : SameAccount p (p.setCaller c pc) where
  queue := rfl
  length := rfl
  done _ := rfl
  held _ := rfl
  evaluating _ := rfl
  enqueues d := by
    by_cases hd : d = c
    · simp [hd, hpc]
    · simp [hd]
  pushed := rfl
  taken := rfl
  evaluated := rfl

theorem sameAccount_setWorker {p : Pool} {i : ℕ} {old : WorkerPc} (pc : WorkerPc)
    (hold : p.WorkerAt i old) (hheld : pc.holds = old.holds)
    (heval : pc.evaluates = old.evaluates) : SameAccount p (p.setWorker i pc) where
  queue := rfl
  length := rfl
  done _ := rfl
  held _ := countP_set_of_eq _ hold (by rw [hheld])
  evaluating _ := countP_set_of_eq _ hold (by rw [heval])
  enqueues _ := rfl
  pushed := rfl
  taken := rfl
  evaluated := rfl

theorem heldCount_setWorker {p : Pool} {i : ℕ} {old : WorkerPc} (pc : WorkerPc)
    (hold : p.WorkerAt i old) (job : JobRef) :
    (p.setWorker i pc).heldCount job + (decide (old.holds = some job)).toNat =
      p.heldCount job + (decide (pc.holds = some job)).toNat :=
  countP_set_add (fun pc : WorkerPc => decide (pc.holds = some job)) pc hold

theorem evaluatingCount_setWorker {p : Pool} {i : ℕ} {old : WorkerPc} (pc : WorkerPc)
    (hold : p.WorkerAt i old) (job : JobRef) :
    (p.setWorker i pc).evaluatingCount job + (decide (old.evaluates = some job)).toNat =
      p.evaluatingCount job + (decide (pc.evaluates = some job)).toNat :=
  countP_set_add (fun pc : WorkerPc => decide (pc.evaluates = some job)) pc hold

theorem SameAccount.withMutex {p p' : Pool} (hs : SameAccount p p') (m : Option Owner) :
    SameAccount p { p' with qMtx := m } :=
  ⟨hs.queue, hs.length, hs.done, hs.held, hs.evaluating, hs.enqueues, hs.pushed, hs.taken,
    hs.evaluated⟩

theorem SameAccount.emit {p p' : Pool} (hs : SameAccount p p') {e : Event}
    (hpushed : e.pushed? = none) (htaken : e.taken? = none)
    (hevaluated : e.evaluated? = none) : SameAccount p (p'.emit e) where
  queue := hs.queue
  length := hs.length
  done := hs.done
  held := hs.held
  evaluating := hs.evaluating
  enqueues := hs.enqueues
  pushed := by simpa [Pool.pushed, hpushed] using hs.pushed
  taken := by simpa [Pool.taken, htaken] using hs.taken
  evaluated := by simpa [Pool.evaluated, hevaluated] using hs.evaluated

theorem enqueues_notified (job : JobRef) (pc : CallerPc) :
    (pc.notified job).enqueues = pc.enqueues :=
  CallerPc.notified_congr CallerPc.enqueues (fun _ _ => rfl) job pc

theorem holds_wake (pc : WorkerPc) : pc.wake.holds = pc.holds := by
  cases pc <;> rfl

theorem evaluates_wake (pc : WorkerPc) : pc.wake.evaluates = pc.evaluates := by
  cases pc <;> rfl

theorem sameAccount_signalled (p : Pool) (ws : List ℕ) : SameAccount p (p.signalled ws) where
  queue := rfl
  length := rfl
  done _ := rfl
  held _ := countP_mapIdx_of_eq _ (fun i pc => by split <;> simp [holds_wake]) _
  evaluating _ := countP_mapIdx_of_eq _ (fun i pc => by split <;> simp [evaluates_wake]) _
  enqueues _ := rfl
  pushed := rfl
  taken := rfl
  evaluated := rfl

theorem SameAccount.trans {p q r : Pool} (h : SameAccount p q) (h' : SameAccount q r) :
    SameAccount p r where
  queue := h'.queue.trans h.queue
  length := h'.length.trans h.length
  done job := (h'.done job).trans (h.done job)
  held job := (h'.held job).trans (h.held job)
  evaluating job := (h'.evaluating job).trans (h.evaluating job)
  enqueues c := (h'.enqueues c).trans (h.enqueues c)
  pushed := h'.pushed.trans h.pushed
  taken := h'.taken.trans h.taken
  evaluated := h'.evaluated.trans h.evaluated

theorem isDone_swapOut (p : Pool) (job r : JobRef) : (p.swapOut job).isDone r = p.isDone r := by
  simp only [isDone, swapOut_heap, List.getElem?_modify]
  cases p.heap[r]? with
  | none => rfl
  | some j => by_cases h : job = r <;> simp [h]

theorem isDone_publish {p : Pool} {job : ℕ} (hlt : job < p.heap.length)
    (status : Status) (result : Result) (r : JobRef) :
    (p.publish job status result).isDone r = (p.isDone r || job == r) := by
  simp only [isDone, publish_heap, List.getElem?_modify]
  by_cases h : job = r
  · subst h
    simp [List.getElem?_eq_getElem hlt]
  · cases p.heap[r]? <;> simp [h]

theorem isDone_allocate (p : Pool) (request : SubmitRequest) (id : UInt64) (r : JobRef) :
    (p.allocate request id).isDone r = p.isDone r := by
  simp only [isDone, allocate_heap, List.getElem?_append]
  split
  · rfl
  · next hge =>
      rw [List.getElem?_eq_none (by omega : p.heap.length ≤ r)]
      cases h : r - p.heap.length <;> simp

theorem conserved_start (n : ℕ) : (start n).Conserved where
  account job := by
    have hcount : (start n).heldCount job = 0 := by
      simp [heldCount, start, List.countP_replicate, WorkerPc.holds]
    rw [hcount]
    rfl
  nodup := by simp [Pool.pushed, start]
  bounded job hjob := by simp [Pool.pushed, start] at hjob
  enqueuing c job hc := by simp [start, CallerPc.enqueues] at hc
  distinct c d job hc := by simp [start, CallerPc.enqueues] at hc
  order := rfl
  evaluation job := by
    have hcount : (start n).evaluatingCount job = 0 := by
      simp [evaluatingCount, start, List.countP_replicate, WorkerPc.evaluates]
    rw [hcount]
    rfl

theorem conserved_take {p : Pool} {i : ℕ} (h : p.Conserved) (hpc : p.WorkerAt i .exitTest)
    {job : JobRef} {rest : List JobRef} (hqueue : p.jobQueue = job :: rest) :
    ((setWorker { p with qMtx := none, jobQueue := rest } i (.evaluate job)).emit
      (.taken i job)).Conserved := by
  have hpushed : ((setWorker { p with qMtx := none, jobQueue := rest } i
      (.evaluate job)).emit (.taken i job)).pushed = p.pushed := by
    simp [Pool.pushed, Event.pushed?]
  have htaken : ((setWorker { p with qMtx := none, jobQueue := rest } i
      (.evaluate job)).emit (.taken i job)).taken = p.taken ++ [job] := by
    simp [Pool.taken, Event.taken?]
  have hevaluated : ((setWorker { p with qMtx := none, jobQueue := rest } i
      (.evaluate job)).emit (.taken i job)).evaluated = p.evaluated := by
    simp [Pool.evaluated, Event.evaluated?]
  refine ⟨fun r => ?_, hpushed ▸ h.nodup, hpushed ▸ h.bounded, hpushed ▸ h.enqueuing,
    h.distinct, ?_, fun r => ?_⟩
  · have haccount := h.account r
    have hheld := heldCount_setWorker (.evaluate job) hpc r
    rw [hqueue, List.count_cons] at haccount
    change rest.count r + (p.setWorker i (.evaluate job)).heldCount r + (p.isDone r).toNat = _
    rw [hpushed]
    by_cases hr : job = r <;> simp [hr, WorkerPc.holds] at haccount hheld ⊢ <;> omega
  · rw [hpushed, htaken, h.order, hqueue, List.append_assoc]
    rfl
  · have hevaluation := h.evaluation r
    have heval := evaluatingCount_setWorker (.evaluate job) hpc r
    rw [hevaluated, htaken, List.count_append]
    change p.evaluated.count r + (p.setWorker i (.evaluate job)).evaluatingCount r = _
    by_cases hr : job = r <;> simp [hr, WorkerPc.evaluates] at heval ⊢ <;> omega

theorem Conserved.pushed_count_le {p : Pool} (h : p.Conserved) (job : JobRef) :
    p.pushed.count job ≤ 1 := List.nodup_iff_count_le_one.mp h.nodup job

theorem heldCount_pos {p : Pool} {i : ℕ} {pc : WorkerPc} {job : JobRef}
    (hpc : p.WorkerAt i pc) (hholds : pc.holds = some job) : 0 < p.heldCount job :=
  List.countP_pos_iff.mpr ⟨pc, List.mem_of_getElem? hpc, by simp [hholds]⟩

theorem Conserved.lt_of_holds {p : Pool} (h : p.Conserved) {i : ℕ} {pc : WorkerPc}
    {job : ℕ} (hpc : p.WorkerAt i pc) (hholds : pc.holds = some job) :
    job < p.heap.length := by
  apply h.bounded job
  rw [← List.count_pos_iff, ← h.account job]
  have := heldCount_pos hpc hholds
  omega

theorem Conserved.not_done_of_holds {p : Pool} (h : p.Conserved) {i : ℕ} {pc : WorkerPc}
    {job : JobRef} (hpc : p.WorkerAt i pc) (hholds : pc.holds = some job) :
    p.isDone job = false := by
  have hpos := heldCount_pos hpc hholds
  have haccount := h.account job
  have hle := h.pushed_count_le job
  cases hdone : p.isDone job with
  | false => rfl
  | true =>
      rw [hdone, Bool.toNat_true] at haccount
      omega

theorem conserved_evaluate {p : Pool} {i : ℕ} (h : p.Conserved) {job : JobRef}
    (hpc : p.WorkerAt i (.evaluate job)) (status : Status) (result : Result) :
    ((p.setWorker i (.publish job status result)).emit (.evaluated i job)).Conserved := by
  have hpushed : ((p.setWorker i (.publish job status result)).emit
      (.evaluated i job)).pushed = p.pushed := by
    simp [Pool.pushed, Event.pushed?]
  have htaken : ((p.setWorker i (.publish job status result)).emit
      (.evaluated i job)).taken = p.taken := by
    simp [Pool.taken, Event.taken?]
  have hevaluated : ((p.setWorker i (.publish job status result)).emit
      (.evaluated i job)).evaluated = p.evaluated ++ [job] := by
    simp [Pool.evaluated, Event.evaluated?]
  refine ⟨fun r => ?_, hpushed ▸ h.nodup, hpushed ▸ h.bounded, hpushed ▸ h.enqueuing,
    h.distinct, by rw [hpushed, htaken]; exact h.order, fun r => ?_⟩
  · have haccount := h.account r
    have hheld := heldCount_setWorker (.publish job status result) hpc r
    change p.jobQueue.count r + (p.setWorker i (.publish job status result)).heldCount r +
      (p.isDone r).toNat = _
    rw [hpushed]
    by_cases hr : job = r
    · subst hr
      simp [WorkerPc.holds] at hheld
      omega
    · simp [hr, WorkerPc.holds] at hheld
      omega
  · have hevaluation := h.evaluation r
    have heval := evaluatingCount_setWorker (.publish job status result) hpc r
    rw [hevaluated, htaken, List.count_append]
    change p.evaluated.count r + _ +
      (p.setWorker i (.publish job status result)).evaluatingCount r = _
    by_cases hr : job = r <;> simp [hr, WorkerPc.evaluates] at heval ⊢ <;> omega

theorem conserved_publish {p : Pool} {i : ℕ} (h : p.Conserved) {job : JobRef}
    {status : Status} {result : Result} (hpc : p.WorkerAt i (.publish job status result)) :
    (((p.publish job status result).setWorker i (.notify job)).emit
      (.published job)).Conserved := by
  have hlt := h.lt_of_holds hpc rfl
  have hlength : (p.publish job status result).heap.length = p.heap.length := by simp
  have hpushed : (((p.publish job status result).setWorker i (.notify job)).emit
      (.published job)).pushed = p.pushed := by
    simp [Pool.pushed, Event.pushed?]
  have htaken : (((p.publish job status result).setWorker i (.notify job)).emit
      (.published job)).taken = p.taken := by
    simp [Pool.taken, Event.taken?]
  have hevaluated : (((p.publish job status result).setWorker i (.notify job)).emit
      (.published job)).evaluated = p.evaluated := by
    simp [Pool.evaluated, Event.evaluated?]
  refine ⟨fun r => ?_, hpushed ▸ h.nodup, fun r hr => ?_, fun c r hc => ?_, h.distinct,
    by rw [hpushed, htaken]; exact h.order, fun r => ?_⟩
  · have haccount := h.account r
    have hheld := heldCount_setWorker (.notify job) hpc r
    have hdone := isDone_publish hlt status result r
    change p.jobQueue.count r + (p.setWorker i (.notify job)).heldCount r +
      ((p.publish job status result).isDone r).toNat = _
    rw [hpushed, hdone]
    by_cases hr : job = r
    · subst hr
      rw [h.not_done_of_holds hpc rfl] at haccount ⊢
      simp [WorkerPc.holds] at haccount hheld ⊢
      omega
    · have hbeq : (job == r) = false := by simpa using hr
      simp [hr, WorkerPc.holds] at hheld
      rw [hbeq, Bool.or_false]
      omega
  · rw [hpushed] at hr
    exact hlength ▸ h.bounded r hr
  · rw [hpushed]
    exact hlength ▸ h.enqueuing c r hc
  · have hevaluation := h.evaluation r
    have heval := evaluatingCount_setWorker (.notify job) hpc r
    rw [hevaluated, htaken]
    change p.evaluated.count r + (p.setWorker i (.notify job)).evaluatingCount r = _
    simp [WorkerPc.evaluates] at heval
    omega

theorem conserved_workerStep {p p' : Pool} {i : ℕ} (h : p.Conserved)
    (hs : WorkerStep p i p') : p'.Conserved := by
  cases hs with
  | loopTest hpc =>
      refine SameAccount.conserved ?_ h
      exact sameAccount_setWorker _ hpc (by split <;> rfl) (by split <;> rfl)
  | acquire hpc =>
      refine SameAccount.conserved ?_ h
      rcases hpc with hpc | hpc
      · exact (sameAccount_setWorker .waitTest hpc rfl rfl).withMutex _
      · exact (sameAccount_setWorker .waitTest hpc rfl rfl).withMutex _
  | wait hpc | leaveWait hpc | spurious hpc =>
      refine SameAccount.conserved ?_ h
      exact sameAccount_setWorker _ hpc rfl rfl
  | enterWait hpc =>
      exact ((sameAccount_setWorker .blocked hpc rfl rfl).withMutex none).conserved h
  | exit hpc =>
      exact ((sameAccount_setWorker .exited hpc rfl rfl).withMutex none).conserved h
  | take hpc job rest hqueue => exact conserved_take h hpc hqueue
  | evaluate job hpc j hj status result heval => exact conserved_evaluate h hpc status result
  | trap => exact ⟨h.account, h.nodup, h.bounded, h.enqueuing, h.distinct, h.order, h.evaluation⟩
  | publish job status result hpc => exact conserved_publish h hpc
  | notify job hpc =>
      have hsame : SameAccount p (p.setWorker i .loopTest) := sameAccount_setWorker _ hpc rfl rfl
      refine SameAccount.conserved ⟨hsame.queue, hsame.length, hsame.done, hsame.held,
        hsame.evaluating, fun c => enqueues_notified job (p.callers c), hsame.pushed,
        hsame.taken, hsame.evaluated⟩ h

theorem conserved_enqueue {p : Pool} {c : ℕ} (h : p.Conserved) (request : SubmitRequest)
    (id reading : UInt64) :
    (((p.allocate request id).setCaller c (.insert request id p.heap.length)).emit
      (.enqueued reading)).Conserved := by
  set p' := ((p.allocate request id).setCaller c (.insert request id p.heap.length)).emit
    (.enqueued reading) with hp'
  have hpushed : p'.pushed = p.pushed := by simp [hp', Pool.pushed, Event.pushed?]
  have htaken : p'.taken = p.taken := by simp [hp', Pool.taken, Event.taken?]
  have hevaluated : p'.evaluated = p.evaluated := by
    simp [hp', Pool.evaluated, Event.evaluated?]
  have hlength : p'.heap.length = p.heap.length + 1 := by simp [hp']
  have hmine : (p'.callers c).enqueues = some p.heap.length := by
    simp [hp', CallerPc.enqueues]
  have hother : ∀ d, d ≠ c → p'.callers d = p.callers d := fun d hd => by simp [hp', hd]
  refine ⟨fun r => ?_, hpushed ▸ h.nodup, fun r hr => ?_, fun d r hd => ?_,
    fun d e r hd he => ?_, by rw [hpushed, htaken]; exact h.order, fun r => ?_⟩
  · have hdone : p'.isDone r = p.isDone r := isDone_allocate p request id r
    rw [hpushed, hdone]
    exact h.account r
  · rw [hpushed] at hr
    have := h.bounded r hr
    omega
  · rw [hpushed, hlength]
    by_cases hdc : d = c
    · rw [hdc, hmine] at hd
      obtain rfl : p.heap.length = r := Option.some.inj hd
      exact ⟨by omega, fun hmem => absurd (h.bounded _ hmem) (by omega)⟩
    · obtain ⟨hlt, hnot⟩ := h.enqueuing d r (hother d hdc ▸ hd)
      exact ⟨by omega, hnot⟩
  · -- the new job is nobody else's, because every older one is below it
    by_cases hdc : d = c <;> by_cases hec : e = c
    · rw [hdc, hec]
    · rw [hdc, hmine] at hd
      have := (h.enqueuing e r (hother e hec ▸ he)).1
      have := Option.some.inj hd
      omega
    · rw [hec, hmine] at he
      have := (h.enqueuing d r (hother d hdc ▸ hd)).1
      have := Option.some.inj he
      omega
    · exact h.distinct d e r (hother d hdc ▸ hd) (hother e hec ▸ he)
  · rw [hevaluated, htaken]
    exact h.evaluation r

theorem conserved_push {p : Pool} {c : ℕ} (h : p.Conserved) {request : SubmitRequest}
    {id : UInt64} {job : JobRef} (hpc : p.callers c = .push request id job) :
    ((setCaller { p with qMtx := none, jobQueue := p.jobQueue ++ [job] } c
      (.signal request id job)).emit (.pushed job)).Conserved := by
  set p' := (setCaller { p with qMtx := none, jobQueue := p.jobQueue ++ [job] } c
    (.signal request id job)).emit (.pushed job) with hp'
  have hpushed : p'.pushed = p.pushed ++ [job] := by simp [hp', Pool.pushed, Event.pushed?]
  have htaken : p'.taken = p.taken := by simp [hp', Pool.taken, Event.taken?]
  have hevaluated : p'.evaluated = p.evaluated := by
    simp [hp', Pool.evaluated, Event.evaluated?]
  have hmine : (p'.callers c).enqueues = none := by simp [hp', CallerPc.enqueues]
  have hother : ∀ d, d ≠ c → p'.callers d = p.callers d := fun d hd => by simp [hp', hd]
  have hjob : (p.callers c).enqueues = some job := by rw [hpc]; rfl
  obtain ⟨hlt, hnot⟩ := h.enqueuing c job hjob
  refine ⟨fun r => ?_, ?_, fun r hr => ?_, fun d r hd => ?_, fun d e r hd he => ?_, ?_,
    fun r => ?_⟩
  · rw [hpushed, List.count_append, ← h.account r]
    change (p.jobQueue ++ [job]).count r + p.heldCount r + (p.isDone r).toNat = _
    rw [List.count_append]
    omega
  · rw [hpushed]
    exact List.nodup_append.mpr ⟨h.nodup, List.nodup_singleton job, fun a ha b hb => by
      rw [List.mem_singleton.mp hb]
      exact fun heq => hnot (heq ▸ ha)⟩
  · rw [hpushed, List.mem_append, List.mem_singleton] at hr
    rcases hr with hr | rfl
    · exact h.bounded r hr
    · exact hlt
  · by_cases hdc : d = c
    · rw [hdc, hmine] at hd
      cases hd
    · rw [hother d hdc] at hd
      obtain ⟨hrlt, hrnot⟩ := h.enqueuing d r hd
      refine ⟨hrlt, ?_⟩
      rw [hpushed, List.mem_append, List.mem_singleton, not_or]
      refine ⟨hrnot, ?_⟩
      rintro rfl
      exact hdc (h.distinct d c r hd hjob)
  · by_cases hdc : d = c
    · rw [hdc, hmine] at hd
      cases hd
    · by_cases hec : e = c
      · rw [hec, hmine] at he
        cases he
      · exact h.distinct d e r (hother d hdc ▸ hd) (hother e hec ▸ he)
  · rw [hpushed, htaken, h.order, List.append_assoc]
    rfl
  · rw [hevaluated, htaken]
    exact h.evaluation r

theorem conserved_callerStep {p p' : Pool} {c : ℕ} {choice : Choice} (h : p.Conserved)
    (hs : CallerStep p c choice p') : p'.Conserved := by
  cases hs with
  | trap => exact ⟨h.account, h.nodup, h.bounded, h.enqueuing, h.distinct, h.order, h.evaluation⟩
  | enqueue request hpc => exact conserved_enqueue h request _ _
  | push request id job hpc => exact conserved_push h hpc
  | insert request id job hpc =>
      have hs : SameAccount p (p.setCaller c (.lockQueue request id job)) :=
        sameAccount_setCaller (by rw [hpc]; rfl)
      exact SameAccount.conserved ⟨hs.1, hs.2, hs.3, hs.4, hs.5, hs.6, hs.7, hs.8, hs.9⟩ h
  | lockQueue request id job hpc =>
      have hs : SameAccount p (p.setCaller c (.push request id job)) :=
        sameAccount_setCaller (by rw [hpc]; rfl)
      exact (hs.withMutex (some (.caller c))).conserved h
  | signal request id job hpc =>
      refine ((sameAccount_signalled p choice.wake).trans ?_).conserved h
      exact sameAccount_setCaller (by rw [signalled_callers, hpc]; rfl)
  | ran request response hpc | got request response hpc =>
      have hs : SameAccount p (p.setCaller c .idle) :=
        sameAccount_setCaller (by rw [hpc]; rfl)
      exact (hs.emit rfl rfl rfl).conserved h
  | consume request job hpc j =>
      have hnone : (p.callers c).enqueues = none := by
        rcases hpc with hpc | ⟨timeout, hpc⟩ <;> rw [hpc] <;> rfl
      have hs : SameAccount p (p.setCaller c
          (.erase request { status := j.status, result := some j.result })) :=
        sameAccount_setCaller hnone.symm
      have hlength : (p.swapOut job).heap.length = p.heap.length := by simp
      exact SameAccount.conserved ⟨hs.1, hlength, isDone_swapOut p job, hs.4, hs.5, hs.6, hs.7,
        hs.8, hs.9⟩ h
  | erase request response hpc =>
      have hs : SameAccount p (p.setCaller c (.got request response)) :=
        sameAccount_setCaller (by rw [hpc]; rfl)
      exact SameAccount.conserved ⟨hs.1, hs.2, hs.3, hs.4, hs.5, hs.6, hs.7, hs.8, hs.9⟩ h
  | stopStore hpc =>
      have hs : SameAccount p (p.setCaller c .stopBroadcast) :=
        sameAccount_setCaller (by rw [hpc]; rfl)
      exact SameAccount.conserved ⟨hs.1, hs.2, hs.3, hs.4, hs.5, hs.6, hs.7, hs.8, hs.9⟩ h
  | stopBroadcast hpc =>
      have hs : SameAccount p (p.setCaller c (.join 0)) :=
        sameAccount_setCaller (by rw [hpc]; rfl)
      exact SameAccount.conserved ⟨hs.1, hs.2, hs.3,
        fun r => countP_map_of_eq _ (fun pc => by simp [holds_wake]) _,
        fun r => countP_map_of_eq _ (fun pc => by simp [evaluates_wake]) _, hs.6, hs.7, hs.8,
        hs.9⟩ h
  | stopTest hpc =>
      refine SameAccount.conserved (sameAccount_setCaller ?_) h
      split <;> rw [hpc] <;> rfl
  | notFinished request job hpc | wake request job hpc =>
      refine SameAccount.conserved (sameAccount_setCaller ?_) h
      rcases hpc with hpc | hpc <;> rw [hpc] <;> rfl
  | blocking request hpc | refuse request hpc | findNone request hpc
  | findNoWait request hpc | findWaitUpTo request hpc | findBadMode request hpc
  | block request job hpc | join i hpc | joined i hpc | stopped hpc =>
      refine SameAccount.conserved (sameAccount_setCaller ?_) h
      rw [hpc]
      rfl

theorem conserved_step (p : Pool) (l : Label) (p' : Pool) (h : p.Conserved)
    (hs : p.step l = some p') : p'.Conserved := by
  obtain ⟨-, hs⟩ := step_cases hs
  cases hs with
  | run c request hidle | get c request hidle | deinit c hidle =>
      refine SameAccount.conserved (sameAccount_setCaller ?_) h
      rw [hidle]
      rfl
  | caller c choice hc => exact conserved_callerStep h hc
  | worker i hw => exact conserved_workerStep h hw

theorem conserved_of_run {n : ℕ} {ls : List Label} {p : Pool}
    (h : run step (start n) ls = some p) : p.Conserved :=
  run_invariant conserved_step (conserved_start n) h

end Pool

end InterProcess
