import InterProcess.Runner.Conservation

/-!
# The ticket map

The `jobs` map is written by `enqueue` and by `get` in sections of their own, so
what it says about a job depends on where the calling threads are. `Ticketed` is
the invariant: every entry leads to the record with that id, every thread inside
`get` holds the record it looked up, a ticket that is about to be erased belongs
to a done job, and a job that is not done is found under its id, unless the
thread that made it has not inserted it yet.

The last part needs that no two jobs of the run have the same id.
-/

namespace InterProcess

open Transition

/-- The entry that a call of `enqueue` is about to make. -/
def CallerPc.inserts : CallerPc → Option (UInt64 × JobRef)
  | .insert _ id job => some (id, job)
  | _ => none

/-- The ticket and the record that a call of `get` works on. -/
def CallerPc.reads : CallerPc → Option (UInt64 × JobRef)
  | .noWait request job | .waitUpTo request job _ | .cvBlocked request job
  | .cvNotified request job => some (request.reqId, job)
  | _ => none

/-- The ticket that a call of `get` is about to erase. -/
def CallerPc.erases : CallerPc → Option UInt64
  | .erase request _ => some request.reqId
  | _ => none

/-- What every step keeps of a record: its id, its request, and that it is done. -/
structure Job.Keeps (j j' : Job) : Prop where
  id : j'.id = j.id
  req : j'.req = j.req
  done : j.done = true → j'.done = true

namespace Pool

def ids (p : Pool) : List UInt64 := p.heap.map Job.id

def HasId (p : Pool) (job : JobRef) (t : UInt64) : Prop :=
  ∃ j, p.heap[job]? = some j ∧ j.id = t

def DoneAs (p : Pool) (job : JobRef) (t : UInt64) : Prop :=
  ∃ j, p.heap[job]? = some j ∧ j.id = t ∧ j.done = true

theorem hasId_iff {p : Pool} {job : JobRef} {t : UInt64} :
    p.HasId job t ↔ p.ids[job]? = some t := by
  simp [HasId, ids]

theorem HasId.unique {p : Pool} (hids : p.ids.Nodup) {r s : JobRef} {t : UInt64}
    (hr : p.HasId r t) (hs : p.HasId s t) : r = s := by
  rw [hasId_iff] at hr hs
  have hlt : r < p.ids.length := (List.getElem?_eq_some_iff.mp hr).1
  exact (List.getElem?_inj hlt hids).mp (hr.trans hs.symm)

theorem HasId.id_unique {p : Pool} {job : JobRef} {t t' : UInt64} (h : p.HasId job t)
    (h' : p.HasId job t') : t = t' := by
  obtain ⟨j, hj, rfl⟩ := h
  obtain ⟨j', hj', rfl⟩ := h'
  rw [Option.some.inj (hj.symm.trans hj')]

theorem map_id_modify (heap : List Job) (job : JobRef) {f : Job → Job}
    (hid : ∀ j, (f j).id = j.id) : (heap.modify job f).map Job.id = heap.map Job.id := by
  apply List.ext_getElem?
  intro r
  simp only [List.getElem?_map, List.getElem?_modify]
  cases heap[r]? with
  | none => rfl
  | some j => by_cases hr : job = r <;> simp [hr, hid]

structure Ticketed (p : Pool) : Prop where
  entry : ∀ t job, p.jobs t = some job → p.HasId job t
  inserting : ∀ c t job, (p.callers c).inserts = some (t, job) → p.HasId job t
  reading : ∀ c t job, (p.callers c).reads = some (t, job) → p.HasId job t
  erasing : ∀ c t, (p.callers c).erases = some t → ∃ job, p.DoneAs job t
  reachable : p.ids.Nodup → ∀ (job : JobRef) (j : Job), p.heap[job]? = some j →
    j.done = false → (∃ c, (p.callers c).inserts = some (j.id, job)) ∨ p.jobs j.id = some job

/-- The records of `p` are still there in `p'`, with their ids and as done as
they were. -/
def Extends (p p' : Pool) : Prop :=
  ∀ (job : JobRef) (j : Job), p.heap[job]? = some j →
    ∃ j' : Job, p'.heap[job]? = some j' ∧ j'.id = j.id ∧ (j.done = true → j'.done = true)

theorem Extends.hasId {p p' : Pool} (h : p.Extends p') {job : JobRef} {t : UInt64}
    (hid : p.HasId job t) : p'.HasId job t := by
  obtain ⟨j, hj, rfl⟩ := hid
  obtain ⟨j', hj', hid', -⟩ := h job j hj
  exact ⟨j', hj', hid'⟩

theorem Extends.doneAs {p p' : Pool} (h : p.Extends p') {job : JobRef} {t : UInt64}
    (hdone : p.DoneAs job t) : p'.DoneAs job t := by
  obtain ⟨j, hj, rfl, hd⟩ := hdone
  obtain ⟨j', hj', hid', hdone'⟩ := h job j hj
  exact ⟨j', hj', hid', hdone' hd⟩

theorem exists_of_modify {heap : List Job} (job : JobRef) (f : Job → Job) {R : Job → Job → Prop}
    (hrefl : ∀ j, R j j) (hf : ∀ j, R j (f j)) {r : JobRef} {j : Job} (hj : heap[r]? = some j) :
    ∃ j' : Job, (heap.modify job f)[r]? = some j' ∧ R j j' := by
  rw [List.getElem?_modify, hj]
  by_cases hr : job = r
  · exact ⟨f j, by simp [hr], hf j⟩
  · exact ⟨j, by simp [hr], hrefl j⟩

theorem extends_modify {p p' : Pool} (job : JobRef) (f : Job → Job)
    (hheap : p'.heap = p.heap.modify job f) (hid : ∀ j, (f j).id = j.id)
    (hdone : ∀ j, j.done = true → (f j).done = true) : p.Extends p' := by
  intro r j hj
  rw [hheap]
  exact exists_of_modify job f (R := fun j j' => j'.id = j.id ∧ (j.done = true → j'.done = true))
    (fun _ => ⟨rfl, id⟩) (fun j => ⟨hid j, hdone j⟩) hj

theorem record_step {p p' : Pool} {l : Label} (hs : p.step l = some p') {job : JobRef} {j : Job}
    (hj : p.heap[job]? = some j) : ∃ j' : Job, p'.heap[job]? = some j' ∧ j.Keeps j' := by
  obtain ⟨-, hs⟩ := step_cases hs
  cases hs with
  | run | get | deinit => exact ⟨j, hj, rfl, rfl, id⟩
  | caller c choice hc =>
      cases hc with
      | enqueue request =>
          have hlt := (List.getElem?_eq_some_iff.mp hj).1
          exact ⟨j, by simp [List.getElem?_append_left hlt, hj], rfl, rfl, id⟩
      | consume request job' =>
          exact exists_of_modify job' (fun j => { j with result := {} })
            (fun _ => ⟨rfl, rfl, id⟩) (fun _ => ⟨rfl, rfl, id⟩) hj
      | _ => exact ⟨j, hj, rfl, rfl, id⟩
  | worker i hw =>
      cases hw with
      | publish job' status result =>
          exact exists_of_modify job' (fun j => { j with status, result, done := true })
            (fun _ => ⟨rfl, rfl, id⟩) (fun _ => ⟨rfl, rfl, fun _ => rfl⟩) hj
      | _ => exact ⟨j, hj, rfl, rfl, id⟩

theorem Ticketed.modify {p p' : Pool} (h : p.Ticketed) (job : JobRef) (f : Job → Job)
    (hheap : p'.heap = p.heap.modify job f) (hid : ∀ j, (f j).id = j.id)
    (hdone : ∀ j, j.done = true → (f j).done = true)
    (hjobs : p'.jobs = p.jobs) (hcallers : p'.callers = p.callers) : p'.Ticketed := by
  have hext := extends_modify job f hheap hid hdone
  refine ⟨fun t r ht => ?_, fun c t r hc => ?_, fun c t r hc => ?_, fun c t hc => ?_,
    fun hids r j' hr hnot => ?_⟩
  · exact hext.hasId (h.entry t r (hjobs ▸ ht))
  · exact hext.hasId (h.inserting c t r (hcallers ▸ hc))
  · exact hext.hasId (h.reading c t r (hcallers ▸ hc))
  · obtain ⟨r, hr⟩ := h.erasing c t (hcallers ▸ hc)
    exact ⟨r, hext.doneAs hr⟩
  · rw [ids, hheap, map_id_modify _ _ hid] at hids
    rw [hheap] at hr
    rw [hjobs, hcallers]
    obtain ⟨j, hj, ⟨-, rfl⟩ | ⟨-, rfl⟩⟩ := record_modify_cases hr
    · rw [hid]
      refine h.reachable hids r j hj ?_
      cases hd : j.done with
      | false => rfl
      | true => exact absurd (hdone j hd) (by simp [hnot])
    · exact h.reachable hids r _ hj hnot

theorem Ticketed.setCaller {p : Pool} (h : p.Ticketed) {c : ℕ} {pc : CallerPc}
    (hleft : ∀ t job, (p.callers c).inserts = some (t, job) → p.jobs t = some job)
    (hinserts : pc.inserts = none)
    (hreads : ∀ t job, pc.reads = some (t, job) → p.HasId job t)
    (herases : ∀ t, pc.erases = some t → ∃ job, p.DoneAs job t) :
    (p.setCaller c pc).Ticketed := by
  have hother : ∀ d, d ≠ c → (p.setCaller c pc).callers d = p.callers d :=
    fun d hd => by simp [hd]
  have hmine : (p.setCaller c pc).callers c = pc := by simp
  refine ⟨h.entry, fun d t r hd => ?_, fun d t r hd => ?_, fun d t hd => ?_,
    fun hids r j hr hnot => ?_⟩
  · by_cases hdc : d = c
    · rw [hdc, hmine, hinserts] at hd
      cases hd
    · exact h.inserting d t r (by rw [← hother d hdc]; exact hd)
  · by_cases hdc : d = c
    · rw [hdc, hmine] at hd
      exact hreads t r hd
    · exact h.reading d t r (by rw [← hother d hdc]; exact hd)
  · by_cases hdc : d = c
    · rw [hdc, hmine] at hd
      exact herases t hd
    · exact h.erasing d t (by rw [← hother d hdc]; exact hd)
  · rcases h.reachable hids r j hr hnot with ⟨d, hd⟩ | hjobs
    · by_cases hdc : d = c
      · exact Or.inr (hleft j.id r (hdc ▸ hd))
      · exact Or.inl ⟨d, by rw [hother d hdc]; exact hd⟩
    · exact Or.inr hjobs

theorem Ticketed.setJobs {p : Pool} (h : p.Ticketed) (m : Table UInt64 JobRef)
    (hentry : ∀ t job, m t = some job → p.HasId job t)
    (hkeep : p.ids.Nodup → ∀ (job : JobRef) (j : Job), p.heap[job]? = some j →
      j.done = false → p.jobs j.id = some job → m j.id = some job) :
    Ticketed { p with jobs := m } where
  entry := hentry
  inserting := h.inserting
  reading := h.reading
  erasing := h.erasing
  reachable hids job j hj hnot :=
    (h.reachable hids job j hj hnot).imp (fun hins => hins) (hkeep hids job j hj hnot)

theorem Ticketed.congr {p p' : Pool} (h : p.Ticketed) (hheap : p'.heap = p.heap)
    (hjobs : p'.jobs = p.jobs)
    (hinserts : ∀ c, (p'.callers c).inserts = (p.callers c).inserts)
    (hreads : ∀ c, (p'.callers c).reads = (p.callers c).reads)
    (herases : ∀ c, (p'.callers c).erases = (p.callers c).erases) : p'.Ticketed := by
  have hid : ∀ {job t}, p.HasId job t → p'.HasId job t := fun hid => by
    rw [HasId, hheap]; exact hid
  refine ⟨fun t r ht => hid (h.entry t r (hjobs ▸ ht)),
    fun c t r hc => hid (h.inserting c t r (hinserts c ▸ hc)),
    fun c t r hc => hid (h.reading c t r (hreads c ▸ hc)), fun c t hc => ?_,
    fun hids r j hr hnot => ?_⟩
  · obtain ⟨r, hr⟩ := h.erasing c t (herases c ▸ hc)
    exact ⟨r, by rw [DoneAs, hheap]; exact hr⟩
  · rw [hjobs]
    rw [ids, hheap] at hids
    rcases h.reachable hids r j (hheap ▸ hr) hnot with ⟨c, hc⟩ | hin
    · exact Or.inl ⟨c, (hinserts c).trans hc⟩
    · exact Or.inr hin

theorem ticketed_start (n : ℕ) : (start n).Ticketed where
  entry t job h := by simp [start] at h
  inserting c t job h := by simp [start, CallerPc.inserts] at h
  reading c t job h := by simp [start, CallerPc.reads] at h
  erasing c t h := by simp [start, CallerPc.erases] at h
  reachable _ job j h := by simp [start] at h

theorem inserts_notified (job : JobRef) (pc : CallerPc) :
    (pc.notified job).inserts = pc.inserts :=
  CallerPc.notified_congr CallerPc.inserts (fun _ _ => rfl) job pc

theorem reads_notified (job : JobRef) (pc : CallerPc) :
    (pc.notified job).reads = pc.reads :=
  CallerPc.notified_congr CallerPc.reads (fun _ _ => rfl) job pc

theorem erases_notified (job : JobRef) (pc : CallerPc) :
    (pc.notified job).erases = pc.erases :=
  CallerPc.notified_congr CallerPc.erases (fun _ _ => rfl) job pc

theorem ticketed_workerStep {p p' : Pool} {i : ℕ} (h : p.Ticketed)
    (hs : WorkerStep p i p') : p'.Ticketed := by
  cases hs with
  | publish job status result hpc =>
      exact h.modify job (fun j => { j with status, result, done := true }) rfl
        (fun _ => rfl) (fun _ _ => rfl) rfl rfl
  | notify job hpc =>
      exact h.congr rfl rfl (fun c => inserts_notified job _) (fun c => reads_notified job _)
        (fun c => erases_notified job _)
  | _ => exact h.congr rfl rfl (fun _ => rfl) (fun _ => rfl) (fun _ => rfl)

theorem ticketed_enqueue {p : Pool} {c : ℕ} (h : p.Ticketed) {request : SubmitRequest}
    (hpc : p.callers c = .run request) (id reading : UInt64) :
    (((p.allocate request id).setCaller c (.insert request id p.heap.length)).emit
      (.enqueued reading)).Ticketed := by
  set p' := ((p.allocate request id).setCaller c (.insert request id p.heap.length)).emit
    (.enqueued reading) with hp'
  have hheap : p'.heap = p.heap ++ [{ id := id, req := request }] := by simp [hp']
  have hext : p.Extends p' := by
    intro r j hj
    refine ⟨j, ?_, rfl, fun hd => hd⟩
    rw [hheap, List.getElem?_append_left (List.getElem?_eq_some_iff.mp hj).1, hj]
  have hmine : p'.callers c = .insert request id p.heap.length := by simp [hp']
  have hother : ∀ d, d ≠ c → p'.callers d = p.callers d := fun d hd => by simp [hp', hd]
  have hkeep : ∀ d t r, (p.callers d).inserts = some (t, r) →
      (p'.callers d).inserts = some (t, r) := by
    intro d t r hd
    by_cases hdc : d = c
    · rw [hdc, hpc] at hd
      cases hd
    · rw [hother d hdc, hd]
  refine ⟨fun t r ht => hext.hasId (h.entry t r ht), fun d t r hd => ?_, fun d t r hd => ?_,
    fun d t hd => ?_, fun hids r j hr hnot => ?_⟩
  · by_cases hdc : d = c
    · rw [hdc, hmine] at hd
      obtain ⟨rfl, rfl⟩ : id = t ∧ p.heap.length = r := by
        simpa [CallerPc.inserts] using hd
      exact ⟨{ id := id, req := request }, by simp [hheap], rfl⟩
    · exact hext.hasId (h.inserting d t r (by rw [← hother d hdc]; exact hd))
  · by_cases hdc : d = c
    · rw [hdc, hmine] at hd
      cases hd
    · exact hext.hasId (h.reading d t r (by rw [← hother d hdc]; exact hd))
  · by_cases hdc : d = c
    · rw [hdc, hmine] at hd
      cases hd
    · obtain ⟨r, hr⟩ := h.erasing d t (by rw [← hother d hdc]; exact hd)
      exact ⟨r, hext.doneAs hr⟩
  · rw [ids, hheap, List.map_append] at hids
    rw [hheap, List.getElem?_append] at hr
    split at hr
    · rcases h.reachable (List.nodup_append.mp hids).1 r j hr hnot with ⟨d, hd⟩ | hjobs
      · exact Or.inl ⟨d, hkeep d _ _ hd⟩
      · exact Or.inr hjobs
    · next hge =>
        -- the new record itself: its thread is at the insertion
        obtain ⟨hlt, hj⟩ := List.getElem?_eq_some_iff.mp hr
        obtain rfl : p.heap.length = r := by
          simp only [List.length_singleton] at hlt
          omega
        refine Or.inl ⟨c, ?_⟩
        rw [hmine]
        simp [CallerPc.inserts, ← hj]

theorem ticketed_insert {p : Pool} {c : ℕ} (h : p.Ticketed) {request : SubmitRequest} {id : UInt64} {job : JobRef}
    (hpc : p.callers c = .insert request id job) :
    (Pool.setCaller { p with jobs := p.jobs.insert id job } c
      (.lockQueue request id job)).Ticketed := by
  have hjob : p.HasId job id := h.inserting c id job (by rw [hpc]; rfl)
  have hmap : Ticketed { p with jobs := p.jobs.insert id job } := by
    refine h.setJobs _ (fun t r ht => ?_) (fun hids r j hr _ hin => ?_)
    · rw [Table.insert_apply] at ht
      split at ht
      · next heq => exact Option.some.inj ht ▸ heq ▸ hjob
      · exact h.entry t r ht
    · rw [Table.insert_apply]
      split
      · next heq => rw [HasId.unique hids ⟨j, hr, heq⟩ hjob]
      · exact hin
  refine hmap.setCaller (fun t r hins => ?_) rfl (by simp [CallerPc.reads])
    (by simp [CallerPc.erases])
  obtain ⟨rfl, rfl⟩ : id = t ∧ job = r := by simpa [hpc, CallerPc.inserts] using hins
  simp

theorem ticketed_erase {p : Pool} {c : ℕ} (h : p.Ticketed) {request : GetRequest} {response : GetResponse}
    (hpc : p.callers c = .erase request response) :
    (Pool.setCaller { p with jobs := p.jobs.erase request.reqId } c
      (.got request response)).Ticketed := by
  obtain ⟨s, js, hs, hsid, hsdone⟩ := h.erasing c request.reqId (by rw [hpc]; rfl)
  have hmap : Ticketed { p with jobs := p.jobs.erase request.reqId } := by
    refine h.setJobs _ (fun t r ht => h.entry t r (Table.of_erase_eq_some ht).2)
      (fun hids r j hr hnot hin => ?_)
    have hne : j.id ≠ request.reqId := by
      intro heq
      have hsame : r = s := HasId.unique hids ⟨j, hr, heq⟩ ⟨js, hs, hsid⟩
      rw [hsame, hs] at hr
      rw [← Option.some.inj hr, hsdone] at hnot
      cases hnot
    rw [Table.erase_of_ne _ hne, hin]
  exact hmap.setCaller (by simp [hpc, CallerPc.inserts]) rfl (by simp [CallerPc.reads])
    (by simp [CallerPc.erases])

theorem Ticketed.leave {p : Pool} (h : p.Ticketed) {c : ℕ} (pc : CallerPc)
    (hold : (p.callers c).inserts = none) (hinserts : pc.inserts = none)
    (hreads : pc.reads = none) (herases : pc.erases = none) : (p.setCaller c pc).Ticketed :=
  h.setCaller (by simp [hold]) hinserts (by simp [hreads]) (by simp [herases])

theorem Ticketed.same {p p' : Pool} (h : p.Ticketed) (hheap : p'.heap = p.heap)
    (hjobs : p'.jobs = p.jobs) (hcallers : p'.callers = p.callers) : p'.Ticketed :=
  h.congr hheap hjobs (fun c => by rw [hcallers]) (fun c => by rw [hcallers])
    (fun c => by rw [hcallers])

theorem ticketed_callerStep {p p' : Pool} {c : ℕ} {choice : Choice} (h : p.Ticketed)
    (hs : CallerStep p c choice p') : p'.Ticketed := by
  cases hs with
  | enqueue request hpc => exact ticketed_enqueue h hpc _ _
  | insert request id job hpc => exact ticketed_insert h hpc
  | erase request response hpc => exact ticketed_erase h hpc
  | trap => exact h.same rfl rfl rfl
  | findNoWait request hpc job hjob | findWaitUpTo request hpc job hjob =>
      refine h.setCaller (by simp [hpc, CallerPc.inserts]) rfl (fun t r hr => ?_)
        (by simp [CallerPc.erases])
      obtain ⟨rfl, rfl⟩ : request.reqId = t ∧ job = r := by simpa [CallerPc.reads] using hr
      exact h.entry _ _ hjob
  | block request job hpc =>
      exact h.setCaller (by simp [hpc, CallerPc.inserts]) rfl
        (fun t r hr => h.reading c t r (by rw [hpc]; exact hr)) (by simp [CallerPc.erases])
  | wake request job hpc =>
      rcases hpc with hpc | hpc
      · exact h.setCaller (by simp [hpc, CallerPc.inserts]) rfl
          (fun t r hr => h.reading c t r (by rw [hpc]; exact hr)) (by simp [CallerPc.erases])
      · exact h.setCaller (by simp [hpc, CallerPc.inserts]) rfl
          (fun t r hr => h.reading c t r (by rw [hpc]; exact hr)) (by simp [CallerPc.erases])
  | consume request job hpc j hj hdone =>
      have hread : (p.callers c).reads = some (request.reqId, job) ∧
          (p.callers c).inserts = none := by
        rcases hpc with hpc | ⟨timeout, hpc⟩ <;> rw [hpc] <;> exact ⟨rfl, rfl⟩
      have hswap : (p.swapOut job).Ticketed :=
        h.modify job (fun j => { j with result := {} }) rfl (fun _ => rfl) (fun _ hd => hd)
          rfl rfl
      refine hswap.setCaller (by simp [hread.2]) rfl (by simp [CallerPc.reads])
        (fun t ht => ⟨job, ?_⟩)
      obtain rfl : request.reqId = t := by simpa [CallerPc.erases] using ht
      obtain ⟨js, hjs, hid⟩ := h.reading c _ _ hread.1
      obtain rfl : j = js := Option.some.inj (hj.symm.trans hjs)
      exact ⟨{ j with result := {} }, by simp [hj], hid, hdone⟩
  | notFinished request job hpc =>
      refine h.leave _ ?_ rfl rfl rfl
      rcases hpc with hpc | hpc <;> rw [hpc] <;> rfl
  | stopTest hpc =>
      refine h.leave _ (by rw [hpc]; rfl) ?_ ?_ ?_ <;> split <;> rfl
  | lockQueue request id job hpc =>
      exact (h.leave (.push request id job) (by rw [hpc]; rfl) rfl rfl rfl).same rfl rfl rfl
  | push request id job hpc =>
      exact (h.leave (.signal request id job) (by rw [hpc]; rfl) rfl rfl rfl).same rfl rfl rfl
  | signal request id job hpc =>
      exact (h.leave (.ran request _) (by rw [hpc]; rfl) rfl rfl rfl).same rfl rfl rfl
  | ran request response hpc | got request response hpc =>
      exact (h.leave .idle (by rw [hpc]; rfl) rfl rfl rfl).same rfl rfl rfl
  | stopStore hpc =>
      exact (h.leave .stopBroadcast (by rw [hpc]; rfl) rfl rfl rfl).same rfl rfl rfl
  | stopBroadcast hpc =>
      exact (h.leave (.join 0) (by rw [hpc]; rfl) rfl rfl rfl).same rfl rfl rfl
  | blocking request hpc | refuse request hpc | findNone request hpc
  | findBadMode request hpc | join i hpc | joined i hpc | stopped hpc =>
      exact h.leave _ (by rw [hpc]; rfl) rfl rfl rfl

theorem ticketed_step (p : Pool) (l : Label) (p' : Pool) (h : p.Ticketed)
    (hs : p.step l = some p') : p'.Ticketed := by
  obtain ⟨-, hs⟩ := step_cases hs
  cases hs with
  | run c request hidle | get c request hidle | deinit c hidle =>
      exact h.leave _ (by rw [hidle]; rfl) rfl rfl rfl
  | caller c choice hc => exact ticketed_callerStep h hc
  | worker i hw => exact ticketed_workerStep h hw

theorem ids_step {p p' : Pool} {l : Label} (hs : p.step l = some p') : p.ids <+: p'.ids := by
  obtain ⟨-, hs⟩ := step_cases hs
  cases hs with
  | run | get | deinit => exact List.prefix_rfl
  | caller c choice hc =>
      cases hc with
      | enqueue => simp [ids]
      | consume => simp [ids, Pool.consume, map_id_modify]
      | _ => exact List.prefix_rfl
  | worker i hw =>
      cases hw with
      | publish => simp [ids, map_id_modify]
      | _ => exact List.prefix_rfl

theorem ticketed_of_run {n : ℕ} {ls : List Label} {p : Pool}
    (h : run step (start n) ls = some p) : p.Ticketed :=
  run_invariant ticketed_step (ticketed_start n) h

/-- The job is in exactly one of three places: once in the queue, held by one
worker, or done. -/
def InOnePlace (p : Pool) (job : JobRef) : Prop :=
  (p.jobQueue.count job = 1 ∧ p.heldCount job = 0 ∧ p.isDone job = false) ∨
  (p.jobQueue.count job = 0 ∧ p.heldCount job = 1 ∧ p.isDone job = false) ∨
  (p.jobQueue.count job = 0 ∧ p.heldCount job = 0 ∧ p.isDone job = true)

theorem Conserved.inOnePlace {p : Pool} (h : p.Conserved) {job : JobRef}
    (hjob : job ∈ p.pushed) : p.InOnePlace job := by
  have haccount := h.account job
  have hone : p.pushed.count job = 1 := List.count_eq_one_of_mem h.nodup hjob
  unfold InOnePlace
  cases hdone : p.isDone job with
  | false =>
      rw [hdone, Bool.toNat_false] at haccount
      simp only [reduceCtorEq, and_true, and_false, or_false]
      omega
  | true =>
      rw [hdone, Bool.toNat_true] at haccount
      simp only [reduceCtorEq, and_true, and_false, false_or]
      omega

theorem Conserved.evaluated_count_le {p : Pool} (h : p.Conserved) (job : JobRef) :
    p.evaluated.count job ≤ 1 := by
  have hevaluation := h.evaluation job
  have hle := h.pushed_count_le job
  rw [h.order, List.count_append] at hle
  omega

/-- Thread `c` is the `get` that consumes the done record `j` of `job`: it takes
the status and the result into its response and leaves the result empty. -/
def ConsumedBy (p p' : Pool) (c : ℕ) (job : JobRef) (j : Job) : Prop :=
  ∃ request, (p.callers c).reads = some (request.reqId, job) ∧
    p'.callers c = .erase request { status := j.status, result := some j.result } ∧
    p'.heap[job]? = some { j with result := {} }

/-- A published record changes only in the step of a `get` that consumes it. -/
theorem Conserved.published_frame {p p' : Pool} (h : p.Conserved) {l : Label}
    (hs : p.step l = some p') {job : JobRef} {j : Job} (hj : p.heap[job]? = some j)
    (hdone : j.done = true) :
    p'.heap[job]? = some j ∨
      ∃ c choice, l = .caller c choice ∧ p.ConsumedBy p' c job j := by
  obtain ⟨-, hs⟩ := step_cases hs
  cases hs with
  | run | get | deinit => exact Or.inl hj
  | caller c choice hc =>
      cases hc with
      | enqueue request hpc =>
          have hlt := (List.getElem?_eq_some_iff.mp hj).1
          exact Or.inl (by simp [List.getElem?_append_left hlt, hj])
      | consume request job' hpc j' hj' =>
          by_cases heq : job' = job
          · subst heq
            obtain rfl : j = j' := Option.some.inj (hj.symm.trans hj')
            refine Or.inr ⟨c, choice, rfl, request, ?_, by simp [Pool.consume],
              by simp [Pool.consume, hj]⟩
            rcases hpc with hpc | ⟨timeout, hpc⟩ <;> rw [hpc] <;> rfl
          · exact Or.inl (by simp [Pool.consume, heq, hj])
      | _ => exact Or.inl hj
  | worker i hw =>
      cases hw with
      | publish job' status result hpc =>
          -- a worker holds no job that is done
          have hne : job' ≠ job := by
            rintro rfl
            have hnot := h.not_done_of_holds hpc rfl
            rw [isDone, hj] at hnot
            simp [hdone] at hnot
          exact Or.inl (by simp [hne, hj])
      | _ => exact Or.inl hj

/-- Job conservation, in every state that any interleaving reaches. -/
theorem job_conservation (n : ℕ) (ls : List Label) (p : Pool)
    (hrun : run step (start n) ls = some p) :
    (∀ job ∈ p.pushed, p.InOnePlace job) ∧
      p.pushed = p.taken ++ p.jobQueue ∧
      (∀ job, p.evaluated.count job ≤ 1) ∧
      (∀ l p', p.step l = some p' → ∀ (job : JobRef) (j : Job), p.heap[job]? = some j →
        j.done = true → p'.heap[job]? = some j ∨
          ∃ c choice, l = .caller c choice ∧ p.ConsumedBy p' c job j) ∧
      (p.ids.Nodup → ∀ job ∈ p.pushed, ∀ j : Job, p.heap[job]? = some j → j.done = false →
        p.jobs j.id = some job) := by
  have hc := conserved_of_run hrun
  refine ⟨fun job hjob => hc.inOnePlace hjob, hc.order, hc.evaluated_count_le,
    fun l p' hs job j hj hd => hc.published_frame hs hj hd, ?_⟩
  intro hids job hjob j hj hnot
  rcases (ticketed_of_run hrun).reachable hids job j hj hnot with ⟨c, hins⟩ | hin
  · have henq : (p.callers c).enqueues = some job := by
      cases hcall : p.callers c <;> simp_all [CallerPc.inserts, CallerPc.enqueues]
    exact absurd hjob (hc.enqueuing c job henq).2
  · exact hin

def addRequest (a b : Int32) : SubmitRequest :=
  { mode := .nonblocking, payload := some (.math { a := a, b := b }) }

/-- One thread submits an addition, and the only worker has taken it. -/
def takenSchedule : List Label :=
  [.run 0 (addRequest 2 3), .caller 0 { reading := 5 }, .caller 0 {}, .caller 0 {},
    .caller 0 {}, .caller 0 {}, .caller 0 {}, .worker 0, .worker 0, .worker 0, .worker 0]

theorem job_conservation_taken :
    ∃ p, run step (start 1) takenSchedule = some p ∧ p.pushed = [0] ∧ p.InOnePlace 0 ∧
      p.jobs (ticketId 5 0) = some 0 := by
  obtain ⟨p, hp, htest⟩ := exists_of_run_any step (start 1) takenSchedule
    (fun p => p.pushed = [0] ∧ p.ids = [ticketId 5 0] ∧
      p.heap = [{ id := ticketId 5 0, req := addRequest 2 3 }]) (by decide)
  simp only [decide_eq_true_eq] at htest
  obtain ⟨hpushed, hids, hheap⟩ := htest
  obtain ⟨hplace, -, -, -, hreach⟩ := job_conservation 1 takenSchedule p hp
  refine ⟨p, hp, hpushed, hplace 0 (by simp [hpushed]), ?_⟩
  exact hreach (by simp [hids]) 0 (by simp [hpushed]) _ (by rw [hheap]; rfl) rfl

end Pool

end InterProcess
