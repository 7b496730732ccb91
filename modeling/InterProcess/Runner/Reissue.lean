import InterProcess.Runner.Clock

/-!
# Reissued tickets

The id of an enqueue keeps forty-eight bits of the clock reading and sixteen bits
of the counter, and a job stays in `jobs` until its result is fetched, however
long that takes. So the id that `enqueue` computes is that of an outstanding job
exactly when the two enqueues agree in the bits that are kept. As long as that
does not happen, no insertion into `jobs` overwrites an entry.
-/

namespace InterProcess

open Transition

namespace Pool

/-- The next step of thread `c` is that of `enqueue` which computes the id. -/
def Enqueuing (p : Pool) (c : ℕ) : Prop :=
  ∃ request, p.callers c = .run request ∧ request.mode = .nonblocking ∧
    request.payload ≠ none

/-- The result of `job` can still be asked for: its ticket is in `jobs`, or a
thread is about to insert it. -/
def Outstanding (p : Pool) (job : JobRef) : Prop :=
  (∃ t, p.jobs t = some job) ∨ ∃ c t, (p.callers c).inserts = some (t, job)

/-- An enqueue made now with this reading agrees with the one that made `job` in
the kept bits of the reading and of the counter. -/
def Meets (p : Pool) (reading : UInt64) (job : ℕ) : Prop :=
  (∃ ts, p.readings[job]? = some ts ∧ ts.toNat % 2 ^ 48 = reading.toNat % 2 ^ 48) ∧
    job % 2 ^ 16 = p.readings.length % 2 ^ 16

/-- If the step computes an id, the enqueue meets no outstanding job. -/
def Apart (p : Pool) (l : Label) : Prop :=
  ∀ c choice, l = .caller c choice → p.Enqueuing c →
    ∀ job, p.Outstanding job → ¬ p.Meets choice.reading job

/-- If the step computes an id, `jobs` has no entry for it; if it inserts into
`jobs`, it overwrites nothing. -/
def Fresh (p : Pool) (l : Label) : Prop :=
  ∀ c choice, l = .caller c choice →
    (p.Enqueuing c → p.jobs (ticketId choice.reading p.seq) = none) ∧
      ∀ request id job, p.callers c = .insert request id job → p.jobs id = none

/-- The ids that are about to be inserted are not in `jobs`, and no two threads
insert the same one. -/
structure InsertsFresh (p : Pool) : Prop where
  absent : ∀ c t job, (p.callers c).inserts = some (t, job) → p.jobs t = none
  apart : ∀ c d t job job', (p.callers c).inserts = some (t, job) →
    (p.callers d).inserts = some (t, job') → c = d

theorem insertsFresh_start (n : ℕ) : (start n).InsertsFresh where
  absent c t job h := by simp [start, CallerPc.inserts] at h
  apart c d t job job' h := by simp [start, CallerPc.inserts] at h

theorem InsertsFresh.mono {p p' : Pool} (h : p.InsertsFresh)
    (hjobs : ∀ t, p.jobs t = none → p'.jobs t = none)
    (hinserts : ∀ c t job, (p'.callers c).inserts = some (t, job) →
      (p.callers c).inserts = some (t, job)) : p'.InsertsFresh where
  absent c t job hc := hjobs t (h.absent c t job (hinserts c t job hc))
  apart c d t job job' hc hd :=
    h.apart c d t job job' (hinserts c t job hc) (hinserts d t job' hd)

theorem InsertsFresh.setCaller {p p' : Pool} (h : p.InsertsFresh) {c : ℕ} (pc : CallerPc)
    (hpc : pc.inserts = none) (hjobs : ∀ t, p.jobs t = none → p'.jobs t = none)
    (hcallers : p'.callers = Function.update p.callers c pc) : p'.InsertsFresh := by
  refine h.mono hjobs ?_
  intro d t job hd
  rw [hcallers, Function.update_apply] at hd
  split at hd
  · simp [hpc] at hd
  · exact hd

theorem Clocked.ticketId_eq_iff {p : Pool} (h : p.Clocked) {job : JobRef} {t : UInt64}
    (hjob : p.HasId job t) (reading : UInt64) :
    ticketId reading p.seq = t ↔ p.Meets reading job := by
  obtain ⟨ts, hts, rfl⟩ := h.hasId_iff.mp hjob
  rw [h.seq, ← ticketAt, ticketAt_eq_iff]
  unfold Meets
  constructor
  · rintro ⟨hreading, hseq⟩
    exact ⟨⟨ts, hts, hreading.symm⟩, hseq.symm⟩
  · rintro ⟨⟨ts', hts', hreading⟩, hseq⟩
    obtain rfl : ts = ts' := Option.some.inj (hts.symm.trans hts')
    exact ⟨hreading.symm, hseq.symm⟩

theorem Ticketed.outstanding_hasId {p : Pool} (h : p.Ticketed) {job : JobRef}
    (hjob : p.Outstanding job) : ∃ t, p.HasId job t := by
  rcases hjob with ⟨t, ht⟩ | ⟨c, t, hc⟩
  · exact ⟨t, h.entry t job ht⟩
  · exact ⟨t, h.inserting c t job hc⟩

/-- An enqueue that meets no outstanding job computes an id that is neither in
`jobs` nor about to be inserted. -/
theorem Clocked.ticketId_fresh {p : Pool} (hclocked : p.Clocked) (hticketed : p.Ticketed)
    {reading : UInt64} (hapart : ∀ job, p.Outstanding job → ¬ p.Meets reading job) :
    p.jobs (ticketId reading p.seq) = none ∧
      ∀ c t job, (p.callers c).inserts = some (t, job) → ticketId reading p.seq ≠ t := by
  constructor
  · rw [Option.eq_none_iff_forall_ne_some]
    intro job hjob
    exact hapart job (Or.inl ⟨_, hjob⟩)
      ((hclocked.ticketId_eq_iff (hticketed.entry _ _ hjob) reading).mp rfl)
  · intro c t job hc heq
    exact hapart job (Or.inr ⟨c, t, hc⟩)
      ((hclocked.ticketId_eq_iff (hticketed.inserting c t job hc) reading).mp heq)

theorem insertsFresh_enqueue {p : Pool} {c : ℕ} (h : p.InsertsFresh) {request : SubmitRequest}
    {id reading : UInt64} (habsent : p.jobs id = none)
    (hnone : ∀ d t job, (p.callers d).inserts = some (t, job) → id ≠ t) :
    (((p.allocate request id).setCaller c (.insert request id p.heap.length)).emit
      (.enqueued reading)).InsertsFresh := by
  set p' := ((p.allocate request id).setCaller c (.insert request id p.heap.length)).emit
    (.enqueued reading) with hp'
  have hcases : ∀ d t job, (p'.callers d).inserts = some (t, job) →
      (d = c ∧ t = id) ∨ (p.callers d).inserts = some (t, job) := by
    intro d t job hd
    by_cases hdc : d = c
    · refine Or.inl ⟨hdc, ?_⟩
      have hmine : p'.callers d = .insert request id p.heap.length := by simp [hp', hdc]
      simp only [hmine, CallerPc.inserts, Option.some.injEq, Prod.mk.injEq] at hd
      exact hd.1.symm
    · exact Or.inr (by simpa [hp', hdc] using hd)
  constructor
  · intro d t job hd
    rcases hcases d t job hd with ⟨-, rfl⟩ | hold
    · exact habsent
    · exact h.absent d t job hold
  · intro d e t job job' hd he
    rcases hcases d t job hd with ⟨rfl, rfl⟩ | hold
    · rcases hcases e t job' he with ⟨rfl, -⟩ | hold'
      · rfl
      · exact absurd rfl (hnone e t job' hold')
    · rcases hcases e t job' he with ⟨rfl, rfl⟩ | hold'
      · exact absurd rfl (hnone d t job hold)
      · exact h.apart d e t job job' hold hold'

theorem insertsFresh_insert {p : Pool} {c : ℕ} (h : p.InsertsFresh) {request : SubmitRequest}
    {id : UInt64} {job : JobRef} (hpc : p.callers c = .insert request id job) :
    (Pool.setCaller { p with jobs := p.jobs.insert id job } c
      (.lockQueue request id job)).InsertsFresh := by
  have hother : ∀ d t job', ((Pool.setCaller { p with jobs := p.jobs.insert id job } c
      (.lockQueue request id job)).callers d).inserts = some (t, job') →
      d ≠ c ∧ (p.callers d).inserts = some (t, job') := by
    intro d t job' hd
    by_cases hdc : d = c
    · simp [hdc, CallerPc.inserts] at hd
    · exact ⟨hdc, by simpa [hdc] using hd⟩
  constructor
  · intro d t job' hd
    obtain ⟨hdc, hold⟩ := hother d t job' hd
    have hne : t ≠ id := by
      rintro rfl
      exact hdc (h.apart d c t job' job hold (by rw [hpc]; rfl))
    exact (Table.insert_of_ne p.jobs hne job).trans (h.absent d t job' hold)
  · intro d e t job' job'' hd he
    exact h.apart d e t job' job'' (hother d t job' hd).2 (hother e t job'' he).2

theorem insertsFresh_step {p p' : Pool} {l : Label} (h : p.InsertsFresh) (hclocked : p.Clocked)
    (hticketed : p.Ticketed) (hapart : p.Apart l) (hs : p.step l = some p') :
    p'.InsertsFresh := by
  obtain ⟨-, hs⟩ := step_cases hs
  cases hs with
  | run | get | deinit => exact h.setCaller _ rfl (fun _ ht => ht) rfl
  | caller c choice hc =>
      cases hc with
      | enqueue request hpc hmode hpayload =>
          obtain ⟨habsent, hnone⟩ := hclocked.ticketId_fresh hticketed
            (hapart c choice rfl ⟨request, hpc, hmode, hpayload⟩)
          exact insertsFresh_enqueue h habsent hnone
      | insert request id job hpc => exact insertsFresh_insert h hpc
      | erase request response hpc =>
          refine h.setCaller (.got request response) rfl (fun t ht => ?_) rfl
          change p.jobs.erase request.reqId t = none
          rw [Table.erase_apply, ht, ite_self]
      | trap => exact h.mono (fun _ ht => ht) fun _ _ _ hd => hd
      | stopTest =>
          refine h.setCaller _ ?_ (fun _ ht => ht) rfl
          split <;> rfl
      | _ => exact h.setCaller _ rfl (fun _ ht => ht) rfl
  | worker i hw =>
      refine h.mono (fun t ht => ?_) (fun d t job hd => ?_)
      · cases hw <;> exact ht
      · cases hw with
        | notify job' => rwa [← inserts_notified job']
        | _ => exact hd

/-- In a run that ends with distinct ids no enqueue met an outstanding job. -/
theorem guarded_apart {n : ℕ} {ls : List Label} {p : Pool}
    (hrun : run step (start n) ls = some p) (hids : p.ids.Nodup) :
    Guarded step Apart (start n) ls := by
  refine (guarded_of_run (P := fun p => p.Clocked ∧ p.Ticketed) (Q := fun p => p.ids.Nodup)
    ?_ ?_ ?_ ⟨clocked_start n, ticketed_start n⟩ hrun hids).1
  · rintro s l t ⟨hclocked, hticketed⟩ hs
    exact ⟨clocked_step s l t hclocked hs, ticketed_step s l t hticketed hs⟩
  · intro s l t _ hs hnodup
    exact hnodup.sublist (ids_step hs).sublist
  · rintro s l t ⟨hclocked, hticketed⟩ hs hnodup c choice rfl ⟨request, hpc, hmode, hpayload⟩
      job hjob hmeets
    have hnew : t.ids = s.ids ++ [ticketId choice.reading s.seq] := by
      obtain ⟨-, hstep⟩ := step_cases hs
      cases hstep with
      | caller _ _ hc => cases hc <;> simp_all [ids]
    obtain ⟨t', ht'⟩ := hticketed.outstanding_hasId hjob
    have hmem : t' ∈ s.ids := List.mem_of_getElem? (hasId_iff.mp ht')
    rw [hnew, List.nodup_append] at hnodup
    exact hnodup.2.2 t' hmem _ (List.mem_singleton_self _)
      ((hclocked.ticketId_eq_iff ht' _).mpr hmeets).symm

/-- In a run whose enqueues meet no outstanding job, the computed ids are not in
`jobs` and no insertion overwrites an entry. Outside of insertions an enqueue
computes an id that is not in `jobs` exactly when it meets no outstanding job. -/
theorem no_reissue_iff (n : ℕ) (ls : List Label) (p : Pool)
    (hrun : run step (start n) ls = some p) :
    (Guarded step Apart (start n) ls → Guarded step Fresh (start n) ls) ∧
      ((∀ c, (p.callers c).inserts = none) → ∀ reading,
        p.jobs (ticketId reading p.seq) = none ↔
          ∀ job, p.Outstanding job → ¬ p.Meets reading job) := by
  constructor
  · refine Guarded.imp_of_invariant (P := fun p => p.InsertsFresh ∧ p.Clocked ∧ p.Ticketed)
      ?_ ?_ ⟨insertsFresh_start n, clocked_start n, ticketed_start n⟩
    · rintro s l t ⟨hfresh, hclocked, hticketed⟩ hapart hs
      exact ⟨insertsFresh_step hfresh hclocked hticketed hapart hs,
        clocked_step s l t hclocked hs, ticketed_step s l t hticketed hs⟩
    · rintro s l ⟨hfresh, hclocked, hticketed⟩ hapart c choice rfl
      refine ⟨fun henq => (hclocked.ticketId_fresh hticketed (hapart c choice rfl henq)).1, ?_⟩
      intro request id job hpc
      exact hfresh.absent c id job (by rw [hpc]; rfl)
  · intro hnone reading
    have hclocked := clocked_of_run hrun
    have hticketed := ticketed_of_run hrun
    constructor
    · intro habsent job hjob hmeets
      rcases hjob with ⟨t, ht⟩ | ⟨c, t, hc⟩
      · rw [(hclocked.ticketId_eq_iff (hticketed.entry t job ht) reading).mpr hmeets, ht]
          at habsent
        cases habsent
      · simp [hnone c] at hc
    · intro hapart
      exact (hclocked.ticketId_fresh hticketed hapart).1

def firstSchedule : List Label :=
  [.run 0 (addRequest 2 3), .caller 0 { reading := 5 }, .caller 0 {}]

theorem guarded_firstSchedule : Guarded step Apart (start 1) firstSchedule := by
  refine ⟨?_, fun p hp => ⟨?_, fun q hq => ⟨?_, fun _ _ => trivial⟩⟩⟩
  · rintro c choice ⟨⟩
  · -- no job was made yet
    obtain rfl : (start 1).setCaller 0 (.run (addRequest 2 3)) = p := Option.some.inj hp
    rintro c choice - - job (⟨t, ht⟩ | ⟨d, t, hd⟩)
    · simp [start] at ht
    · by_cases hzero : d = 0 <;> simp [hzero, start, CallerPc.inserts] at hd
  · rintro c choice ⟨⟩ ⟨request, hpc, -⟩
    obtain rfl := Option.some.inj hp
    obtain rfl := Option.some.inj hq
    simp at hpc

/-- The first submission of a run inserts a new id, and one with a reading that
is a nanosecond later would not meet it. -/
theorem no_reissue_first :
    ∃ p, run step (start 1) firstSchedule = some p ∧
      Guarded step Fresh (start 1) firstSchedule ∧ p.Outstanding 0 ∧ ¬ p.Meets 6 0 := by
  obtain ⟨p, hp, htest⟩ := exists_of_run_any step (start 1) firstSchedule
    (fun p => p.jobs (ticketId 5 0) = some 0 ∧ p.jobs (ticketId 6 p.seq) = none ∧
      p.callers 0 = .lockQueue (addRequest 2 3) (ticketId 5 0) 0) (by decide)
  simp only [decide_eq_true_eq] at htest
  obtain ⟨hentry, habsent, hpc⟩ := htest
  obtain ⟨hfresh, hiff⟩ := no_reissue_iff 1 firstSchedule p hp
  have hout : p.Outstanding 0 := Or.inl ⟨_, hentry⟩
  refine ⟨p, hp, hfresh guarded_firstSchedule, hout, ?_⟩
  refine (hiff (fun c => ?_) 6).mp habsent 0 hout
  obtain rfl := Option.some.inj hp
  by_cases hzero : c = 0
  · rw [hzero, hpc]
    rfl
  · simp [hzero, start, CallerPc.inserts]

/-- One thread submits an addition, and `enqueue` reads the given time. -/
def submitSchedule (reading : UInt64) : List Label :=
  [.run 0 (addRequest 2 3), .caller 0 { reading := reading }, .caller 0 {}, .caller 0 {},
    .caller 0 {}, .caller 0 {}, .caller 0 {}]

/-- No thread is in a call, nothing is locked and no worker is blocked. -/
structure Quiet (p : Pool) : Prop where
  idle : ∀ c, p.callers c = .idle
  free : p.qMtx = none
  alive : p.trapped = false
  awake : .blocked ∉ p.workers

@[simps] def submitted (p : Pool) (reading : UInt64) : Pool :=
  { p with
    heap := p.heap ++ [{ id := ticketId reading p.seq, req := addRequest 2 3 }]
    seq := p.seq + 1
    jobs := p.jobs.insert (ticketId reading p.seq) p.heap.length
    jobQueue := p.jobQueue ++ [p.heap.length]
    log := p.log ++ [.enqueued reading, .pushed p.heap.length, .ran 0 (addRequest 2 3)
      { status := .stNotFinished, ticket := some { reqId := ticketId reading p.seq } }] }

theorem Quiet.submitted {p : Pool} (h : p.Quiet) (reading : UInt64) :
    (p.submitted reading).Quiet :=
  ⟨h.idle, h.free, h.alive, h.awake⟩

theorem Quiet.run_submit {p : Pool} (h : p.Quiet) (reading : UInt64) :
    run step p (submitSchedule reading) = some (p.submitted reading) := by
  have hback : Function.update p.callers 0 .idle = p.callers := by
    rw [← h.idle 0, Function.update_eq_self]
  have hwake : p.workers.mapIdx (fun _ pc => pc) = p.workers := by
    apply List.ext_getElem?
    intro i
    simp
  simp [run, submitSchedule, step, enter, callerStep, h.idle, h.alive, addRequest, SignalOk,
    h.awake, hback, hwake, Pool.submitted, setCaller, emit, signalled, allocate, h.free]

/-- A submission every `2 ^ 32` nanoseconds, about four seconds. -/
def reissueReading (k : ℕ) : UInt64 := UInt64.ofNat (k * 2 ^ 32)

def reissueSchedule (k : ℕ) : List Label :=
  (List.range k).flatMap fun i => submitSchedule (reissueReading i)

theorem run_reissueSchedule (k : ℕ) :
    ∃ p, run step (start 1) (reissueSchedule k) = some p ∧ p.Quiet ∧
      p.readings = (List.range k).map reissueReading ∧
      (0 < k → k ≤ 2 ^ 16 → p.jobs (ticketId 0 0) = some 0) := by
  induction k with
  | zero =>
      refine ⟨start 1, rfl, ⟨fun _ => rfl, rfl, rfl, by decide⟩, rfl, ?_⟩
      simp
  | succ k ih =>
      obtain ⟨p, hp, hquiet, hreadings, hfirst⟩ := ih
      have hrun : run step (start 1) (reissueSchedule (k + 1)) =
          some (p.submitted (reissueReading k)) := by
        rw [reissueSchedule, List.range_succ, List.flatMap_append, run_append]
        simp only [List.flatMap_singleton]
        rw [← reissueSchedule, hp, Option.bind_some, hquiet.run_submit]
      have hclocked := clocked_of_run hp
      refine ⟨_, hrun, hquiet.submitted _, ?_, ?_⟩
      · rw [List.range_succ, List.map_append, ← hreadings]
        simp [readings, Event.enqueued?]
      · intro _ hk
        rw [submitted_jobs, hclocked.seq, ← ticketAt, ← hclocked.length, hreadings, Table.insert_apply]
        simp only [List.length_map, List.length_range]
        rcases Nat.eq_zero_or_pos k with rfl | hpos
        · rfl
        · have hne : ticketId 0 0 ≠ ticketAt (reissueReading k) k := by
            change ticketAt 0 0 ≠ _
            rw [Ne, ticketAt_eq_iff]
            omega
          rw [if_neg hne]
          exact hfirst hpos (by omega)

theorem reissueReading_mono {i j : ℕ} (hij : i ≤ j) (hj : j ≤ 2 ^ 16) :
    reissueReading i ≤ reissueReading j := by
  rw [UInt64.le_iff_toNat_le, reissueReading, reissueReading, UInt64.toNat_ofNat',
    UInt64.toNat_ofNat']
  omega

/-- After `2 ^ 16` submissions in `2 ^ 48` nanoseconds the next enqueue computes
the id of the first job, which nobody has fetched, and its insertion makes that
job unreachable. -/
theorem reissue_overwrites :
    ∃ p p', run step (start 1) (reissueSchedule (2 ^ 16)) = some p ∧
      (p.readings ++ [reissueReading (2 ^ 16)]).Pairwise (· ≤ ·) ∧
      p.jobs (ticketId (reissueReading (2 ^ 16)) p.seq) = some 0 ∧
      run step p (submitSchedule (reissueReading (2 ^ 16))) = some p' ∧
      ∀ t, p'.jobs t ≠ some 0 := by
  obtain ⟨p, hp, hquiet, hreadings, hfirst⟩ := run_reissueSchedule (2 ^ 16)
  have hentry := hfirst (by decide) (Nat.le_refl _)
  have hclocked := clocked_of_run hp
  have hlength : p.readings.length = 2 ^ 16 := by rw [hreadings, List.length_map, List.length_range]
  have hid : ticketId (reissueReading (2 ^ 16)) p.seq = ticketId 0 0 := by
    rw [ticketId_eq_iff, hclocked.seq, hlength]
    decide
  have hsubmit := hquiet.run_submit (reissueReading (2 ^ 16))
  refine ⟨p, _, hp, ?_, hid ▸ hentry, hsubmit, ?_⟩
  · rw [hreadings, ← List.map_singleton, ← List.map_append, ← List.range_succ, List.pairwise_map]
    refine List.pairwise_lt_range.imp_of_mem ?_
    intro i j _ hj hij
    exact reissueReading_mono hij.le (Nat.lt_succ_iff.mp (List.mem_range.mp hj))
  · intro t ht
    rw [submitted_jobs, Table.insert_apply] at ht
    split at ht
    · rw [← hclocked.length, hlength] at ht
      simp at ht
    · next hne =>
        have hzero : p.HasId 0 t := (ticketed_of_run hp).entry t 0 ht
        have hzero' : p.HasId 0 (ticketId 0 0) := (ticketed_of_run hp).entry _ 0 hentry
        exact hne ((hzero.id_unique hzero').trans hid.symm)

end Pool

end InterProcess
