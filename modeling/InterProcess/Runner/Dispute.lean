import InterProcess.Runner.Delivery

/-!
# Calls that come too late

The condition under which every result is delivered once is not stronger than it has to
be. Where all jobs have different ids, a call of `get` that has looked its job up finds
the ticket still in `jobs`, or another call has found the job done; and a ticket that is
about to be erased is that of such a job. So a call that breaks the condition takes a
result that was taken before.
-/

namespace InterProcess

open Transition

namespace Pool

variable {p p' : Pool}

/-- A call that has looked its job up finds the ticket in `jobs` with that job, or the job
is in the list; a ticket that is about to be erased is that of a job in the list. -/
structure Tracked (jobs : List JobRef) (p : Pool) : Prop where
  reading : ∀ c t job, (p.callers c).reads = some (t, job) → p.jobs t = some job ∨ job ∈ jobs
  erasing : ∀ c t, (p.callers c).erases = some t → ∃ job ∈ jobs, p.HasId job t

theorem tracked_start (n : ℕ) : (start n).Tracked [] where
  reading c t job h := by cases h
  erasing c t h := by cases h

theorem Tracked.mono {jobs jobs' : List JobRef} (h : p.Tracked jobs) (hsub : jobs ⊆ jobs') :
    p.Tracked jobs' where
  reading c t job hc := (h.reading c t job hc).imp id fun hin => hsub hin
  erasing c t hc := by
    obtain ⟨job, hin, hid⟩ := h.erasing c t hc
    exact ⟨job, hsub hin, hid⟩

theorem Tracked.move {jobs : List JobRef} (h : p.Tracked jobs) (hext : p.Extends p') {d : ℕ}
    {pc : CallerPc} (hcallers : p'.callers = Function.update p.callers d pc)
    (hjobs : ∀ c t job, (p.callers c).reads = some (t, job) → p.jobs t = some job →
      p'.jobs t = some job ∨ job ∈ jobs)
    (hreads : ∀ t job, pc.reads = some (t, job) → p'.jobs t = some job ∨ job ∈ jobs)
    (herases : ∀ t, pc.erases = some t → ∃ job ∈ jobs, p'.HasId job t) : p'.Tracked jobs where
  reading c t job hc := by
    rw [hcallers, Function.update_apply] at hc
    split at hc
    · exact hreads t job hc
    · exact (h.reading c t job hc).elim (hjobs c t job hc) Or.inr
  erasing c t hc := by
    rw [hcallers, Function.update_apply] at hc
    split at hc
    · exact herases t hc
    · obtain ⟨job, hin, hid⟩ := h.erasing c t hc
      exact ⟨job, hin, hext.hasId hid⟩

theorem tracked_callerStep {jobs : List JobRef} (h : p.Tracked jobs) (hticketed : p.Ticketed)
    (hids : p.ids.Nodup) (hext : p.Extends p') {c : ℕ} {choice : Choice}
    (hc : CallerStep p c choice p')
    (htakes : ∀ take, p.take (.caller c choice) = some take → take.job ∈ jobs) : p'.Tracked jobs := by
  have hsame : ∀ d t job, (p.callers d).reads = some (t, job) → p.jobs t = some job →
      p.jobs t = some job ∨ job ∈ jobs := fun _ _ _ _ hin => Or.inl hin
  cases hc with
  | trap => exact ⟨h.reading, h.erasing⟩
  | findNoWait request hpc job hjob | findWaitUpTo request hpc job hjob =>
      refine h.move hext rfl hsame (fun t k hk => ?_) (by simp [CallerPc.erases])
      obtain ⟨rfl, rfl⟩ : request.reqId = t ∧ job = k := by simpa [CallerPc.reads] using hk
      exact Or.inl hjob
  | block request job hpc =>
      exact h.move hext rfl hsame (fun t k hk => h.reading c t k (by rw [hpc]; exact hk))
        (by simp [CallerPc.erases])
  | wake request job hpc =>
      refine h.move hext rfl hsame (fun t k hk => h.reading c t k ?_) (by simp [CallerPc.erases])
      rcases hpc with hpc | hpc <;> rw [hpc] <;> exact hk
  | consume request job hpc j hj hdone =>
      have hreaches : (p.callers c).reaches = some (request, job) := by
        rcases hpc with hpc | ⟨timeout, hpc⟩ <;> rw [hpc] <;> rfl
      have hin : job ∈ jobs :=
        htakes ⟨c, request, job, j⟩ (take_eq_some.mpr ⟨choice, rfl, hreaches, hj, hdone⟩)
      have hid : p.HasId job request.reqId :=
        hticketed.reading c _ _ (CallerPc.reads_of_reaches hreaches)
      refine h.move hext rfl hsame (by simp [CallerPc.reads]) fun t ht => ?_
      obtain rfl : request.reqId = t := by simpa [CallerPc.erases] using ht
      exact ⟨job, hin, hext.hasId hid⟩
  | insert request id job hpc =>
      refine h.move hext rfl (fun d t k hd hk => ?_) (by simp [CallerPc.reads])
        (by simp [CallerPc.erases])
      -- another entry under this id would be another job with the same id
      have hinserting := hticketed.inserting c id job (by rw [hpc]; rfl)
      simp only [setCaller_jobs, Table.insert_apply]
      split
      · next heq =>
          have hid := hticketed.reading d t k hd
          rw [heq] at hid
          exact Or.inl (congrArg some (hinserting.unique hids hid))
      · exact Or.inl hk
  | erase request response hpc =>
      refine h.move hext rfl (fun d t k hd hk => ?_) (by simp [CallerPc.reads])
        (by simp [CallerPc.erases])
      by_cases heq : t = request.reqId
      · obtain ⟨job, hin, hid⟩ := h.erasing c request.reqId (by rw [hpc]; rfl)
        obtain rfl := (hticketed.reading d t k hd).unique hids (heq ▸ hid)
        exact Or.inr hin
      · exact Or.inl (by simpa [Table.erase_of_ne _ heq] using hk)
  | stopTest =>
      refine h.move hext rfl hsame ?_ ?_
      · split <;> simp [CallerPc.reads]
      · split <;> simp [CallerPc.erases]
  | _ =>
      exact h.move hext rfl hsame (by simp [CallerPc.reads]) (by simp [CallerPc.erases])

theorem tracked_step {jobs : List JobRef} (h : p.Tracked jobs) (hticketed : p.Ticketed)
    (hids : p.ids.Nodup) {l : Label} (hs : p.step l = some p')
    (htakes : ∀ take, p.take l = some take → take.job ∈ jobs) : p'.Tracked jobs := by
  have hext := extends_step hs
  obtain ⟨-, hs⟩ := step_cases hs
  cases hs with
  | run | get | deinit =>
      exact h.move hext rfl (fun _ _ _ _ hin => Or.inl hin) (by simp [CallerPc.reads])
        (by simp [CallerPc.erases])
  | caller c choice hc => exact tracked_callerStep h hticketed hids hext hc htakes
  | worker i hw =>
      have hkept : ∀ c t, (p.callers c).erases = some t → ∃ job ∈ jobs, p'.HasId job t := by
        intro c t hc
        obtain ⟨job, hin, hid⟩ := h.erasing c t hc
        exact ⟨job, hin, hext.hasId hid⟩
      cases hw with
      | notify k =>
          refine ⟨fun c t job hc => h.reading c t job ?_, fun c t hc => hkept c t ?_⟩
          · exact (reads_notified k (p.callers c)).symm.trans hc
          · exact (erases_notified k (p.callers c)).symm.trans hc
      | _ => exact ⟨h.reading, hkept⟩

theorem tracked_of_run {n : ℕ} {ls : List Label} (hrun : run step (start n) ls = some p)
    (hids : p.ids.Nodup) : p.Tracked ((takes (start n) ls).map Take.job) := by
  suffices hgen : p.Ticketed ∧
      (p.ids.Nodup → p.Tracked ((takes (start n) ls).map Take.job)) from hgen.2 hids
  have hguard : Guarded step (fun _ _ => True) (start n) ls :=
    guarded_of_forall fun _ _ _ => trivial
  refine run_history_of_guarded
    (P := fun ls p => p.Ticketed ∧ (p.ids.Nodup → p.Tracked ((takes (start n) ls).map Take.job)))
    ?_ ⟨ticketed_start n, fun _ => tracked_start n⟩ hguard hrun
  rintro ls p l p' hp ⟨hticketed, htracked⟩ - hs
  refine ⟨ticketed_step p l p' hticketed hs, fun hids' => ?_⟩
  have hids : p.ids.Nodup := hids'.sublist (ids_step hs).sublist
  have htakes : takes (start n) (ls ++ [l]) = takes (start n) ls ++ (p.take l).toList :=
    observed_append_singleton hp l
  rw [htakes, List.map_append]
  refine tracked_step ((htracked hids).mono (List.subset_append_left _ _)) hticketed hids hs
    fun take htake => ?_
  simp [htake]

/-- The condition cannot be spared: where all jobs have different ids, a call that breaks
it finds a job done that another call has found done before. -/
theorem not_once_of_disputed (n : ℕ) (ls : List Label) (p p' : Pool) (l : Label)
    (hrun : run step (start n) ls = some p) (hids : p.ids.Nodup) (hbad : ¬ p.Undisputed l) :
    ¬ Once (takes (start n) (ls ++ [l])) p' := by
  have hticketed := ticketed_of_run hrun
  have htracked := tracked_of_run hrun hids
  simp only [Undisputed, not_forall] at hbad
  obtain ⟨take, htake, hbad⟩ := hbad
  obtain ⟨choice, -, hreaches, -, -⟩ := take_eq_some.mp htake
  have hreads : (p.callers take.caller).reads = some (take.request.reqId, take.job) :=
    CallerPc.reads_of_reaches hreaches
  have hbefore : take.job ∈ (takes (start n) ls).map Take.job := by
    rcases htracked.reading _ _ _ hreads with hin | hin
    · obtain ⟨c, hc⟩ : ∃ c, (p.callers c).erases = some take.request.reqId := by
        by_contra hnone
        exact hbad ⟨hin, fun c hc => hnone ⟨c, hc⟩⟩
      obtain ⟨job, hjob, hid⟩ := htracked.erasing c _ hc
      obtain rfl := (hticketed.reading _ _ _ hreads).unique hids hid
      exact hjob
    · exact hin
  have htakes : takes (start n) (ls ++ [l]) = takes (start n) ls ++ [take] := by
    rw [takes, observed_append_singleton hrun l, htake]
    rfl
  intro honce
  have hnodup := honce.once
  rw [htakes, List.map_append, List.nodup_append] at hnodup
  exact hnodup.2.2 take.job hbefore take.job (by simp) rfl

end Pool

end InterProcess
