import InterProcess.Runner.Lookup

/-!
# Ids and clock readings

The id of the `i`-th job is made of the `i`-th reading of the steady clock and
of `i` itself, because the counter starts at zero and `enqueue` takes one value
and one reading for each job. So the ids of a run are distinct when its readings
form a `SteadyClock`.
-/

namespace InterProcess

open Transition

def Event.enqueued? : Event → Option UInt64
  | .enqueued reading => some reading
  | _ => none

namespace Pool

/-- The readings of the steady clock that `enqueue` took, in order. -/
def readings (p : Pool) : List UInt64 := p.log.filterMap Event.enqueued?

/-- Ids and counter are determined by the readings. -/
structure Clocked (p : Pool) : Prop where
  ids : p.ids = p.readings.mapIdx fun i ts => ticketAt ts i
  seq : p.seq = UInt64.ofNat p.readings.length

theorem clocked_start (n : ℕ) : (start n).Clocked := ⟨rfl, rfl⟩

theorem Clocked.length {p : Pool} (h : p.Clocked) : p.readings.length = p.heap.length := by
  have := congrArg List.length h.ids
  simpa [Pool.ids] using this.symm

theorem readings_emit_of_none {p : Pool} {e : Event} (h : e.enqueued? = none) :
    (p.emit e).readings = p.readings := by
  simp [readings, h]

theorem clocked_enqueue {p : Pool} (h : p.Clocked) (c : ℕ) (request : SubmitRequest)
    (reading : UInt64) :
    (((p.allocate request (ticketId reading p.seq)).setCaller c
      (.insert request (ticketId reading p.seq) p.heap.length)).emit
        (.enqueued reading)).Clocked := by
  set p' := ((p.allocate request (ticketId reading p.seq)).setCaller c
    (.insert request (ticketId reading p.seq) p.heap.length)).emit (.enqueued reading) with hp'
  have hreadings : p'.readings = p.readings ++ [reading] := by
    simp [hp', readings, Event.enqueued?]
  constructor
  · have hids : p'.ids = p.ids ++ [ticketId reading p.seq] := by simp [hp', Pool.ids]
    rw [hids, hreadings, List.mapIdx_concat, ← h.ids, h.seq]
    rfl
  · have hseq : p'.seq = p.seq + 1 := by simp [hp']
    rw [hseq, hreadings, h.seq, List.length_append, List.length_singleton, UInt64.ofNat_add]
    rfl

theorem clocked_step (p : Pool) (l : Label) (p' : Pool) (h : p.Clocked)
    (hs : p.step l = some p') : p'.Clocked := by
  obtain ⟨-, hs⟩ := step_cases hs
  have hsame : ∀ {q : Pool}, q.ids = p.ids → q.readings = p.readings → q.seq = p.seq →
      q.Clocked := fun hids hreadings hseq =>
    ⟨by rw [hids, hreadings, h.ids], by rw [hseq, hreadings, h.seq]⟩
  cases hs with
  | run | get | deinit => exact hsame rfl rfl rfl
  | caller c choice hc =>
      cases hc with
      | enqueue request => exact clocked_enqueue h c request choice.reading
      | consume request job =>
          exact hsame (map_id_modify _ _ fun _ => rfl) rfl rfl
      | push | ran | got => exact hsame rfl (readings_emit_of_none rfl) rfl
      | _ => exact hsame rfl rfl rfl
  | worker i hw =>
      cases hw with
      | publish job =>
          exact hsame (map_id_modify _ _ fun _ => rfl) (readings_emit_of_none rfl) rfl
      | take | evaluate => exact hsame rfl (readings_emit_of_none rfl) rfl
      | _ => exact hsame rfl rfl rfl

theorem clocked_of_run {n : ℕ} {ls : List Label} {p : Pool}
    (h : run step (start n) ls = some p) : p.Clocked :=
  run_invariant clocked_step (clocked_start n) h

theorem Clocked.hasId_iff {p : Pool} (h : p.Clocked) {job : ℕ} {t : UInt64} :
    p.HasId job t ↔ ∃ ts, p.readings[job]? = some ts ∧ ticketAt ts job = t := by
  rw [Pool.hasId_iff, h.ids, List.getElem?_mapIdx, Option.map_eq_some_iff]

/-- Under a steady clock the ids of the run are distinct. -/
theorem Clocked.ids_nodup {p : Pool} (h : p.Clocked) (hclock : SteadyClock p.readings) :
    p.ids.Nodup := by
  rw [h.ids, List.nodup_iff_injective_getElem]
  intro i j hij
  have hi := i.isLt
  have hj := j.isLt
  simp only [List.length_mapIdx] at hi hj
  simp only [List.getElem_mapIdx] at hij
  rcases Nat.lt_trichotomy i.val j.val with hlt | heq | hgt
  · exact absurd hij (hclock.ticketAt_ne hlt (List.getElem?_eq_getElem hi)
      (List.getElem?_eq_getElem hj))
  · exact Fin.ext heq
  · exact absurd hij.symm (hclock.ticketAt_ne hgt (List.getElem?_eq_getElem hj)
      (List.getElem?_eq_getElem hi))

end Pool

end InterProcess
