import Mathlib.Order.Bounds.Basic
import Mathlib.Order.Nat

/-!
# Occurrences of a list in a list

The places at which a list occurs in another one, and how the least of them moves when
the list that is searched gets longer at its front.
-/

namespace Occurrence

variable {α : Type*} {needle hay : List α}

/-- `needle` occurs in `hay` after `i` elements. -/
def OccursAt (needle hay : List α) (i : ℕ) : Prop :=
  ∃ before after, hay = before ++ needle ++ after ∧ before.length = i

theorem occursAt_zero : OccursAt needle hay 0 ↔ needle <+: hay := by
  constructor
  · rintro ⟨before, after, rfl, hlength⟩
    obtain rfl := List.length_eq_zero_iff.mp hlength
    exact List.prefix_append needle after
  · rintro ⟨after, rfl⟩
    exact ⟨[], after, rfl, rfl⟩

theorem occursAt_succ {x : α} {i : ℕ} :
    OccursAt needle (x :: hay) (i + 1) ↔ OccursAt needle hay i := by
  constructor
  · rintro ⟨before, after, heq, hlength⟩
    cases before with
    | nil => cases hlength
    | cons y before =>
        obtain ⟨-, rfl⟩ := List.cons.inj heq
        exact ⟨before, after, rfl, Nat.succ.inj hlength⟩
  · rintro ⟨before, after, rfl, rfl⟩
    exact ⟨x :: before, after, rfl, rfl⟩

theorem occursAt_nil {i : ℕ} : OccursAt needle [] i ↔ needle = [] ∧ i = 0 := by
  constructor
  · rintro ⟨before, after, heq, rfl⟩
    obtain ⟨hboth, -⟩ := List.append_eq_nil_iff.mp heq.symm
    obtain ⟨rfl, rfl⟩ := List.append_eq_nil_iff.mp hboth
    exact ⟨rfl, rfl⟩
  · rintro ⟨rfl, rfl⟩
    exact ⟨[], [], rfl, rfl⟩

theorem OccursAt.le {i : ℕ} (h : OccursAt needle hay i) : i ≤ hay.length := by
  obtain ⟨before, after, rfl, rfl⟩ := h
  simp only [List.length_append]
  omega

/-- The first place. -/
def FirstAt (needle hay : List α) (i : ℕ) : Prop := IsLeast {i | OccursAt needle hay i} i

theorem firstAt_of_zero (h : OccursAt needle hay 0) {i : ℕ} : FirstAt needle hay i ↔ i = 0 := by
  constructor
  · intro hfirst
    exact Nat.le_zero.mp (hfirst.2 h)
  · rintro rfl
    exact ⟨h, fun i _ => Nat.zero_le i⟩

theorem firstAt_succ {x : α} (h : ¬ OccursAt needle (x :: hay) 0) {i : ℕ} :
    FirstAt needle (x :: hay) (i + 1) ↔ FirstAt needle hay i := by
  constructor
  · intro hfirst
    refine ⟨occursAt_succ.mp hfirst.1, fun j hj => ?_⟩
    exact Nat.succ_le_succ_iff.mp (hfirst.2 (occursAt_succ.mpr hj))
  · intro hfirst
    refine ⟨occursAt_succ.mpr hfirst.1, fun j hj => ?_⟩
    cases j with
    | zero => exact absurd hj h
    | succ j => exact Nat.succ_le_succ (hfirst.2 (occursAt_succ.mp hj))

end Occurrence
