import InterProcess.Library.Run

/-!
# Runs without their hidden steps

`visible step hidden s ls` is what is left of the labels of a run when the
hidden ones are taken out; whether a label is hidden may depend on the state it
is taken in.

`unwinding` is the proof rule for systems on which hidden steps have no
influence: with a relation between the states of a run and those of the run
without its hidden steps, which a hidden step keeps on the one side and a visible
one on both, the visible labels are a run by themselves. Two runs with the same
visible labels are then related through it, although their hidden steps need not
be at the same places.
-/

namespace Transition

variable {σ ℓ : Type*}

/-- The labels of the run that are not hidden in the state they are taken in. -/
def visible (step : σ → ℓ → Option σ) (hidden : σ → ℓ → Bool) : σ → List ℓ → List ℓ
  | _, [] => []
  | s, l :: ls =>
      match step s l with
      | none => []
      | some t =>
          if hidden s l then visible step hidden t ls else l :: visible step hidden t ls

variable {step : σ → ℓ → Option σ} {hidden : σ → ℓ → Bool} {ok : σ → ℓ → Prop}
  {R : σ → σ → Prop}

@[simp] theorem visible_nil (s : σ) : visible step hidden s [] = [] := rfl

theorem visible_cons_of_hidden {s t : σ} {l : ℓ} (ls : List ℓ) (hstep : step s l = some t)
    (hl : hidden s l = true) :
    visible step hidden s (l :: ls) = visible step hidden t ls := by
  simp [visible, hstep, hl]

theorem visible_cons_of_not_hidden {s t : σ} {l : ℓ} (ls : List ℓ)
    (hstep : step s l = some t) (hl : hidden s l = false) :
    visible step hidden s (l :: ls) = l :: visible step hidden t ls := by
  simp [visible, hstep, hl]

/-- The visible labels are a run, whose end is related to that of the whole run. -/
theorem unwinding
    (hhidden : ∀ s t l s', R s t → ok s l → hidden s l = true → step s l = some s' → R s' t)
    (hvisible : ∀ s t l s', R s t → ok s l → hidden s l = false → step s l = some s' →
      ∃ t', step t l = some t' ∧ R s' t')
    {s s' t : σ} {ls : List ℓ} (hR : R s t) (hok : Guarded step ok s ls)
    (hrun : run step s ls = some s') :
    ∃ t', run step t (visible step hidden s ls) = some t' ∧ R s' t' := by
  induction ls generalizing s t with
  | nil =>
      obtain rfl : s = s' := Option.some.inj hrun
      exact ⟨t, rfl, hR⟩
  | cons l ls ih =>
      obtain ⟨u, hu, hrest⟩ := run_cons_eq_some.mp hrun
      cases hl : hidden s l with
      | true =>
          rw [visible_cons_of_hidden ls hu hl]
          exact ih (hhidden s t l u hR hok.1 hl hu) (hok.2 u hu) hrest
      | false =>
          obtain ⟨v, hv, hR'⟩ := hvisible s t l u hR hok.1 hl hu
          obtain ⟨t', ht', hend⟩ := ih hR' (hok.2 u hu) hrest
          refine ⟨t', ?_, hend⟩
          rw [visible_cons_of_not_hidden ls hu hl]
          exact run_cons_eq_some.mpr ⟨v, hv, ht'⟩

end Transition
