import InterProcess.Library.Run
import Mathlib.Algebra.GroupWithZero.Nat
import Mathlib.Algebra.Order.BigOperators.Group.List

/-!
# Runs that come to an end

`Descends` says that the allowed steps lower a measure. Then no run of them is longer than
the measure of its first state, and every run can be continued to a state that is
`Settled`: no allowed step is enabled there. What holds of all settled states is what all
runs come to that go on as long as they can.

For a list of threads the measure is the sum of theirs, and `sum_map_set_add` follows it
through the step of one thread.
-/

namespace Transition

variable {σ ℓ : Type*} {step : σ → ℓ → Option σ} {ok ok' : σ → ℓ → Prop} {P : σ → Prop}
  {μ : σ → ℕ}

/-- No allowed step is enabled. -/
def Settled (step : σ → ℓ → Option σ) (ok : σ → ℓ → Prop) (s : σ) : Prop :=
  ∀ l, ok s l → step s l = none

/-- The allowed steps keep `P`, and each of them lowers `μ`. -/
structure Descends (step : σ → ℓ → Option σ) (ok : σ → ℓ → Prop) (P : σ → Prop) (μ : σ → ℕ) :
    Prop where
  keeps : ∀ s l t, P s → ok s l → step s l = some t → P t
  lowers : ∀ s l t, P s → ok s l → step s l = some t → μ t < μ s

theorem Descends.mono (h : Descends step ok P μ) (himp : ∀ s l, ok' s l → ok s l) :
    Descends step ok' P μ where
  keeps s l t hs hl := h.keeps s l t hs (himp s l hl)
  lowers s l t hs hl := h.lowers s l t hs (himp s l hl)

/-- A run takes no more steps than the measure has gone down. -/
theorem Descends.length_add_le (h : Descends step ok P μ) {s t : σ} {ls : List ℓ} (hs : P s)
    (hok : Guarded step ok s ls) (hrun : run step s ls = some t) : ls.length + μ t ≤ μ s := by
  induction ls generalizing s with
  | nil =>
      obtain rfl := Option.some.inj hrun
      exact (Nat.zero_add _).le
  | cons l ls ih =>
      obtain ⟨u, hu, hrest⟩ := run_cons_eq_some.mp hrun
      have hlower := h.lowers s l u hs hok.1 hu
      have hle := ih (h.keeps s l u hs hok.1 hu) (hok.2 u hu) hrest
      rw [List.length_cons]
      omega

/-- A run can be continued until it is settled. -/
theorem Descends.exists_settled (h : Descends step ok P μ) {s : σ} (hs : P s) :
    ∃ ls t, Guarded step ok s ls ∧ run step s ls = some t ∧ Settled step ok t := by
  induction hm : μ s using Nat.strong_induction_on generalizing s with
  | _ m ih =>
      by_cases hsettled : Settled step ok s
      · exact ⟨[], s, trivial, rfl, hsettled⟩
      · simp only [Settled, not_forall] at hsettled
        obtain ⟨l, hl, hne⟩ := hsettled
        obtain ⟨u, hu⟩ := Option.ne_none_iff_exists'.mp hne
        obtain ⟨ls, t, hok, hrun, ht⟩ :=
          ih (μ u) (hm ▸ h.lowers s l u hs hl hu) (h.keeps s l u hs hl hu) rfl
        refine ⟨l :: ls, t, ⟨hl, fun v hv => ?_⟩, run_cons_eq_some.mpr ⟨u, hu, hrun⟩, ht⟩
        obtain rfl := Option.some.inj (hu.symm.trans hv)
        exact hok

/-- An allowed run leads from `s` to `t`. -/
def Reaches (step : σ → ℓ → Option σ) (ok : σ → ℓ → Prop) (s t : σ) : Prop :=
  ∃ ls, Guarded step ok s ls ∧ run step s ls = some t

namespace Reaches

variable {s t u : σ} {l : ℓ}

theorem refl (s : σ) : Reaches step ok s s := ⟨[], trivial, rfl⟩

theorem exists_run (h : Reaches step ok s t) : ∃ ls, run step s ls = some t := by
  obtain ⟨ls, -, hrun⟩ := h
  exact ⟨ls, hrun⟩

theorem head (hl : ok s l) (hstep : step s l = some t) (h : Reaches step ok t u) :
    Reaches step ok s u := by
  obtain ⟨ls, hok, hrun⟩ := h
  refine ⟨l :: ls, ⟨hl, fun v hv => ?_⟩, run_cons_eq_some.mpr ⟨t, hstep, hrun⟩⟩
  obtain rfl := Option.some.inj (hstep.symm.trans hv)
  exact hok

theorem trans (h : Reaches step ok s t) (h' : Reaches step ok t u) : Reaches step ok s u := by
  obtain ⟨ls, hok, hrun⟩ := h
  obtain ⟨ms, hok', hrun'⟩ := h'
  refine ⟨ls ++ ms, guarded_append.mpr ⟨hok, fun v hv => ?_⟩,
    run_append_eq_some.mpr ⟨t, hrun, hrun'⟩⟩
  obtain rfl := Option.some.inj (hrun.symm.trans hv)
  exact hok'

theorem mono (himp : ∀ s l, ok' s l → ok s l) (h : Reaches step ok' s t) : Reaches step ok s t := by
  obtain ⟨ls, hok, hrun⟩ := h
  induction ls generalizing s with
  | nil => exact ⟨[], trivial, hrun⟩
  | cons l ls ih =>
      obtain ⟨v, hv, hrest⟩ := run_cons_eq_some.mp hrun
      exact .head (himp s l hok.1) hv (ih (hok.2 v hv) hrest)

end Reaches

theorem sum_map_set_add {α : Type*} (f : α → ℕ) {l : List α} {i : ℕ} {a : α} (b : α)
    (h : l[i]? = some a) : ((l.set i b).map f).sum + f a = (l.map f).sum + f b := by
  induction l generalizing i with
  | nil => simp at h
  | cons x l ih =>
      cases i with
      | zero =>
          obtain rfl : x = a := by simpa using h
          simp only [List.set_cons_zero, List.map_cons, List.sum_cons]
          omega
      | succ i =>
          have hrest : ((l.set i b).map f).sum + f a = (l.map f).sum + f b := ih (by simpa using h)
          simp only [List.set_cons_succ, List.map_cons, List.sum_cons]
          omega

theorem sum_map_mapIdx_le {α : Type*} {f : α → ℕ} {g : ℕ → α → α} {k : ℕ} {l : List α}
    (h : ∀ i a, f (g i a) ≤ f a + k) :
    ((l.mapIdx g).map f).sum ≤ (l.map f).sum + k * l.length := by
  induction l generalizing g with
  | nil => simp
  | cons a l ih =>
      have hhead := h 0 a
      have htail : ((l.mapIdx fun i => g (i + 1)).map f).sum ≤ (l.map f).sum + k * l.length :=
        ih fun i => h (i + 1)
      simp only [List.mapIdx_cons, List.map_cons, List.sum_cons, List.length_cons, Nat.mul_succ]
      omega

end Transition
