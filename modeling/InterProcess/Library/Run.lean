import Mathlib.Logic.Basic
import Mathlib.Data.List.Basic

/-!
# Runs of a labelled step function

A transition system is given here by its step function alone: `step s l` is the
state reached from `s` under the label `l`, and `none` when `l` is not enabled
in `s`. Every scheduling choice is part of the label, so a run is a list of
labels and `run step s ls` is the state it ends in.

`Guarded step ok s ls` says that every step of the run satisfies the condition
`ok` in the state it is taken from. The two induction rules are
`run_invariant`, for a property that every step preserves, and
`run_invariant_of_guarded`, for one that only the guarded steps preserve.
`observed step obs s ls` lists what is seen of the steps of a run.
-/

namespace Transition

variable {σ τ ℓ : Type*}

/-- The state reached by taking the labels in order. -/
def run (step : σ → ℓ → Option σ) : σ → List ℓ → Option σ
  | s, [] => some s
  | s, l :: ls => (step s l).bind fun t => run step t ls

@[simp] theorem run_nil (step : σ → ℓ → Option σ) (s : σ) :
    run step s [] = some s := rfl

theorem run_cons (step : σ → ℓ → Option σ) (s : σ) (l : ℓ) (ls : List ℓ) :
    run step s (l :: ls) = (step s l).bind fun t => run step t ls := rfl

theorem run_cons_eq_some {step : σ → ℓ → Option σ} {s u : σ} {l : ℓ} {ls : List ℓ} :
    run step s (l :: ls) = some u ↔
      ∃ t, step s l = some t ∧ run step t ls = some u := by
  rw [run_cons, Option.bind_eq_some_iff]

@[simp] theorem run_singleton (step : σ → ℓ → Option σ) (s : σ) (l : ℓ) :
    run step s [l] = step s l := by
  cases h : step s l <;> simp [run, h]

theorem run_append (step : σ → ℓ → Option σ) (s : σ) (ls ms : List ℓ) :
    run step s (ls ++ ms) = (run step s ls).bind fun t => run step t ms := by
  induction ls generalizing s with
  | nil => rfl
  | cons l ls ih =>
      rw [List.cons_append, run_cons, run_cons, Option.bind_assoc]
      congr 1
      funext t
      exact ih t

theorem run_append_eq_some {step : σ → ℓ → Option σ} {s u : σ} {ls ms : List ℓ} :
    run step s (ls ++ ms) = some u ↔
      ∃ t, run step s ls = some t ∧ run step t ms = some u := by
  rw [run_append, Option.bind_eq_some_iff]

/-- A run that can be evaluated gives its end together with what is tested there. -/
theorem exists_of_run_any (step : σ → ℓ → Option σ) (s : σ) (ls : List ℓ) (p : σ → Bool)
    (h : (run step s ls).any p = true) : ∃ t, run step s ls = some t ∧ p t = true := by
  cases ht : run step s ls with
  | none => simp [ht] at h
  | some t => exact ⟨t, rfl, by simpa [ht] using h⟩

/-- A property that every step preserves holds at the end of every run. -/
theorem run_invariant {step : σ → ℓ → Option σ} {P : σ → Prop}
    (hstep : ∀ s l t, P s → step s l = some t → P t)
    {s t : σ} {ls : List ℓ} (hs : P s) (h : run step s ls = some t) : P t := by
  induction ls generalizing s with
  | nil => exact Option.some.inj h ▸ hs
  | cons l ls ih =>
      obtain ⟨u, hu, hut⟩ := run_cons_eq_some.mp h
      exact ih (hstep s l u hs hu) hut

/-- Every step of the run meets `ok` in the state it is taken from. -/
def Guarded (step : σ → ℓ → Option σ) (ok : σ → ℓ → Prop) : σ → List ℓ → Prop
  | _, [] => True
  | s, l :: ls => ok s l ∧ ∀ t, step s l = some t → Guarded step ok t ls

@[simp] theorem guarded_nil (step : σ → ℓ → Option σ) (ok : σ → ℓ → Prop) (s : σ) :
    Guarded step ok s [] := trivial

theorem guarded_cons {step : σ → ℓ → Option σ} {ok : σ → ℓ → Prop} {s : σ} {l : ℓ}
    {ls : List ℓ} :
    Guarded step ok s (l :: ls) ↔
      ok s l ∧ ∀ t, step s l = some t → Guarded step ok t ls :=
  Iff.rfl

instance decidableGuarded (step : σ → ℓ → Option σ) (ok : σ → ℓ → Prop)
    [∀ s l, Decidable (ok s l)] : ∀ s ls, Decidable (Guarded step ok s ls)
  | _, [] => .isTrue trivial
  | s, l :: ls =>
      haveI := fun t => decidableGuarded step ok t ls
      inferInstanceAs (Decidable (ok s l ∧ ∀ t ∈ step s l, Guarded step ok t ls))

theorem guarded_append {step : σ → ℓ → Option σ} {ok : σ → ℓ → Prop} {s : σ}
    {ls ms : List ℓ} :
    Guarded step ok s (ls ++ ms) ↔
      Guarded step ok s ls ∧ ∀ t, run step s ls = some t → Guarded step ok t ms := by
  induction ls generalizing s with
  | nil => simp
  | cons l ls ih =>
      simp only [List.cons_append, guarded_cons, run_cons_eq_some, ih]
      constructor
      · rintro ⟨hok, hrest⟩
        refine ⟨⟨hok, fun t ht => (hrest t ht).1⟩, ?_⟩
        rintro u ⟨t, ht, hu⟩
        exact (hrest t ht).2 u hu
      · rintro ⟨⟨hok, hhead⟩, htail⟩
        exact ⟨hok, fun t ht => ⟨hhead t ht, fun u hu => htail u ⟨t, ht, hu⟩⟩⟩

theorem guarded_of_forall {step : σ → ℓ → Option σ} {ok : σ → ℓ → Prop} {s : σ}
    {ls : List ℓ} (h : ∀ s, ∀ l ∈ ls, ok s l) : Guarded step ok s ls := by
  induction ls generalizing s with
  | nil => trivial
  | cons l ls ih =>
      exact ⟨h s l List.mem_cons_self,
        fun t _ => ih fun s m hm => h s m (List.mem_cons_of_mem l hm)⟩

theorem guarded_and {step : σ → ℓ → Option σ} {ok ok' : σ → ℓ → Prop} {s : σ} {ls : List ℓ}
    (h : Guarded step ok s ls) (h' : Guarded step ok' s ls) :
    Guarded step (fun s l => ok s l ∧ ok' s l) s ls := by
  induction ls generalizing s with
  | nil => trivial
  | cons l ls ih => exact ⟨⟨h.1, h'.1⟩, fun t ht => ih (h.2 t ht) (h'.2 t ht)⟩

/-- A property that the guarded steps preserve holds at the end of every
guarded run. -/
theorem run_invariant_of_guarded {step : σ → ℓ → Option σ} {ok : σ → ℓ → Prop}
    {P : σ → Prop}
    (hstep : ∀ s l t, P s → ok s l → step s l = some t → P t)
    {s t : σ} {ls : List ℓ} (hs : P s) (hok : Guarded step ok s ls)
    (h : run step s ls = some t) : P t := by
  induction ls generalizing s with
  | nil => exact Option.some.inj h ▸ hs
  | cons l ls ih =>
      obtain ⟨u, hu, hut⟩ := run_cons_eq_some.mp h
      exact ih (hstep s l u hs hok.1 hu) (hok.2 u hu) hut

/-- The form of the rule for properties that speak about the labels so far. -/
theorem run_history_of_guarded {step : σ → ℓ → Option σ} {ok : σ → ℓ → Prop} {s₀ : σ}
    {P : List ℓ → σ → Prop}
    (hstep : ∀ ls s l t, run step s₀ ls = some s → P ls s → ok s l → step s l = some t →
      P (ls ++ [l]) t)
    {ls : List ℓ} {t : σ} (hs : P [] s₀) (hok : Guarded step ok s₀ ls)
    (h : run step s₀ ls = some t) : P ls t := by
  suffices hgen : ∀ before s, run step s₀ before = some s → P before s →
      Guarded step ok s ls → run step s ls = some t → P (before ++ ls) t from
    hgen [] s₀ rfl hs hok h
  clear hok h
  induction ls with
  | nil =>
      intro before s _ hP _ hrun
      rw [List.append_nil]
      exact Option.some.inj hrun ▸ hP
  | cons l ls ih =>
      intro before s hbefore hP hguard hrun
      obtain ⟨u, hu, hrest⟩ := run_cons_eq_some.mp hrun
      have hbefore' : run step s₀ (before ++ [l]) = some u :=
        run_append_eq_some.mpr ⟨s, hbefore, by rw [run_singleton, hu]⟩
      have := ih (before ++ [l]) u hbefore' (hstep before s l u hbefore hP hguard.1 hu)
        (hguard.2 u hu) hrest
      rwa [List.append_assoc] at this

theorem run_history {step : σ → ℓ → Option σ} {s₀ : σ} {P : List ℓ → σ → Prop}
    (hstep : ∀ ls s l t, run step s₀ ls = some s → P ls s → step s l = some t → P (ls ++ [l]) t)
    {ls : List ℓ} {t : σ} (hs : P [] s₀) (h : run step s₀ ls = some t) : P ls t := by
  have hguard : Guarded step (fun _ _ => True) s₀ ls := guarded_of_forall fun _ _ _ => trivial
  exact run_history_of_guarded (fun ls s l t hrun hP _ => hstep ls s l t hrun hP) hs hguard h

/-- A list that the guarded steps only add to has one value at the end of the run that
extends its value at every point before. -/
theorem exists_growing {α : Type*} {step : σ → ℓ → Option σ} {ok : σ → ℓ → Prop} {s₀ : σ}
    {P : List ℓ → σ → List α → Prop}
    (hstep : ∀ ls s l t xs, run step s₀ ls = some s → P ls s xs → ok s l → step s l = some t →
      ∃ more, P (ls ++ [l]) t (xs ++ more))
    {ls : List ℓ} {t : σ} {xs : List α} (hs : P [] s₀ xs) (hok : Guarded step ok s₀ ls)
    (h : run step s₀ ls = some t) :
    ∃ ys, P ls t ys ∧ ∀ before after s, ls = before ++ after → run step s₀ before = some s →
      ∃ zs, P before s zs ∧ zs <+: ys := by
  refine run_history_of_guarded (P := fun ls t => ∃ ys, P ls t ys ∧ ∀ before after s,
    ls = before ++ after → run step s₀ before = some s → ∃ zs, P before s zs ∧ zs <+: ys)
    ?_ ?_ hok h
  · rintro ls s l t hrun ⟨ys, hys, hall⟩ hl hlast
    obtain ⟨more, hmore⟩ := hstep ls s l t ys hrun hys hl hlast
    refine ⟨ys ++ more, hmore, ?_⟩
    intro before after u hsplit hbefore
    rcases List.eq_nil_or_concat after with rfl | ⟨after, l', rfl⟩
    · rw [List.append_nil] at hsplit
      subst hsplit
      obtain ⟨s', hs', hu⟩ := run_append_eq_some.mp hbefore
      obtain rfl := Option.some.inj (hrun.symm.trans hs')
      rw [run_singleton] at hu
      obtain rfl := Option.some.inj (hlast.symm.trans hu)
      exact ⟨_, hmore, List.prefix_rfl⟩
    · rw [List.concat_eq_append, ← List.append_assoc] at hsplit
      obtain ⟨rfl, -⟩ := List.append_inj' hsplit rfl
      obtain ⟨zs, hzs, hinit⟩ := hall before after u rfl hbefore
      exact ⟨zs, hzs, hinit.trans (List.prefix_append ys more)⟩
  · refine ⟨xs, hs, fun before after s hsplit hbefore => ?_⟩
    obtain ⟨rfl, -⟩ := List.append_eq_nil_iff.mp hsplit.symm
    obtain rfl := Option.some.inj hbefore
    exact ⟨xs, hs, List.prefix_rfl⟩

/-- A guard may be replaced by what it implies under an invariant of the guarded
steps. -/
theorem Guarded.imp_of_invariant {step : σ → ℓ → Option σ} {ok ok' : σ → ℓ → Prop}
    {P : σ → Prop}
    (hstep : ∀ s l t, P s → ok s l → step s l = some t → P t)
    (himp : ∀ s l, P s → ok s l → ok' s l)
    {s : σ} {ls : List ℓ} (hs : P s) (hok : Guarded step ok s ls) :
    Guarded step ok' s ls := by
  induction ls generalizing s with
  | nil => trivial
  | cons l ls ih =>
      refine ⟨himp s l hs hok.1, ?_⟩
      intro t ht
      exact ih (hstep s l t hs hok.1 ht) (hok.2 t ht)

/-- What holds at the end of a run and is inherited by earlier states can be used
for the guard of every step on the way. -/
theorem guarded_of_run {step : σ → ℓ → Option σ} {ok : σ → ℓ → Prop} {P Q : σ → Prop}
    (hstep : ∀ s l t, P s → step s l = some t → P t)
    (hback : ∀ s l t, P s → step s l = some t → Q t → Q s)
    (hok : ∀ s l t, P s → step s l = some t → Q t → ok s l)
    {s u : σ} {ls : List ℓ} (hs : P s) (h : run step s ls = some u) (hu : Q u) :
    Guarded step ok s ls ∧ Q s := by
  induction ls generalizing s with
  | nil => exact ⟨trivial, Option.some.inj h ▸ hu⟩
  | cons l ls ih =>
      obtain ⟨t, ht, htu⟩ := run_cons_eq_some.mp h
      obtain ⟨hguard, hQ⟩ := ih (hstep s l t hs ht) htu
      refine ⟨⟨hok s l t hs ht hQ, fun t' ht' => ?_⟩, hback s l t hs ht hQ⟩
      obtain rfl : t = t' := Option.some.inj (ht.symm.trans ht')
      exact hguard

/-- If every step is one of another system, or nothing for it, every run is a run of the
other system. -/
theorem exists_projected {υ μ : Type*} {step : σ → ℓ → Option σ} {step' : υ → μ → Option υ}
    {f : σ → υ} {ok : μ → Prop}
    (h : ∀ s l t, step s l = some t → f t = f s ∨ ∃ m, ok m ∧ step' (f s) m = some (f t))
    {s t : σ} {ls : List ℓ} (hrun : run step s ls = some t) :
    ∃ ms, (∀ m ∈ ms, ok m) ∧ run step' (f s) ms = some (f t) := by
  induction ls generalizing s with
  | nil =>
      obtain rfl := Option.some.inj hrun
      exact ⟨[], by simp, rfl⟩
  | cons l ls ih =>
      obtain ⟨u, hu, hrest⟩ := run_cons_eq_some.mp hrun
      obtain ⟨ms, hms, hrun'⟩ := ih hrest
      rcases h s l u hu with hsame | ⟨m, hm, hstep⟩
      · exact ⟨ms, hms, hsame ▸ hrun'⟩
      · refine ⟨m :: ms, ?_, run_cons_eq_some.mpr ⟨_, hstep, hrun'⟩⟩
        intro k hk
        rcases List.mem_cons.mp hk with rfl | hk
        · exact hm
        · exact hms k hk

section Observation

variable {ω : Type*}

/-- What `obs` shows of the steps of a run, in order. -/
def observed (step : σ → ℓ → Option σ) (obs : σ → ℓ → Option ω) : σ → List ℓ → List ω
  | _, [] => []
  | s, l :: ls =>
      (obs s l).toList ++ ((step s l).map fun t => observed step obs t ls).getD []

@[simp] theorem observed_nil (step : σ → ℓ → Option σ) (obs : σ → ℓ → Option ω) (s : σ) :
    observed step obs s [] = [] := rfl

theorem observed_append_singleton {step : σ → ℓ → Option σ} {obs : σ → ℓ → Option ω} {s t : σ}
    {ls : List ℓ} (h : run step s ls = some t) (l : ℓ) :
    observed step obs s (ls ++ [l]) = observed step obs s ls ++ (obs t l).toList := by
  induction ls generalizing s with
  | nil =>
      obtain rfl : s = t := Option.some.inj h
      cases hstep : step s l <;> simp [observed, hstep]
  | cons m ls ih =>
      obtain ⟨u, hu, hrest⟩ := run_cons_eq_some.mp h
      simp only [List.cons_append, observed, hu, Option.map_some, Option.getD_some,
        List.append_assoc]
      rw [ih hrest]

end Observation

end Transition
