import Mathlib.Logic.Basic

/-!
# Computations that are left early

A loop body that returns from its function or throws is an `ExceptT ε (StateM σ)`
whose exceptions are the ways to leave it. `wp m Q E s` is the weakest precondition
of such a computation: from `s` it either comes to its end with `Q`, or it is left
with `E`. The rules are equivalences, so they take a body apart in the order of its
statements.
-/

namespace Exits

universe u

variable {ε σ α β : Type u}

/-- From `s`, `m` ends with `Q` or is left with `E`. -/
def wp (m : ExceptT ε (StateM σ) α) (Q : α → σ → Prop) (E : ε → σ → Prop) (s : σ) : Prop :=
  match (m.run.run s : Except ε α × σ) with
  | (.ok a, t) => Q a t
  | (.error e, t) => E e t

variable {Q : α → σ → Prop} {E : ε → σ → Prop} {s : σ}

@[simp] theorem wp_pure (a : α) : wp (pure a : ExceptT ε (StateM σ) α) Q E s ↔ Q a s := Iff.rfl

@[simp] theorem wp_throw (e : ε) :
    wp (throw e : ExceptT ε (StateM σ) α) Q E s ↔ E e s := Iff.rfl

@[simp] theorem wp_get {Q : σ → σ → Prop} :
    wp (get : ExceptT ε (StateM σ) σ) Q E s ↔ Q s s := Iff.rfl

@[simp] theorem wp_modify {Q : PUnit → σ → Prop} (f : σ → σ) :
    wp (modify f : ExceptT ε (StateM σ) PUnit) Q E s ↔ Q ⟨⟩ (f s) := Iff.rfl

/-- What the second part needs is what the first part has to reach. -/
@[simp] theorem wp_bind {Q : β → σ → Prop} (m : ExceptT ε (StateM σ) α)
    (f : α → ExceptT ε (StateM σ) β) :
    wp (m >>= f) Q E s ↔ wp m (fun a t => wp (f a) Q E t) E s := by
  unfold wp
  change (match (ExceptT.bindCont f (m.run.run s).1).run (m.run.run s).2 with
    | (.ok a, t) => Q a t
    | (.error e, t) => E e t) ↔ _
  rcases (m.run.run s : Except ε α × σ) with ⟨_ | _, t⟩
  · rfl
  · rfl

@[simp] theorem wp_ite (p : Prop) [Decidable p] (m m' : ExceptT ε (StateM σ) α) :
    wp (if p then m else m') Q E s ↔ if p then wp m Q E s else wp m' Q E s := by
  split <;> rfl

theorem wp_of_forall {m : ExceptT ε (StateM σ) α} (hQ : ∀ a t, Q a t) (hE : ∀ e t, E e t) :
    wp m Q E s := by
  unfold wp
  rcases (m.run.run s : Except ε α × σ) with ⟨e | a, t⟩
  · exact hE e t
  · exact hQ a t

theorem of_wp_error {m : ExceptT ε (StateM σ) α} {e : ε} {t : σ} (h : wp m Q E s)
    (hrun : (m.run.run s : Except ε α × σ) = (.error e, t)) : E e t := by
  unfold wp at h
  rwa [hrun] at h

theorem of_wp_ok {m : ExceptT ε (StateM σ) α} {a : α} {t : σ} (h : wp m Q E s)
    (hrun : (m.run.run s : Except ε α × σ) = (.ok a, t)) : Q a t := by
  unfold wp at h
  rwa [hrun] at h

theorem of_wp_isOk {m : ExceptT ε (StateM σ) α} (h : wp m Q E s)
    (hok : (m.run.run s : Except ε α × σ).1.isOk = true) :
    ∃ a, Q a (m.run.run s : Except ε α × σ).2 := by
  unfold wp at h
  rcases hrun : (m.run.run s : Except ε α × σ) with ⟨e | a, t⟩
  · rw [hrun] at hok
    cases hok
  · rw [hrun] at h
    exact ⟨a, h⟩

end Exits
