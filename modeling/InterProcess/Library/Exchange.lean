import Mathlib.Data.List.Basic
import Mathlib.Order.Basic

/-!
# Exchanges on an ordered connection

A party sends numbered messages, and in an exchange it takes the next reply,
whichever message that is the reply to. Replies come in the order of the
messages; some messages get none. `owed` are the numbers of the messages whose
replies are still to come, the oldest first. An exchange is clean if no reply was
owed when it began.

The reply that is taken in a clean exchange is the one to the message of that
exchange. If no reply is lost on the way, these are the only exchanges that take
their own reply.
-/

/-- The state of one party. -/
structure Exchange where
  owed : List ℕ := []
  next : ℕ := 0
  /-- the number of the exchange in progress, and whether it is clean -/
  current : Option (ℕ × Bool) := none

namespace Exchange

/-- What can happen. `lossy` says whether replies can be lost. -/
inductive Step (lossy : Prop) (e : Exchange) : Exchange → Prop
  | stay : Step lossy e e
  /-- a number is used outside of an exchange -/
  | post (answered : Bool) (hidle : e.current = none) :
      Step lossy e
        { e with owed := e.owed ++ (if answered then [e.next] else []), next := e.next + 1 }
  /-- an exchange begins -/
  | start (answered : Bool) (hidle : e.current = none) :
      Step lossy e
        { owed := e.owed ++ (if answered then [e.next] else []), next := e.next + 1
          current := some (e.next, e.owed.isEmpty) }
  /-- replies are lost -/
  | lose (owed : List ℕ) (hlossy : lossy) (hsub : owed.Sublist e.owed) :
      Step lossy e { e with owed := owed }
  /-- an exchange ends without a reply -/
  | stop : Step lossy e { e with current := none }
  /-- an exchange ends with the next reply -/
  | take (t : ℕ) (rest : List ℕ) (howed : e.owed = t :: rest) :
      Step lossy e { e with owed := rest, current := none }

/-- The invariant of a party. -/
structure Ordered (lossy : Prop) (e : Exchange) : Prop where
  sorted : e.owed.Pairwise (· < ·)
  bound : ∀ t ∈ e.owed, t < e.next
  own : ∀ k, e.current = some (k, true) → ∀ t ∈ e.owed, t = k
  behind : ¬ lossy → ∀ k, e.current = some (k, false) → ∃ t ∈ e.owed, t < k

variable {lossy : Prop} {e e' : Exchange}

theorem Step.of_sublist (hnext : e'.next = e.next) (hcurrent : e'.current = e.current)
    (hsub : e'.owed.Sublist e.owed) (hsame : ¬ lossy → e'.owed = e.owed) : Step lossy e e' := by
  by_cases h : lossy
  · have heq : e' = { e with owed := e'.owed } := by
      rw [← hnext, ← hcurrent]
    rw [heq]
    exact .lose _ h hsub
  · have heq : e' = e := by
      have howed := hsame h
      cases e
      cases e'
      simp_all
    rw [heq]
    exact .stay

theorem ordered_empty : Ordered lossy {} where
  sorted := .nil
  bound t h := by cases h
  own k h := by cases h
  behind _ k h := by cases h

theorem Ordered.sorted_next (h : Ordered lossy e) (answered : Bool) :
    (e.owed ++ (if answered then [e.next] else [])).Pairwise (· < ·) ∧
      ∀ t ∈ e.owed ++ (if answered then [e.next] else []), t < e.next + 1 := by
  cases answered with
  | true =>
      refine ⟨List.pairwise_append.mpr ⟨h.sorted, List.pairwise_singleton _ _, ?_⟩, ?_⟩
      · intro t ht u hu
        rw [if_pos rfl, List.mem_singleton] at hu
        exact hu ▸ h.bound t ht
      · intro t ht
        rcases List.mem_append.mp ht with hold | hnew
        · exact Nat.lt_succ_of_lt (h.bound t hold)
        · rw [if_pos rfl, List.mem_singleton] at hnew
          exact hnew ▸ Nat.lt_succ_self _
  | false =>
      simp only [Bool.false_eq_true, if_false, List.append_nil]
      exact ⟨h.sorted, fun t ht => Nat.lt_succ_of_lt (h.bound t ht)⟩

theorem ordered_step (h : Ordered lossy e) (hs : Step lossy e e') : Ordered lossy e' := by
  cases hs with
  | stay => exact h
  | post answered hidle =>
      obtain ⟨hsorted, hbound⟩ := h.sorted_next answered
      exact ⟨hsorted, hbound, by simp [hidle], by simp [hidle]⟩
  | start answered hidle =>
      obtain ⟨hsorted, hbound⟩ := h.sorted_next answered
      refine ⟨hsorted, hbound, fun k hk t ht => ?_, fun hlossy k hk => ?_⟩
      · -- nothing was owed, so only the new message can be answered
        obtain ⟨rfl, hclean⟩ : e.next = k ∧ e.owed = [] := by simpa using hk
        rw [hclean] at ht
        cases answered <;> simp_all
      · obtain ⟨rfl, hclean⟩ : e.next = k ∧ e.owed ≠ [] := by simpa using hk
        obtain ⟨t, rest, howed⟩ := List.exists_cons_of_ne_nil hclean
        have hmem : t ∈ e.owed := howed ▸ List.mem_cons_self
        exact ⟨t, List.mem_append_left _ hmem, h.bound t hmem⟩
  | lose owed hlossy hsub =>
      exact ⟨h.sorted.sublist hsub, fun t ht => h.bound t (hsub.mem ht),
        fun k hk t ht => h.own k hk t (hsub.mem ht), fun hnot => absurd hlossy hnot⟩
  | stop => exact ⟨h.sorted, h.bound, by simp, by simp⟩
  | take t rest howed =>
      have hsub : rest.Sublist e.owed := howed ▸ List.sublist_cons_self t rest
      exact ⟨h.sorted.sublist hsub, fun u hu => h.bound u (hsub.mem hu), by simp, by simp⟩

/-- A clean exchange takes its own reply. -/
theorem Ordered.take_own (h : Ordered lossy e) {t k : ℕ} {rest : List ℕ}
    (howed : e.owed = t :: rest) (hcurrent : e.current = some (k, true)) : t = k :=
  h.own k hcurrent t (howed ▸ List.mem_cons_self)

/-- An exchange that is not clean takes an older reply, if none is lost. -/
theorem Ordered.take_older (h : Ordered lossy e) (hlossy : ¬ lossy) {t k : ℕ} {rest : List ℕ}
    (howed : e.owed = t :: rest) (hcurrent : e.current = some (k, false)) : t < k := by
  obtain ⟨u, hu, hlt⟩ := h.behind hlossy k hcurrent
  have hsorted := h.sorted
  rw [howed] at hu hsorted
  rcases List.mem_cons.mp hu with rfl | hrest
  · exact hlt
  · exact Nat.lt_trans (List.rel_of_pairwise_cons hsorted hrest) hlt

end Exchange
