import Mathlib.Data.List.Perm.Subperm
import Mathlib.Data.List.Nodup

/-!
# A queue with several servers

Tasks arrive at a queue, and servers take them from its front, each one task at a time. The
order in which they are taken is that of their arrival, but not the one in which they are
completed. `overtaken_lt` bounds the difference: a completed task has overtaken fewer tasks
than there are servers, because every task that it overtook is in the hands of a server, and
none in those of its own.
-/

namespace Servers

variable {α : Type*}

/-- The account of a queue and its servers: the tasks that arrived, those taken with the
server that took each, the queue, and the task that each server has in hand. -/
structure Account (arrived : List α) (taken : List (ℕ × α)) (queue : List α)
    (hands : List (Option α)) (done : α → Bool) : Prop where
  nodup : arrived.Nodup
  order : arrived = taken.map Prod.snd ++ queue
  waiting : ∀ a ∈ queue, done a = false
  inHand : ∀ a ∈ taken.map Prod.snd, done a = false → some a ∈ hands
  servers : ∀ e ∈ taken, e.1 < hands.length
  last : ∀ i a, hands[i]? = some (some a) →
    ∃ l₁ l₂, taken = l₁ ++ (i, a) :: l₂ ∧ ∀ e ∈ l₂, e.1 ≠ i

variable {arrived before after queue : List α} {taken : List (ℕ × α)} {hands : List (Option α)}
  {done : α → Bool} {a b : α}

theorem Account.exists_taken (h : Account arrived taken queue hands done)
    (harrived : arrived = before ++ b :: after) (hb : done b = true) :
    ∃ t₁ i t₂, taken = t₁ ++ (i, b) :: t₂ ∧ t₁.map Prod.snd = before := by
  have hsplit : before ++ b :: after = taken.map Prod.snd ++ queue := harrived ▸ h.order
  obtain ⟨rest, htaken⟩ : ∃ rest, taken.map Prod.snd = before ++ b :: rest := by
    rcases List.append_eq_append_iff.mp hsplit with ⟨l, htaken, hrest⟩ | ⟨l, -, hqueue⟩
    · cases l with
      | nil =>
          have hmem : b ∈ queue := by
            rw [List.nil_append] at hrest
            exact hrest ▸ List.mem_cons_self
          rw [h.waiting b hmem] at hb
          cases hb
      | cons x l =>
          obtain ⟨rfl, -⟩ := List.cons.inj hrest
          exact ⟨l, htaken⟩
    · have hmem : b ∈ queue := hqueue ▸ List.mem_append_right _ List.mem_cons_self
      rw [h.waiting b hmem] at hb
      cases hb
  obtain ⟨t₁, t₂', rfl, hbefore, hrest⟩ := List.map_eq_append_iff.mp htaken
  obtain ⟨⟨i, _⟩, t₂, rfl, rfl, -⟩ := List.map_eq_cons_iff.mp hrest
  exact ⟨t₁, i, t₂, rfl, hbefore⟩

theorem Account.ne_of_inHand (h : Account arrived taken queue hands done) {t₁ t₂ : List (ℕ × α)}
    {i k : ℕ} (htaken : taken = t₁ ++ (i, b) :: t₂) (ha : a ∈ t₁.map Prod.snd)
    (hk : hands[k]? = some (some a)) : k ≠ i := by
  obtain ⟨l₁, l₂, hlast, hnone⟩ := h.last k a hk
  have hnodup : (taken.map Prod.snd).Nodup := (List.nodup_append.mp (h.order ▸ h.nodup)).1
  rcases List.append_eq_append_iff.mp (htaken.symm.trans hlast) with ⟨l, -, hrest⟩ | ⟨l, -, hrest⟩
  · -- the task would have been taken twice
    rw [htaken, List.map_append, List.nodup_append] at hnodup
    have hagain : a ∈ ((i, b) :: t₂).map Prod.snd := by
      rw [hrest]
      simp
    exact absurd rfl (hnodup.2.2 a ha a hagain)
  · cases l with
    | nil =>
        obtain ⟨heq, -⟩ := List.cons.inj hrest
        rw [htaken, List.map_append, List.nodup_append] at hnodup
        exact absurd (congrArg Prod.snd heq) (hnodup.2.2 a ha b (by simp))
    | cons e l =>
        obtain ⟨-, hl₂⟩ := List.cons.inj hrest
        have hlater : (i, b) ∈ l₂ := hl₂ ▸ List.mem_append_right _ List.mem_cons_self
        exact (hnone _ hlater).symm

/-- A completed task has overtaken fewer tasks than there are servers. -/
theorem Account.overtaken_lt (h : Account arrived taken queue hands done)
    (harrived : arrived = before ++ b :: after) (hb : done b = true) :
    before.countP (fun a => !done a) < hands.length := by
  obtain ⟨t₁, i, t₂, htaken, hbefore⟩ := h.exists_taken harrived hb
  have hi : i < hands.length := h.servers (i, b) (htaken ▸ List.mem_append_right _ List.mem_cons_self)
  have hnodup : (before.filter fun a => !done a).Nodup :=
    (List.nodup_append.mp (harrived ▸ h.nodup)).1.filter _
  have hsub : before.filter (fun a => !done a) ⊆ (hands.eraseIdx i).filterMap id := by
    intro a ha
    obtain ⟨hmem, hundone⟩ := List.mem_filter.mp ha
    rw [Bool.not_eq_true'] at hundone
    have hlate : a ∈ t₁.map Prod.snd := hbefore ▸ hmem
    have hall : a ∈ taken.map Prod.snd := by
      rw [htaken, List.map_append]
      exact List.mem_append_left _ hlate
    obtain ⟨k, hk⟩ := List.mem_iff_getElem?.mp (h.inHand a hall hundone)
    refine List.mem_filterMap.mpr ⟨some a, ?_, rfl⟩
    exact List.mem_eraseIdx_iff_getElem?.mpr ⟨k, h.ne_of_inHand htaken hlate hk, hk⟩
  have hle := (List.subperm_of_subset hnodup hsub).length_le
  have hmap := List.length_filterMap_le id (hands.eraseIdx i)
  rw [List.length_eraseIdx_of_lt hi] at hmap
  rw [List.countP_eq_length_filter]
  omega

end Servers
