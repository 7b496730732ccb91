import InterProcess.Library.Run
import InterProcess.Library.Table

/-!
# A store of deferred answers

A client hands in a request and gets a ticket; it shows the ticket until the
answer is ready, and the answer is given out once. The store is the table of the
tickets that are out, with the request each was issued for. What it answers is
an operation `Op`, and `step` says which answers are right in which store.

`lifecycle` is what the holder of a ticket sees: as long as the ticket is not
issued again, he is told to wait some number of times, gets the answer to his
request at most once, and after that the ticket is unknown.
-/

namespace Tickets

open Transition

variable {τ ρ α : Type*}

/-- The answers of the store, and what happens beside it. -/
inductive Op (τ ρ α : Type*) where
  /-- a new ticket for the request -/
  | issue (t : τ) (r : ρ)
  /-- the answer is not ready -/
  | pending (t : τ)
  /-- the answer, which uses the ticket up -/
  | deliver (t : τ) (a : α)
  /-- there is no such ticket -/
  | unknown (t : τ)
  | skip
  deriving DecidableEq

/-- The ticket that is shown. -/
def Op.shown : Op τ ρ α → Option τ
  | .pending t | .deliver t _ | .unknown t => some t
  | .issue _ _ | .skip => none

/-- The ticket that is issued. -/
def Op.issued : Op τ ρ α → Option τ
  | .issue t _ => some t
  | _ => none

@[simp] theorem issued_issue (t : τ) (r : ρ) : (Op.issue t r : Op τ ρ α).issued = some t := rfl

@[simp] theorem issued_skip : (Op.skip : Op τ ρ α).issued = none := rfl

variable [DecidableEq τ] [DecidableEq α]

/-- The store after an answer; `none` when the answer is wrong. -/
def step (answer : ρ → Option α) (m : Table τ ρ) : Op τ ρ α → Option (Table τ ρ)
  | .issue t r =>
      match m t with
      | none => some (m.insert t r)
      | some _ => none
  | .pending t =>
      match m t with
      | none => none
      | some _ => some m
  | .deliver t a =>
      match m t with
      | none => none
      | some r => if answer r = some a then some (m.erase t) else none
  | .unknown t =>
      match m t with
      | none => some m
      | some _ => none
  | .skip => some m

variable {answer : ρ → Option α} {m m' : Table τ ρ} {t : τ}

theorem step_issue {r : ρ} (h : m t = none) :
    step answer m (.issue t r) = some (m.insert t r) := by
  simp [step, h]

theorem step_pending {r : ρ} (h : m t = some r) : step answer m (.pending t) = some m := by
  simp [step, h]

theorem step_deliver {r : ρ} {a : α} (h : m t = some r) (ha : answer r = some a) :
    step answer m (.deliver t a) = some (m.erase t) := by
  simp [step, h, ha]

theorem step_unknown (h : m t = none) : step answer m (.unknown t) = some m := by
  simp [step, h]

theorem step_issue_cases {r : ρ} (h : step answer m (.issue t r) = some m') :
    m t = none ∧ m' = m.insert t r := by
  simp only [step] at h
  split at h
  · next hnone => exact ⟨hnone, (Option.some.inj h).symm⟩
  · cases h

theorem step_pending_cases (h : step answer m (.pending t) = some m') :
    (∃ r, m t = some r) ∧ m' = m := by
  simp only [step] at h
  split at h
  · cases h
  · next r hr => exact ⟨⟨r, hr⟩, (Option.some.inj h).symm⟩

theorem step_deliver_cases {a : α} (h : step answer m (.deliver t a) = some m') :
    ∃ r, m t = some r ∧ answer r = some a ∧ m' = m.erase t := by
  simp only [step] at h
  split at h
  · cases h
  · next r hr =>
      split at h
      · next ha => exact ⟨r, hr, ha, (Option.some.inj h).symm⟩
      · cases h

theorem step_unknown_cases (h : step answer m (.unknown t) = some m') :
    m t = none ∧ m' = m := by
  simp only [step] at h
  split at h
  · next hnone => exact ⟨hnone, (Option.some.inj h).symm⟩
  · cases h

theorem step_frame {op : Op τ ρ α} (h : step answer m op = some m')
    (hissue : ∀ r, op ≠ .issue t r) (hdeliver : ∀ a, op ≠ .deliver t a) : m' t = m t := by
  cases op with
  | issue s r =>
      obtain ⟨-, rfl⟩ := step_issue_cases h
      have hne : t ≠ s := by
        rintro rfl
        exact hissue r rfl
      exact Table.insert_of_ne m hne r
  | pending s => rw [(step_pending_cases h).2]
  | deliver s a =>
      obtain ⟨r, -, -, rfl⟩ := step_deliver_cases h
      have hne : t ≠ s := by
        rintro rfl
        exact hdeliver a rfl
      exact Table.erase_of_ne m hne
  | unknown s => rw [(step_unknown_cases h).2]
  | skip => exact congrFun (Option.some.inj h).symm t

theorem unknown_of_absent {ops : List (Op τ ρ α)} (hm : m t = none)
    (h : run (step answer) m ops = some m') (hissue : ∀ r, .issue t r ∉ ops) :
    ∀ op ∈ ops, op.shown = some t → op = .unknown t := by
  induction ops generalizing m with
  | nil => simp
  | cons op ops ih =>
      obtain ⟨u, hu, hrest⟩ := run_cons_eq_some.mp h
      have hnot : ∀ r, op ≠ .issue t r := fun r heq => hissue r (heq ▸ List.mem_cons_self)
      have hdeliver : ∀ a, op ≠ .deliver t a := by
        rintro a rfl
        obtain ⟨r, hr, -⟩ := step_deliver_cases hu
        simp [hm] at hr
      have habsent : u t = none := (step_frame hu hnot hdeliver).trans hm
      have htail := ih habsent hrest fun r hr => hissue r (List.mem_cons_of_mem _ hr)
      intro op' hmem hshown
      rcases List.mem_cons.mp hmem with rfl | hin
      · cases op' with
        | pending s =>
            obtain rfl : s = t := Option.some.inj hshown
            obtain ⟨⟨r, hr⟩, -⟩ := step_pending_cases hu
            simp [hm] at hr
        | deliver s a =>
            obtain rfl : s = t := Option.some.inj hshown
            exact absurd rfl (hdeliver a)
        | unknown s => rw [Option.some.inj hshown]
        | issue | skip => cases hshown
      · exact htail op' hin hshown

/-- What is answered to the holder of a ticket that is not issued again. -/
theorem lifecycle {ops : List (Op τ ρ α)} {r : ρ} (hm : m t = some r)
    (h : run (step answer) m ops = some m') (hissue : ∀ r, .issue t r ∉ ops) :
    (∀ op ∈ ops, op.shown = some t → op = .pending t) ∨
      ∃ before a after, ops = before ++ .deliver t a :: after ∧ answer r = some a ∧
        (∀ op ∈ before, op.shown = some t → op = .pending t) ∧
        ∀ op ∈ after, op.shown = some t → op = .unknown t := by
  induction ops generalizing m with
  | nil => simp
  | cons op ops ih =>
      obtain ⟨u, hu, hrest⟩ := run_cons_eq_some.mp h
      have hissue' : ∀ r, .issue t r ∉ ops := fun r hr =>
        hissue r (List.mem_cons_of_mem _ hr)
      by_cases hdeliver : ∃ a, op = .deliver t a
      · obtain ⟨a, rfl⟩ := hdeliver
        obtain ⟨r', hr', ha, rfl⟩ := step_deliver_cases hu
        obtain rfl : r = r' := Option.some.inj (hm.symm.trans hr')
        exact Or.inr ⟨[], a, ops, rfl, ha, by simp,
          unknown_of_absent (Table.erase_self m t) hrest hissue'⟩
      · have hnot : ∀ r, op ≠ .issue t r := fun r heq => hissue r (heq ▸ List.mem_cons_self)
        have hkeep : u t = some r :=
          (step_frame hu hnot fun a heq => hdeliver ⟨a, heq⟩).trans hm
        have hhead : op.shown = some t → op = .pending t := by
          intro hshown
          cases op with
          | pending s => rw [Option.some.inj hshown]
          | deliver s a =>
              obtain rfl : s = t := Option.some.inj hshown
              exact absurd ⟨a, rfl⟩ hdeliver
          | unknown s =>
              obtain rfl : s = t := Option.some.inj hshown
              have habsent := (step_unknown_cases hu).1
              simp [hm] at habsent
          | issue | skip => cases hshown
        have hcons : ∀ {more : List (Op τ ρ α)},
            (∀ op' ∈ more, op'.shown = some t → op' = .pending t) →
            ∀ op' ∈ op :: more, op'.shown = some t → op' = .pending t := by
          intro more hmore op' hmem
          rcases List.mem_cons.mp hmem with rfl | hin
          · exact hhead
          · exact hmore op' hin
        rcases ih hkeep hrest hissue' with hall | ⟨before, a, after, rfl, ha, hbefore, hafter⟩
        · exact Or.inl (hcons hall)
        · exact Or.inr ⟨op :: before, a, after, rfl, ha, hcons hbefore, hafter⟩

/-- If no ticket is issued twice, what is given out for a ticket is the answer to the request
that it was issued for. -/
theorem answer_of_deliver {ops : List (Op τ ρ α)} {r : ρ} {a : α}
    (h : run (step answer) Table.empty ops = some m) (honce : (ops.filterMap Op.issued).Nodup)
    (hissue : .issue t r ∈ ops) (hdeliver : .deliver t a ∈ ops) : answer r = some a := by
  obtain ⟨before, after, rfl⟩ := List.append_of_mem hissue
  rw [List.filterMap_append, List.filterMap_cons_some (issued_issue t r), List.nodup_append,
    List.nodup_cons] at honce
  obtain ⟨-, ⟨hafter, -⟩, hbefore⟩ := honce
  have hnone : ∀ {more : List (Op τ ρ α)} r', t ∉ more.filterMap Op.issued → .issue t r' ∉ more :=
    fun r' hnot hin => hnot (List.mem_filterMap.mpr ⟨_, hin, issued_issue t r'⟩)
  obtain ⟨m₁, hrun₁, hrest⟩ := run_append_eq_some.mp h
  obtain ⟨m₂, hstep, hrun₂⟩ := run_cons_eq_some.mp hrest
  obtain ⟨-, rfl⟩ := step_issue_cases hstep
  rcases List.mem_append.mp hdeliver with hearly | hlate
  · have hunknown := unknown_of_absent rfl hrun₁ (t := t)
      (fun r' => hnone r' fun hin => hbefore t hin t List.mem_cons_self rfl) _ hearly rfl
    cases hunknown
  · have hlate : .deliver t a ∈ after := by simpa using hlate
    rcases lifecycle (Table.insert_self m₁ t r) hrun₂ fun r' => hnone r' hafter with
      hall | ⟨ops₁, b, ops₂, rfl, hb, h₁, h₂⟩
    · cases hall _ hlate rfl
    · rcases List.mem_append.mp hlate with hin | hin
      · cases h₁ _ hin rfl
      · rcases List.mem_cons.mp hin with heq | hin
        · cases heq
          exact hb
        · cases h₂ _ hin rfl

/-- If no ticket is issued twice, the answer for a ticket is given out once. -/
theorem deliver_once {before after : List (Op τ ρ α)} {a b : α}
    (h : run (step answer) Table.empty (before ++ .deliver t a :: after) = some m)
    (honce : ((before ++ .deliver t a :: after).filterMap Op.issued).Nodup) :
    .deliver t b ∉ after := by
  intro hagain
  have hissued : t ∈ before.filterMap Op.issued := by
    by_contra hnot
    have hsplit : before ++ .deliver t a :: after = (before ++ [.deliver t a]) ++ after := by simp
    rw [hsplit] at h
    obtain ⟨m₁, hrun, -⟩ := run_append_eq_some.mp h
    have hissue : ∀ r, (.issue t r : Op τ ρ α) ∉ before ++ [.deliver t a] := fun r hin => by
      rcases List.mem_append.mp hin with hin | hin
      · exact hnot (List.mem_filterMap.mpr ⟨_, hin, issued_issue t r⟩)
      · cases List.mem_singleton.mp hin
    cases unknown_of_absent rfl hrun hissue _ (List.mem_append_right _ (List.mem_singleton_self _)) rfl
  obtain ⟨m₁, -, hrest⟩ := run_append_eq_some.mp h
  obtain ⟨m₂, hstep, hrun⟩ := run_cons_eq_some.mp hrest
  obtain ⟨r, -, -, rfl⟩ := step_deliver_cases hstep
  have hissue : ∀ r, (.issue t r : Op τ ρ α) ∉ after := fun r hin => by
    rw [List.filterMap_append, List.nodup_append] at honce
    refine honce.2.2 t hissued t ?_ rfl
    exact List.mem_filterMap.mpr ⟨_, List.mem_cons_of_mem _ hin, issued_issue t r⟩
  cases unknown_of_absent (Table.erase_self m₁ t) hrun hissue _ hagain rfl

end Tickets
