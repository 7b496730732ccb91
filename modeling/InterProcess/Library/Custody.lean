import Mathlib.Data.Set.Lattice
import Mathlib.Logic.Function.Basic

/-!
# Goods in custody

A keeper holds goods, each under a ticket, and hands them out once. Its clients ask
for tickets and for goods by messages, each client on its own ordered connection, and
list the tickets whose goods they have not fetched. A message that is answered becomes
its answer, in the same place of the client's `line`; the client takes the answers from
the front.

As long as a ticket is new when it is granted and no client takes the goods of a listed
ticket for something else, the goods of every listed ticket are with the keeper or on
their way. If moreover nothing is lost and every client waits for its answer, the keeper
holds exactly the goods whose tickets are listed or on their way.
-/

/-- What a message asks for. -/
inductive Want (τ : Type*) where
  | nothing
  | ticket
  | goods (t : τ)
  deriving DecidableEq

/-- How far a message has got. -/
inductive Phase (τ : Type*) where
  | asked
  | granted (t : τ)
  /-- answered with the goods -/
  | final
  | denied
  /-- answered otherwise -/
  | done
  deriving DecidableEq

/-- What a client lists after the answer to what it waits for. -/
def keptAfter {τ : Type*} (w : Want τ) (ph : Phase τ) (kept : Set τ) : Set τ :=
  match w, ph with
  | .ticket, .granted t => insert t kept
  | .goods t, .final | .goods t, .denied => kept \ {t}
  | _, _ => kept

/-- A client. -/
structure Holder (τ : Type*) where
  /-- the tickets that it lists -/
  kept : Set τ
  /-- its messages under way and the answers to them, the oldest first -/
  line : List (Want τ × Phase τ)
  /-- what it waits for -/
  waiting : Option (Want τ)

namespace Holder

variable {τ : Type*}

/-- The message is about this ticket. -/
def Names (t : τ) (x : Want τ × Phase τ) : Prop := x.1 = .goods t ∨ x.2 = .granted t

def Uses (h : Holder τ) (t : τ) : Prop := t ∈ h.kept ∨ ∃ x ∈ h.line, Names t x

/-- What a client and the keeper do together. `strict` says that nothing is lost and that
clients wait for their answers; `fresh` are the tickets that can be granted. -/
inductive Move (strict : Prop) (fresh held : Set τ) (h : Holder τ) : Set τ → Holder τ → Prop
  | send (w : Want τ) (hfree : h.waiting = none) (hkept : ∀ t, w = .goods t → t ∈ h.kept) :
      Move strict fresh held h held
        { h with line := h.line ++ [(w, .asked)], waiting := some w }
  | grant (t : τ) (pre post : List (Want τ × Phase τ))
      (hline : h.line = pre ++ (.ticket, .asked) :: post) (hfresh : t ∈ fresh) :
      Move strict fresh held h (insert t held)
        { h with line := pre ++ (.ticket, .granted t) :: post }
  | finish (t : τ) (pre post : List (Want τ × Phase τ))
      (hline : h.line = pre ++ (.goods t, .asked) :: post) (hheld : t ∈ held) :
      Move strict fresh held h (held \ {t})
        { h with line := pre ++ (.goods t, .final) :: post }
  | answer (w : Want τ) (ph : Phase τ) (pre post : List (Want τ × Phase τ))
      (hline : h.line = pre ++ (w, .asked) :: post) (hph : ph = .done ∨ ph = .denied)
      (hdenied : strict → ph = .denied → ∀ t, w = .goods t → t ∉ held) :
      Move strict fresh held h held { h with line := pre ++ (w, ph) :: post }
  /-- a new ticket is listed -/
  | keep (t : τ) (w : Want τ) (rest : List (Want τ × Phase τ))
      (hwaiting : h.waiting = some .ticket) (hline : h.line = (w, .granted t) :: rest) :
      Move strict fresh held h held { kept := insert t h.kept, line := rest, waiting := none }
  /-- the goods are fetched -/
  | fetch (t : τ) (rest : List (Want τ × Phase τ)) (hline : h.line = (.goods t, .final) :: rest) :
      Move strict fresh held h held { kept := h.kept \ {t}, line := rest, waiting := none }
  | pass (w : Want τ) (ph : Phase τ) (rest : List (Want τ × Phase τ))
      (hline : h.line = (w, ph) :: rest)
      (hph : ph = .done ∨ ph = .denied ∧ ∀ t, w ≠ .goods t) :
      Move strict fresh held h held { h with line := rest, waiting := none }
  /-- anything is lost but the goods of a ticket that stays listed -/
  | lose (h' : Holder τ) (hloose : ¬ strict) (hkept : h'.kept ⊆ h.kept)
      (hline : h'.line.Sublist h.line)
      (hfinal : ∀ t ∈ h'.kept, (.goods t, .final) ∈ h.line → (.goods t, .final) ∈ h'.line) :
      Move strict fresh held h held h'

/-- The invariant of a client. -/
structure Sound (held : Set τ) (h : Holder τ) : Prop where
  kept : ∀ t ∈ h.kept, t ∈ held ∨ (.goods t, .final) ∈ h.line
  final : ∀ t, (.goods t, .final) ∈ h.line → t ∉ held
  granted : ∀ w t, (w, .granted t) ∈ h.line →
    w = .ticket ∧ t ∈ held ∧ t ∉ h.kept ∧ ∀ ph, (.goods t, ph) ∉ h.line
  once : h.line.Pairwise fun x y => ∀ t, x.2 = .granted t → y.2 ≠ .granted t

/-- The invariant of a client that waits for its answers: it has one message under way at
most, which is the one that it waits for. -/
structure Orderly (h : Holder τ) : Prop where
  line : h.line = [] ∨ ∃ w ph, h.line = [(w, ph)] ∧ h.waiting = some w
  goods : ∀ t ph, (.goods t, ph) ∈ h.line → t ∈ h.kept ∧ ph ≠ .denied
  final : ∀ w, (w, .final) ∈ h.line → ∃ t, w = .goods t

variable {strict : Prop} {fresh held held' : Set τ} {h h' : Holder τ}

theorem Sound.congr (hs : h.Sound held) (hsame : ∀ t, h.Uses t → (t ∈ held' ↔ t ∈ held)) :
    h.Sound held' where
  kept t ht := by
    rw [hsame t (Or.inl ht)]
    exact hs.kept t ht
  final t ht := by
    rw [hsame t (Or.inr ⟨_, ht, Or.inl rfl⟩)]
    exact hs.final t ht
  granted w t ht := by
    rw [hsame t (Or.inr ⟨_, ht, Or.inr rfl⟩)]
    exact hs.granted w t ht
  once := hs.once

theorem mem_middle {α : Type*} {x y : α} {pre post : List α} :
    x ∈ pre ++ y :: post ↔ x = y ∨ x ∈ pre ++ post := by
  rw [List.mem_append, List.mem_cons, or_left_comm, ← List.mem_append]

theorem names_middle (ph : Phase τ) {w : Want τ} {ph' : Phase τ} {pre post : List (Want τ × Phase τ)} {t : τ}
    (ht : ∃ x ∈ pre ++ (w, ph') :: post, Names t x) :
    (∃ x ∈ pre ++ (w, ph) :: post, Names t x) ∨ ph' = .granted t := by
  obtain ⟨x, hx, hnames⟩ := ht
  rcases mem_middle.mp hx with rfl | hx
  · rcases hnames with hw | hgranted
    · exact Or.inl ⟨_, mem_middle.mpr (Or.inl rfl), Or.inl hw⟩
    · exact Or.inr hgranted
  · exact Or.inl ⟨x, mem_middle.mpr (Or.inr hx), hnames⟩

theorem Move.uses (hm : Move strict fresh held h held' h') {t : τ} (ht : h'.Uses t) :
    h.Uses t ∨ t ∈ fresh := by
  unfold Uses at ht ⊢
  cases hm with
  | send w hfree hkept =>
      rcases ht with ht | ⟨x, hx, hnames⟩
      · exact Or.inl (Or.inl ht)
      · rcases List.mem_append.mp hx with hx | hx
        · exact Or.inl (Or.inr ⟨x, hx, hnames⟩)
        · obtain rfl := List.mem_singleton.mp hx
          rcases hnames with hw | hgranted
          · exact Or.inl (Or.inl (hkept t hw))
          · cases hgranted
  | grant t' pre post hline hfresh =>
      rw [hline]
      rcases ht with ht | hx
      · exact Or.inl (Or.inl ht)
      · rcases names_middle .asked hx with hx | hgranted
        · exact Or.inl (Or.inr hx)
        · exact Or.inr (Phase.granted.inj hgranted ▸ hfresh)
  | finish t' pre post hline =>
      rw [hline]
      rcases ht with ht | hx
      · exact Or.inl (Or.inl ht)
      · rcases names_middle .asked hx with hx | hgranted
        · exact Or.inl (Or.inr hx)
        · cases hgranted
  | answer w ph pre post hline hph =>
      rw [hline]
      rcases ht with ht | hx
      · exact Or.inl (Or.inl ht)
      · rcases names_middle .asked hx with hx | hgranted
        · exact Or.inl (Or.inr hx)
        · rcases hph with rfl | rfl <;> cases hgranted
  | keep t' w rest hwaiting hline =>
      rw [hline]
      rcases ht with (rfl | ht) | ⟨x, hx, hnames⟩
      · exact Or.inl (Or.inr ⟨_, List.mem_cons_self, Or.inr rfl⟩)
      · exact Or.inl (Or.inl ht)
      · exact Or.inl (Or.inr ⟨x, List.mem_cons_of_mem _ hx, hnames⟩)
  | fetch t' rest hline =>
      rw [hline]
      rcases ht with ht | ⟨x, hx, hnames⟩
      · exact Or.inl (Or.inl ht.1)
      · exact Or.inl (Or.inr ⟨x, List.mem_cons_of_mem _ hx, hnames⟩)
  | pass w ph rest hline =>
      rw [hline]
      rcases ht with ht | ⟨x, hx, hnames⟩
      · exact Or.inl (Or.inl ht)
      · exact Or.inl (Or.inr ⟨x, List.mem_cons_of_mem _ hx, hnames⟩)
  | lose _ hloose hkept hline hfinal =>
      rcases ht with ht | ⟨x, hx, hnames⟩
      · exact Or.inl (Or.inl (hkept ht))
      · exact Or.inl (Or.inr ⟨x, hline.mem hx, hnames⟩)

theorem Move.mem_held (hm : Move strict fresh held h held' h') {t : τ} (ht : ¬ h.Uses t)
    (hnew : t ∉ fresh) : t ∈ held' ↔ t ∈ held := by
  cases hm with
  | grant t' pre post hline hfresh =>
      have hne : t ≠ t' := fun heq => hnew (heq ▸ hfresh)
      simp [hne]
  | finish t' pre post hline =>
      have hne : t ≠ t' := by
        rintro rfl
        exact ht (Or.inr ⟨_, by rw [hline]; exact mem_middle.mpr (Or.inl rfl), Or.inl rfl⟩)
      simp [hne]
  | _ => rfl

theorem Move.of_mem_held (hm : Move strict fresh held h held' h') {t : τ} (ht : t ∈ held')
    (hold : t ∉ held) : t ∈ fresh := by
  cases hm with
  | grant t' pre post hline hfresh =>
      obtain rfl := ht.resolve_right hold
      exact hfresh
  | finish t' => exact absurd ht.1 hold
  | _ => exact absurd ht hold

theorem once_middle {x y : Want τ × Phase τ} {pre post : List (Want τ × Phase τ)}
    (h : (pre ++ x :: post).Pairwise fun x y => ∀ t, x.2 = .granted t → y.2 ≠ .granted t)
    (hy : ∀ t, y.2 = .granted t → ∀ z ∈ pre ++ post, z.2 ≠ .granted t) :
    (pre ++ y :: post).Pairwise fun x y => ∀ t, x.2 = .granted t → y.2 ≠ .granted t := by
  have hsub := h.sublist ((List.sublist_cons_self x post).append_left pre)
  obtain ⟨hpre, hpost, hcross⟩ := List.pairwise_append.mp hsub
  refine List.pairwise_append.mpr ⟨hpre, List.pairwise_cons.mpr ⟨?_, hpost⟩, ?_⟩
  · intro z hz t ht
    exact hy t ht z (List.mem_append_right _ hz)
  · intro z hz w hw t ht hwt
    rcases List.mem_cons.mp hw with rfl | hw
    · exact hy t hwt z (List.mem_append_left _ hz) ht
    · exact hcross z hz w hw t ht hwt

theorem Move.sound (hm : Move strict fresh held h held' h') (hs : h.Sound held)
    (hunused : ∀ t ∈ fresh, t ∉ held ∧ ¬ h.Uses t) : h'.Sound held' := by
  obtain ⟨hkept, hfinal, hgranted, honce⟩ := hs
  cases hm with
  | send w hfree hnew =>
      refine ⟨?_, ?_, ?_, ?_⟩
      · grind
      · grind
      · grind
      · grind
  | grant t' pre post hline hfree =>
      obtain ⟨habsent, hunused⟩ := hunused t' hfree
      have hnew : ∀ x, x ∈ pre ++ (Want.ticket, Phase.granted t') :: post ↔ _ := fun x => mem_middle
      have hold : ∀ x, x ∈ h.line ↔ x = (Want.ticket, Phase.asked) ∨ x ∈ pre ++ post := fun x => by
        rw [hline, mem_middle]
      unfold Uses Names at hunused
      refine ⟨?_, ?_, ?_, ?_⟩
      · simp only [hnew]
        grind
      · simp only [hnew]
        grind
      · simp only [hnew]
        grind
      · refine once_middle (hline ▸ honce) ?_
        grind
  | finish t' pre post hline hheld =>
      have hnew : ∀ x, x ∈ pre ++ (Want.goods t', Phase.final) :: post ↔ _ := fun x => mem_middle
      have hold : ∀ x, x ∈ h.line ↔ x = (Want.goods t', Phase.asked) ∨ x ∈ pre ++ post := fun x => by
        rw [hline, mem_middle]
      refine ⟨?_, ?_, ?_, ?_⟩
      · simp only [hnew]
        grind
      · simp only [hnew]
        grind
      · simp only [hnew]
        grind
      · refine once_middle (hline ▸ honce) ?_
        grind
  | answer w ph pre post hline hph =>
      have hnew : ∀ x, x ∈ pre ++ (w, ph) :: post ↔ _ := fun x => mem_middle
      have hold : ∀ x, x ∈ h.line ↔ x = (w, Phase.asked) ∨ x ∈ pre ++ post := fun x => by
        rw [hline, mem_middle]
      refine ⟨?_, ?_, ?_, ?_⟩
      · simp only [hnew]
        grind
      · simp only [hnew]
        grind
      · simp only [hnew]
        grind
      · refine once_middle (hline ▸ honce) ?_
        grind
  | keep t' w rest hwaiting hline =>
      rw [hline] at hkept hfinal hgranted honce
      obtain ⟨hhead, htail⟩ := List.pairwise_cons.mp honce
      refine ⟨?_, ?_, ?_, htail⟩
      · grind
      · grind
      · grind
  | fetch t' rest hline =>
      rw [hline] at hkept hfinal hgranted honce
      obtain ⟨hhead, htail⟩ := List.pairwise_cons.mp honce
      refine ⟨?_, ?_, ?_, htail⟩
      · grind
      · grind
      · grind
  | pass w ph rest hline hph =>
      rw [hline] at hkept hfinal hgranted honce
      obtain ⟨hhead, htail⟩ := List.pairwise_cons.mp honce
      refine ⟨?_, ?_, ?_, htail⟩
      · grind
      · grind
      · grind
  | lose _ hloose hsub hline hlost =>
      refine ⟨?_, ?_, ?_, honce.sublist hline⟩
      · intro t ht
        exact (hkept t (hsub ht)).imp_right (hlost t ht)
      · exact fun t ht => hfinal t (hline.mem ht)
      · intro w t ht
        obtain ⟨hw, hheld, hnot, hnone⟩ := hgranted w t (hline.mem ht)
        exact ⟨hw, hheld, fun hk => hnot (hsub hk), fun ph hph => hnone ph (hline.mem hph)⟩

/-- The ticket is listed by the client or on its way to it. -/
def Covers (h : Holder τ) (t : τ) : Prop := t ∈ h.kept ∨ ∃ w, (w, .granted t) ∈ h.line

theorem Orderly.middle (ho : h.Orderly) {x : Want τ × Phase τ} (pre : List (Want τ × Phase τ))
    {post : List (Want τ × Phase τ)}
    (hline : h.line = pre ++ x :: post) : pre = [] ∧ post = [] ∧ h.waiting = some x.1 := by
  rcases ho.line with hnil | ⟨w, ph, hone, hwaiting⟩
  · simp [hline] at hnil
  · rw [hone] at hline
    cases pre with
    | nil =>
        obtain ⟨rfl, rfl⟩ := List.cons.inj hline
        exact ⟨rfl, rfl, hwaiting⟩
    | cons y pre => simp at hline

theorem Orderly.line_nil (ho : h.Orderly) (hfree : h.waiting = none) : h.line = [] := by
  rcases ho.line with hnil | ⟨w, ph, -, hwaiting⟩
  · exact hnil
  · simp [hfree] at hwaiting

theorem Move.orderly (hm : Move strict fresh held h held' h') (hstrict : strict)
    (hs : h.Sound held) (ho : h.Orderly) : h'.Orderly := by
  cases hm with
  | send w hfree hkept =>
      simp only [ho.line_nil hfree, List.nil_append]
      refine ⟨Or.inr ⟨w, .asked, rfl, rfl⟩, fun t ph hmem => ?_, by simp⟩
      obtain ⟨hw, rfl⟩ := Prod.mk.inj (List.mem_singleton.mp hmem)
      exact ⟨hkept t hw.symm, nofun⟩
  | grant t' pre post hline hfresh =>
      obtain ⟨rfl, rfl, hwaiting⟩ := ho.middle _ hline
      exact ⟨Or.inr ⟨_, _, rfl, hwaiting⟩, by simp, by simp⟩
  | finish t' pre post hline hheld =>
      obtain ⟨rfl, rfl, hwaiting⟩ := ho.middle _ hline
      refine ⟨Or.inr ⟨_, _, rfl, hwaiting⟩, fun t ph hmem => ?_, by simp⟩
      obtain ⟨hw, rfl⟩ := Prod.mk.inj (List.mem_singleton.mp hmem)
      exact ⟨(ho.goods t .asked (by simp [hline, hw])).1, nofun⟩
  | answer w ph pre post hline hph hdenied =>
      obtain ⟨rfl, rfl, hwaiting⟩ := ho.middle _ hline
      refine ⟨Or.inr ⟨_, _, rfl, hwaiting⟩, fun t ph' hmem => ?_, ?_⟩
      · obtain ⟨rfl, rfl⟩ := Prod.mk.inj (List.mem_singleton.mp hmem)
        have hkept := (ho.goods t .asked (by simp [hline])).1
        refine ⟨hkept, fun heq => ?_⟩
        -- the goods of a listed ticket are held, so the request is not denied
        rcases hs.kept t hkept with hheld | hfinal
        · exact hdenied hstrict heq t rfl hheld
        · simp [hline] at hfinal
      · rcases hph with rfl | rfl <;> simp
  | keep t' w rest hwaiting hline | fetch t' rest hline | pass w ph rest hline =>
      obtain ⟨-, rfl, -⟩ := ho.middle [] hline
      exact ⟨Or.inl rfl, by simp, by simp⟩
  | lose _ hloose => exact absurd hstrict hloose

theorem Move.take {v w : Want τ} {ph : Phase τ} {rest : List (Want τ × Phase τ)}
    (hwaiting : h.waiting = some v) (hline : h.line = (w, ph) :: rest) (hph : ph ≠ .asked)
    (hstrict : strict → h.Sound held ∧ h.Orderly)
    (hloose : ¬ strict → ∀ t, w = .goods t → ph = .final → t ∈ h.kept → v = .goods t) :
    Move strict fresh held h held ⟨keptAfter v ph h.kept, rest, none⟩ := by
  have hsame : strict → v = w := fun hs => by
    obtain ⟨-, -, hw⟩ := (hstrict hs).2.middle [] hline
    exact Option.some.inj (hwaiting.symm.trans hw)
  have hlose : ¬ strict → ∀ kept' ⊆ h.kept, (∀ t ∈ kept', v ≠ .goods t ∨ ph ≠ .final) →
      Move strict fresh held h held ⟨kept', rest, none⟩ := by
    intro hnot kept' hsub hkept
    refine .lose _ hnot hsub (by simp [hline]) fun t ht hmem => ?_
    rw [hline] at hmem
    refine (List.mem_cons.mp hmem).resolve_left fun heq => ?_
    obtain ⟨rfl, rfl⟩ := Prod.mk.inj heq
    rcases hkept t ht with hv | hfinal
    · exact hv (hloose hnot t rfl rfl (hsub ht))
    · exact hfinal rfl
  by_cases hs : strict
  · obtain rfl := hsame hs
    obtain ⟨hsound, horderly⟩ := hstrict hs
    have hmem : (v, ph) ∈ h.line := by simp [hline]
    cases ph with
    | asked => exact absurd rfl hph
    | granted t =>
        obtain ⟨rfl, -⟩ := hsound.granted v t hmem
        exact .keep t .ticket rest hwaiting hline
    | final =>
        obtain ⟨t, rfl⟩ := horderly.final v hmem
        exact .fetch t rest hline
    | denied =>
        cases v with
        | goods t => exact absurd rfl (horderly.goods t .denied hmem).2
        | nothing | ticket => exact .pass _ .denied rest hline (Or.inr ⟨rfl, nofun⟩)
    | done =>
        have hkept : keptAfter v .done h.kept = h.kept := by cases v <;> rfl
        rw [hkept]
        exact .pass v .done rest hline (Or.inl rfl)
  · cases v with
    | nothing => exact hlose hs _ subset_rfl fun _ _ => Or.inl nofun
    | ticket =>
        cases ph with
        | granted t => exact .keep t w rest hwaiting hline
        | _ => exact hlose hs _ subset_rfl fun _ _ => Or.inl nofun
    | goods t =>
        cases ph with
        | final =>
            refine hlose hs _ Set.sdiff_subset fun t' ht' => Or.inl fun heq => ?_
            exact ht'.2 (Want.goods.inj heq).symm
        | denied => exact hlose hs _ Set.sdiff_subset fun _ _ => Or.inr nofun
        | _ => exact hlose hs _ subset_rfl fun _ _ => Or.inr nofun

theorem Move.covered (hm : Move strict fresh held h held' h') (hstrict : strict)
    (hs : h.Sound held) {t : τ} (ht : t ∈ held') :
    h'.Covers t ∨ t ∈ held ∧ (h.Covers t → h'.Covers t) := by
  cases hm with
  | send w =>
      refine Or.inr ⟨ht, Or.imp_right ?_⟩
      rintro ⟨w', hw'⟩
      exact ⟨w', List.mem_append_left _ hw'⟩
  | grant t' pre post hline hfresh =>
      rcases ht with rfl | ht
      · exact Or.inl (Or.inr ⟨_, mem_middle.mpr (Or.inl rfl)⟩)
      · refine Or.inr ⟨ht, Or.imp_right ?_⟩
        rintro ⟨w', hw'⟩
        rw [hline, mem_middle] at hw'
        exact ⟨w', mem_middle.mpr (Or.inr (hw'.resolve_left (by simp)))⟩
  | finish t' pre post hline hheld =>
      refine Or.inr ⟨ht.1, Or.imp_right ?_⟩
      rintro ⟨w', hw'⟩
      rw [hline, mem_middle] at hw'
      exact ⟨w', mem_middle.mpr (Or.inr (hw'.resolve_left (by simp)))⟩
  | answer w ph pre post hline =>
      refine Or.inr ⟨ht, Or.imp_right ?_⟩
      rintro ⟨w', hw'⟩
      rw [hline, mem_middle] at hw'
      exact ⟨w', mem_middle.mpr (Or.inr (hw'.resolve_left (by simp)))⟩
  | keep t' w rest hwaiting hline =>
      refine Or.inr ⟨ht, ?_⟩
      rintro (hkept | ⟨w', hw'⟩)
      · exact Or.inl (Or.inr hkept)
      · rw [hline] at hw'
        rcases List.mem_cons.mp hw' with heq | hrest
        · obtain ⟨-, heq⟩ := Prod.mk.inj heq
          exact Or.inl (Or.inl (Phase.granted.inj heq))
        · exact Or.inr ⟨w', hrest⟩
  | fetch t' rest hline =>
      refine Or.inr ⟨ht, ?_⟩
      rintro (hkept | ⟨w', hw'⟩)
      · -- what was fetched is not held any more
        refine Or.inl ⟨hkept, ?_⟩
        rintro rfl
        exact hs.final t (by simp [hline]) ht
      · rw [hline] at hw'
        exact Or.inr ⟨w', (List.mem_cons.mp hw').resolve_left (by simp)⟩
  | pass w ph rest hline hph =>
      refine Or.inr ⟨ht, Or.imp_right ?_⟩
      rintro ⟨w', hw'⟩
      rw [hline] at hw'
      refine ⟨w', (List.mem_cons.mp hw').resolve_left ?_⟩
      rcases hph with rfl | ⟨rfl, -⟩ <;> simp
  | lose _ hloose => exact absurd hstrict hloose

end Holder

/-- The keeper and its clients. -/
structure Custody (κ τ : Type*) where
  held : Set τ
  client : κ → Holder τ

namespace Custody

variable {κ τ : Type*}

/-- The goods are held, or a client uses the ticket. -/
def InUse (u : Custody κ τ) (t : τ) : Prop := t ∈ u.held ∨ ∃ c, (u.client c).Uses t

/-- The invariant: no two clients use the same ticket. -/
structure Sound (u : Custody κ τ) : Prop where
  client : ∀ c, (u.client c).Sound u.held
  owner : ∀ c d t, (u.client c).Uses t → (u.client d).Uses t → c = d

/-- The invariant if nothing is lost and clients wait. -/
structure Orderly (u : Custody κ τ) : Prop where
  client : ∀ c, (u.client c).Orderly
  covered : ∀ t ∈ u.held, ∃ c, (u.client c).Covers t

/-- Nothing is held, and the clients have asked for nothing. -/
def empty : Custody κ τ where
  held := ∅
  client _ := { kept := ∅, line := [], waiting := none }

theorem not_inUse_empty (t : τ) : ¬ (empty : Custody κ τ).InUse t := by
  rintro (hheld | ⟨c, hkept | ⟨x, hx, -⟩⟩)
  · exact hheld
  · exact hkept
  · exact List.not_mem_nil hx

theorem sound_empty : (empty : Custody κ τ).Sound where
  client c := by
    refine ⟨fun t ht => ht.elim, fun t ht => ?_, fun w t ht => ?_, List.Pairwise.nil⟩
    · exact (List.not_mem_nil ht).elim
    · exact (List.not_mem_nil ht).elim
  owner c d t hc := (not_inUse_empty t (Or.inr ⟨c, hc⟩)).elim

theorem orderly_empty : (empty : Custody κ τ).Orderly where
  client c := by
    refine ⟨Or.inl rfl, fun t ph ht => ?_, fun w ht => ?_⟩
    · exact (List.not_mem_nil ht).elim
    · exact (List.not_mem_nil ht).elim
  covered t ht := ht.elim

/-- The goods of a listed ticket are held, and the client knows of them, or they are on
their way to it. -/
theorem Sound.safe {u : Custody κ τ} (hs : u.Sound) {c : κ} {t : τ}
    (ht : t ∈ (u.client c).kept) :
    (t ∈ u.held ∧ ∀ d w, (w, .granted t) ∉ (u.client d).line) ∨
      (.goods t, .final) ∈ (u.client c).line := by
  refine ((hs.client c).kept t ht).imp_left fun hheld => ⟨hheld, fun d w hgranted => ?_⟩
  obtain rfl := hs.owner c d t (Or.inl ht) (Or.inr ⟨_, hgranted, Or.inr rfl⟩)
  exact ((hs.client c).granted w t hgranted).2.2.1 ht

theorem Orderly.agree {u : Custody κ τ} (hs : u.Sound) (ho : u.Orderly)
    (hquiet : ∀ c, (u.client c).line = []) :
    u.held = ⋃ c, (u.client c).kept ∧
      Pairwise fun c d => (u.client c).kept ∩ (u.client d).kept = ∅ := by
  constructor
  · ext t
    rw [Set.mem_iUnion]
    constructor
    · intro ht
      obtain ⟨c, hkept | ⟨w, hgranted⟩⟩ := ho.covered t ht
      · exact ⟨c, hkept⟩
      · simp [hquiet c] at hgranted
    · rintro ⟨c, hkept⟩
      refine ((hs.client c).kept t hkept).resolve_right ?_
      simp [hquiet c]
  · intro c d hne
    rw [Set.eq_empty_iff_forall_notMem]
    rintro t ⟨hc, hd⟩
    exact hne (hs.owner c d t (Or.inl hc) (Or.inl hd))

variable [DecidableEq κ]

def put (u : Custody κ τ) (c : κ) (held : Set τ) (h : Holder τ) : Custody κ τ :=
  { held, client := Function.update u.client c h }

@[simp] theorem put_held (u : Custody κ τ) (c : κ) (held : Set τ) (h : Holder τ) :
    (u.put c held h).held = held := rfl

@[simp] theorem put_self (u : Custody κ τ) (c : κ) (held : Set τ) (h : Holder τ) :
    (u.put c held h).client c = h := by
  simp [put]

theorem put_of_ne (u : Custody κ τ) {c d : κ} (hne : d ≠ c) (held : Set τ) (h : Holder τ) :
    (u.put c held h).client d = u.client d := by
  simp [put, hne]

/-- One client moves. -/
inductive Step (strict : Prop) (fresh : Set τ) (u : Custody κ τ) : Custody κ τ → Prop
  | stay : Step strict fresh u u
  | move (c : κ) (held : Set τ) (h : Holder τ)
      (hm : (u.client c).Move strict fresh u.held held h) : Step strict fresh u (u.put c held h)

variable {strict : Prop} {fresh : Set τ} {u u' : Custody κ τ}

theorem uses_put {c : κ} {held : Set τ} {h : Holder τ}
    (hm : (u.client c).Move strict fresh u.held held h) {d : κ} {t : τ}
    (ht : ((u.put c held h).client d).Uses t) : (u.client d).Uses t ∨ d = c ∧ t ∈ fresh := by
  by_cases hd : d = c
  · subst hd
    rw [put_self] at ht
    exact (hm.uses ht).imp_right fun hnew => ⟨rfl, hnew⟩
  · rw [put_of_ne u hd] at ht
    exact Or.inl ht

theorem inUse_step (hstep : Step strict fresh u u') {t : τ} (ht : u'.InUse t) :
    u.InUse t ∨ t ∈ fresh := by
  cases hstep with
  | stay => exact Or.inl ht
  | move c held h hm =>
      rcases ht with hheld | ⟨d, hd⟩
      · by_cases hold : t ∈ u.held
        · exact Or.inl (Or.inl hold)
        · exact Or.inr (hm.of_mem_held hheld hold)
      · exact (uses_put hm hd).imp (fun hold => Or.inr ⟨d, hold⟩) And.right

theorem sound_step (hstep : Step strict fresh u u') (hs : u.Sound)
    (hfresh : ∀ t ∈ fresh, ¬ u.InUse t) : u'.Sound := by
  cases hstep with
  | stay => exact hs
  | move c held h hm =>
      have hunused : ∀ d, ∀ t ∈ fresh, ¬ (u.client d).Uses t := fun d t ht hd =>
        hfresh t ht (Or.inr ⟨d, hd⟩)
      refine ⟨fun d => ?_, fun d e t hd he => ?_⟩
      · by_cases hd : d = c
        · subst hd
          rw [put_self, put_held]
          exact hm.sound (hs.client d) fun t ht => ⟨fun hheld => hfresh t ht (Or.inl hheld),
            hunused d t ht⟩
        · rw [put_of_ne u hd]
          refine (hs.client d).congr fun t ht => hm.mem_held ?_ fun hnew => hunused d t hnew ht
          exact fun hc => hd (hs.owner d c t ht hc)
      · rcases uses_put hm hd with hold | ⟨rfl, hnew⟩
        · rcases uses_put hm he with hold' | ⟨rfl, hnew'⟩
          · exact hs.owner d e t hold hold'
          · exact absurd hold (hunused d t hnew')
        · rcases uses_put hm he with hold' | ⟨rfl, -⟩
          · exact absurd hold' (hunused e t hnew)
          · rfl

theorem orderly_step (hstep : Step strict fresh u u') (hstrict : strict) (hs : u.Sound)
    (ho : u.Orderly) : u'.Orderly := by
  cases hstep with
  | stay => exact ho
  | move c held h hm =>
      refine ⟨fun d => ?_, fun t ht => ?_⟩
      · by_cases hd : d = c
        · subst hd
          rw [put_self]
          exact hm.orderly hstrict (hs.client d) (ho.client d)
        · rw [put_of_ne u hd]
          exact ho.client d
      · rcases hm.covered hstrict (hs.client c) ht with hnew | ⟨hheld, hkeep⟩
        · exact ⟨c, by rwa [put_self]⟩
        · obtain ⟨d, hcovers⟩ := ho.covered t hheld
          by_cases hd : d = c
          · subst hd
            exact ⟨d, by rw [put_self]; exact hkeep hcovers⟩
          · exact ⟨d, by rwa [put_of_ne u hd]⟩

end Custody
