import InterProcess.Message.Wire
import InterProcess.Runner.Rest
import InterProcess.Server.Replies

/-!
# The server comes to rest

When no more messages arrive, the server answers the message that it is handling, its
workers do what was accepted, and then all of them wait. This holds of every schedule: the
steps are bounded, wakeups that nobody has caused aside, and a server that cannot go on is
either at rest or was ended by a division. The sends of `Server.step` succeed and nothing
throws, so at rest the replies are all that was owed.
-/

namespace InterProcess

open Transition

namespace Server

variable {codec : Codec} {n : ℕ} {s s' : Server} {pool : Pool}

/-- What is known of the server and its `n` workers while no `deinit` is called. -/
structure Available (n : ℕ) (s : Server) : Prop where
  ready : s.Ready
  attended : s.mAlgoRunner.Attended n
  idle : s.thread = .receive → s.mAlgoRunner.callers 0 = .idle

theorem available_start (n : ℕ) : (start n).Available n where
  ready := ready_start n
  attended := ⟨⟨[], rfl⟩, fun _ _ => rfl, rfl, Or.inl rfl⟩
  idle _ := rfl

theorem idle_step {l : Label} (h : s.thread = .receive → s.mAlgoRunner.callers 0 = .idle)
    (hs : Step codec s l s') : s'.thread = .receive → s'.mAlgoRunner.callers 0 = .idle := by
  cases hs with
  | badHandshake | accept | refuse | badRequest => exact h
  | answer => simpa using h
  | run | get | think => exact fun hfree => by cases hfree
  | ran client tag choice hbusy pool hpool sreq response hran =>
      intro _
      simpa using Pool.idle_of_return (Or.inl ⟨sreq, response, hran⟩) hpool
  | got client tag choice hbusy pool hpool greq response hgot =>
      intro _
      simpa using Pool.idle_of_return (Or.inr ⟨greq, response, hgot⟩) hpool
  | worker i pool hpool => exact fun hfree => (Pool.idle_of_worker_step hpool).mpr (h hfree)

theorem calling_of (hready : s.Ready)
    (hidle : s.thread = .receive → s.mAlgoRunner.callers 0 = .idle) :
    s.mAlgoRunner.callers 0 = .idle ∨ 0 < (s.mAlgoRunner.callers 0).distance := by
  cases hthread : s.thread with
  | receive => exact Or.inl (hidle hthread)
  | handle client tag => exact Or.inr (CallerPc.distance_pos (hready.busy client tag hthread))

theorem available_step (s : Server) (l : Label) (s' : Server) (h : s.Available n)
    (hstep : step codec s l = some s') : s'.Available n := by
  have hready := ready_step s l s' h.ready hstep
  have hidle := idle_step h.idle (step_cases hstep).2
  refine ⟨hready, ⟨?_, hready.alone, ?_, calling_of hready hidle⟩, hidle⟩
  · rcases runner_step hstep with hsame | ⟨m, -, hpool⟩
    · exact hsame ▸ h.attended.reached
    · exact Pool.reached_step h.attended.reached hpool
  · rcases runner_step hstep with hsame | ⟨m, -, hpool⟩
    · exact hsame ▸ h.attended.running
    · exact (Pool.running_of_step h.attended.no_stopStore hpool).trans h.attended.running

def Label.inRunner : Label → Option InterProcess.Label
  | .recv _ _ _ => none
  | .thread choice => some (.caller 0 choice)
  | .worker i => some (.worker i)

/-- No message arrives with the step, and it is no spurious wakeup. -/
def Caused (s : Server) (l : Label) : Prop := ∃ m, l.inRunner = some m ∧ s.mAlgoRunner.Caused m

theorem runner_of_step {l : Label} {m : InterProcess.Label} (hm : l.inRunner = some m)
    (hstep : step codec s l = some s') : s.mAlgoRunner.step m = some s'.mAlgoRunner := by
  cases (step_cases hstep).2 with
  | badHandshake | accept | refuse | badRequest | answer | run | get => cases hm
  | think | worker =>
      cases hm
      assumption
  | ran | got =>
      cases hm
      rw [reply_mAlgoRunner]
      assumption

theorem step_worker {i : ℕ} (hpool : s.mAlgoRunner.step (.worker i) = some pool) :
    step codec s (.worker i) = some (s.withRunner pool s.thread) := by
  simp [step, (Pool.step_cases hpool).1, hpool]

/-- Every step that is caused lowers the cost of the runner. -/
theorem descends_available (codec : Codec) (n : ℕ) :
    Descends (step codec) Caused (Available n) fun s => s.mAlgoRunner.cost where
  keeps s l s' h _ hs := available_step s l s' h hs
  lowers s l s' h hl hs := by
    obtain ⟨m, hm, hcaused⟩ := hl
    exact Pool.cost_step h.attended hcaused (runner_of_step hm hs)

theorem Available.settled (h : s.Available n)
    (hsettled : Transition.Settled (step codec) Caused s) :
    Transition.Settled Pool.step Pool.Caused s.mAlgoRunner := by
  intro m hm
  by_contra hne
  obtain ⟨pool, hpool⟩ := Option.ne_none_iff_exists'.mp hne
  cases hcases : (Pool.step_cases hpool).2 with
  | run | get | deinit => exact hm.unforced.1 trivial
  | caller c choice hc =>
      obtain rfl := h.attended.zero_of_caller hc
      cases hthread : s.thread with
      | receive => exact hc.not_idle (h.idle hthread)
      | handle client tag =>
          obtain ⟨s', hs', -⟩ := exists_thread_step codec hthread hpool
          rw [hsettled (.thread choice) ⟨_, rfl, hm⟩] at hs'
          cases hs'
  | worker i hw =>
      have hs' : step codec s (.worker i) = some (s.withRunner pool s.thread) := step_worker hpool
      rw [hsettled (.worker i) ⟨_, rfl, hm⟩] at hs'
      cases hs'

/-- What is known of the server after the messages `ms`. -/
structure Up (codec : Codec) (ms : List Message) (s : Server) : Prop where
  served : Served codec ms s
  yielding : s.mAlgoRunner.Yielding fun _ result => result.Brief
  available : ∃ n, s.Available n

theorem up_start (codec : Codec) (n : ℕ) : Up codec [] (start n) where
  served := served_start codec n
  yielding := Pool.yielding_start _ n
  available := ⟨n, available_start n⟩

theorem up_step (hcodec : codec.Lawful) {ms : List Message} {l : Label} (h : s.Up codec ms)
    (hstep : step codec s l = some s') : s'.Up codec (ms ++ l.message.toList) where
  served := served_step h.served (serialises_of_lawful hcodec h.yielding l) (step_cases hstep).2
  yielding :=
    yielding_step (fun _ _ _ => by simp [Result.Brief, Result.texts])
      (fun sreq _ _ => yields_brief sreq) s l s' h.yielding hstep
  available := by
    obtain ⟨n, h⟩ := h.available
    exact ⟨n, available_step s l s' h hstep⟩

theorem up_of_run (hcodec : codec.Lawful) {ls : List Label}
    (hrun : run (step codec) (start n) ls = some s) :
    s.Up codec (ls.filterMap Label.message) := by
  refine run_history (P := fun ls s => s.Up codec (ls.filterMap Label.message)) ?_
    (up_start codec n) hrun
  intro ls s l s' _ h hstep
  rw [filterMap_message_concat]
  exact up_step hcodec h hstep

theorem Up.reaches (hcodec : codec.Lawful) {ms : List Message} (h : s.Up codec ms)
    (hreach : Reaches (step codec) Caused s s') : s'.Up codec ms := by
  obtain ⟨ks, hguard, hks⟩ := hreach
  refine run_invariant_of_guarded (P := Up codec ms) ?_ h hguard hks
  rintro s l s' h ⟨m, hm, -⟩ hstep
  have hnone : l.message = none := by cases l <;> first | rfl | cases hm
  have h' := up_step hcodec h hstep
  rwa [hnone, Option.toList_none, List.append_nil] at h'

/-- Between two messages everything that was owed is sent. -/
theorem Served.settled {ms : List Message} (h : Served codec ms s) (hfree : s.thread = .receive) :
    List.Forall₂ (Due.Met codec) (dues codec [] ms) s.sent := by
  obtain ⟨paid, outstanding, hdues, hpaid, hopen⟩ := h.paid
  rw [hfree] at hopen
  subst hopen
  rwa [hdues, List.append_nil]

/-- Without further messages every run of the server ends: there is a bound on its steps,
spurious wakeups aside. And wherever it cannot go on, all messages are answered, every
accepted job is done and all workers wait for more, if a division has not ended the
process. -/
theorem comes_to_rest (codec : Codec) (n : ℕ) (hn : 0 < n) (ls : List Label) (s : Server)
    (hrun : run (step codec) (start n) ls = some s) :
    (∀ ks t, Guarded (step codec) Caused s ks → run (step codec) s ks = some t →
      ks.length ≤ 12 * n + 9 * s.mAlgoRunner.jobQueue.length + 16 ∧
        ∃ u, Reaches (step codec) Caused t u ∧ Transition.Settled (step codec) Caused u) ∧
    ∀ u, Reaches (step codec) Caused s u → Transition.Settled (step codec) Caused u →
      u.mAlgoRunner.trapped = true ∨ (u.thread = .receive ∧ u.mAlgoRunner.AtRest ∧
        (codec.Lawful →
          List.Forall₂ (Due.Met codec) (dues codec [] (ls.filterMap Label.message)) u.sent)) := by
  have hs : s.Available n := run_invariant available_step (available_start n) hrun
  have hdescends := descends_available codec n
  constructor
  · intro ks t hguard ht
    have hle := hdescends.length_add_le hs hguard ht
    have hcost := Pool.cost_le hs.attended.length
    obtain ⟨ls', u, hguard', hu, hsettled⟩ :=
      hdescends.exists_settled (run_invariant available_step hs ht)
    exact ⟨by omega, u, ⟨ls', hguard', hu⟩, hsettled⟩
  · intro u hreach hsettled
    obtain ⟨ks, hu⟩ := hreach.exists_run
    have hav : u.Available n := run_invariant available_step hs hu
    cases htrap : u.mAlgoRunner.trapped with
    | true => exact Or.inl rfl
    | false =>
        have hrest := hav.attended.atRest htrap (hav.settled hsettled) hn
        have hfree : u.thread = .receive := by
          cases hthread : u.thread with
          | receive => rfl
          | handle client tag =>
              refine absurd ?_ (hav.ready.busy client tag hthread)
              rw [hrest.idle]
              rfl
        exact Or.inr ⟨hfree, hrest, fun hcodec =>
          ((up_of_run hcodec hrun).reaches hcodec hreach).served.settled hfree⟩

def pushedSchedule : List Label :=
  [.recv [65] (sentHandshake 63) 0,
    .recv [65] (sentSubmit
      { mode := .nonblocking, payload := some (.math { op := .mathAdd, a := 2, b := 3 }) }) 1] ++
  List.replicate 4 (.thread {})

/-- The server answers the submit, and is at rest. -/
theorem comes_to_rest_pushed :
    ∃ s u, run (step wireCodec) (start 1) pushedSchedule = some s ∧
      s.mAlgoRunner.jobQueue = [0] ∧ Reaches (step wireCodec) Caused s u ∧
      (u.mAlgoRunner.trapped = true ∨ (u.thread = .receive ∧ u.mAlgoRunner.AtRest ∧
        List.Forall₂ (Due.Met wireCodec) [⟨[65], 1, .submit⟩] u.sent)) := by
  obtain ⟨s, hs, htest⟩ := exists_of_run_any (step wireCodec) (start 1) pushedSchedule
    (fun s => s.mAlgoRunner.jobQueue = [0]) (by decide +kernel)
  obtain ⟨hends, hrests⟩ := comes_to_rest wireCodec 1 Nat.one_pos pushedSchedule s hs
  obtain ⟨-, u, hreach, hsettled⟩ := hends [] s trivial rfl
  have hdues : dues wireCodec [] (pushedSchedule.filterMap Label.message) = [⟨[65], 1, .submit⟩] := by
    decide +kernel
  refine ⟨s, u, hs, by simpa using htest, hreach, (hrests u hreach hsettled).imp_right ?_⟩
  rintro ⟨hfree, hrest, hsent⟩
  exact ⟨hfree, hrest, hdues ▸ hsent wireCodec_lawful⟩

end Server

end InterProcess
