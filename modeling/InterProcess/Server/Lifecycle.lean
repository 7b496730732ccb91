import InterProcess.Library.Run
import Mathlib.Data.Nat.Basic

/-!
# Starting and stopping the server

`init` and `deinit` of the server application and of the two layers of its
runner. A call returns a code, and what it leaves behind depends on whether
`mRouter.bind` throws. `Application::init` starts the runner before it binds, and
it does not stop the runner when the bind fails. So the two flags that say whether
the server is initialised agree in all states exactly when no bind fails.
-/

namespace InterProcess

open Transition

def ecSuccess : Int32 := 0

def ecFailure : Int32 := -1

/-- The lifecycle of `AlgoRunnerIpml`. -/
structure AlgoRunnerIpml where
  maxThreads : Int32
  /-- the number of threads in `workers` -/
  workers : ℕ := 0
  running : Bool := false
  deriving DecidableEq, Repr

structure AlgoRunner where
  outImpl : Option AlgoRunnerIpml := none
  /-- the worker threads that were created and not joined -/
  threads : ℕ := 0
  deriving DecidableEq, Repr

/-- The lifecycle of the server's `Application`. -/
structure Lifecycle where
  mThreads : Int32
  mInitialized : Bool := false
  mAlgoRunner : AlgoRunner := {}
  deriving DecidableEq, Repr

namespace AlgoRunnerIpml

/-- `AlgoRunnerIpml::init`. `creates i` says whether the creation of thread `i`
succeeds. To reserve a negative number of elements throws. -/
def init (impl : AlgoRunnerIpml) (creates : ℕ → Bool) : Option AlgoRunnerIpml :=
  if impl.running then some impl
  else if impl.maxThreads < 0 then none
  else
    let created := (List.range impl.maxThreads.toInt.toNat).countP creates
    some { impl with running := true, workers := impl.workers + created }

/-- `AlgoRunnerIpml::deinit`, which returns when it has joined all workers. -/
def deinit (impl : AlgoRunnerIpml) : AlgoRunnerIpml :=
  if impl.running = false then impl else { impl with running := false, workers := 0 }

end AlgoRunnerIpml

namespace AlgoRunner

def init (runner : AlgoRunner) (threads : Int32) (creates : ℕ → Bool) : Option AlgoRunner :=
  match runner.outImpl with
  | some _ => some runner
  | none =>
      (AlgoRunnerIpml.init { maxThreads := threads } creates).map fun impl =>
        { outImpl := some impl, threads := runner.threads + impl.workers }

/-- `AlgoRunner::deinit`. -/
def deinit (runner : AlgoRunner) : AlgoRunner :=
  match runner.outImpl with
  | none => runner
  | some impl =>
      { outImpl := none
        threads := runner.threads - (impl.workers - impl.deinit.workers) }

end AlgoRunner

namespace Lifecycle

inductive Call where
  /-- `init`, with whether `mRouter.bind` returns and which threads can be created -/
  | init (binds : Bool) (creates : ℕ → Bool)
  | deinit

def create (threads : Int32) : Lifecycle := { mThreads := threads }

/-- `Application::init`: the code it returns, and the state it leaves. `none` if it
throws, which nobody catches. -/
def init (app : Lifecycle) (binds : Bool) (creates : ℕ → Bool) : Option (Int32 × Lifecycle) :=
  if app.mInitialized then some (ecFailure, app)
  else
    (app.mAlgoRunner.init app.mThreads creates).map fun runner =>
      let app := { app with mAlgoRunner := runner }
      if binds then (ecSuccess, { app with mInitialized := true }) else (ecFailure, app)

/-- `Application::deinit`. -/
def deinit (app : Lifecycle) : Int32 × Lifecycle :=
  if app.mInitialized = false then (ecFailure, app)
  else (ecSuccess, { app with mInitialized := false, mAlgoRunner := app.mAlgoRunner.deinit })

def call (app : Lifecycle) : Call → Option (Int32 × Lifecycle)
  | .init binds creates => app.init binds creates
  | .deinit => some app.deinit

def step (app : Lifecycle) (c : Call) : Option Lifecycle := (app.call c).map Prod.snd

/-- The runner is initialised if and only if the application is, and without a
runner there are no worker threads. -/
structure Consistent (app : Lifecycle) : Prop where
  off : app.mInitialized = false → app.mAlgoRunner.outImpl = none ∧ app.mAlgoRunner.threads = 0
  on : app.mInitialized = true → ∃ impl, app.mAlgoRunner.outImpl = some impl ∧
    impl.running = true ∧ impl.workers = app.mAlgoRunner.threads

/-- The call is no `init` that gets to a bind which fails. -/
def Binds (app : Lifecycle) (c : Call) : Prop :=
  ∀ creates, c = .init false creates → app.mInitialized = true ∨
    app.mAlgoRunner.init app.mThreads creates = none

theorem consistent_create (threads : Int32) : (create threads).Consistent where
  off _ := ⟨rfl, rfl⟩
  on h := by cases h

theorem init_runner_cases {runner runner' : AlgoRunner} {threads : Int32} {creates : ℕ → Bool}
    (hnone : runner.outImpl = none) (hzero : runner.threads = 0)
    (h : runner.init threads creates = some runner') :
    ∃ impl, runner'.outImpl = some impl ∧ impl.running = true ∧
      impl.workers = runner'.threads := by
  simp only [AlgoRunner.init, hnone, hzero, AlgoRunnerIpml.init, Bool.false_eq_true, if_false,
    Option.map_eq_some_iff] at h
  obtain ⟨impl, himpl, rfl⟩ := h
  split at himpl
  · cases himpl
  · cases himpl
    exact ⟨_, rfl, rfl, (Nat.zero_add _).symm⟩

theorem deinit_runner {runner : AlgoRunner} {impl : AlgoRunnerIpml}
    (himpl : runner.outImpl = some impl) (hrunning : impl.running = true)
    (hworkers : impl.workers = runner.threads) :
    runner.deinit = { outImpl := none, threads := 0 } := by
  simp [AlgoRunner.deinit, AlgoRunnerIpml.deinit, himpl, hrunning, hworkers]

/-- A call whose bind does not fail keeps the flags in agreement. -/
theorem consistent_step (app : Lifecycle) (c : Call) (app' : Lifecycle) (h : app.Consistent)
    (hok : app.Binds c) (hs : app.step c = some app') : app'.Consistent := by
  obtain ⟨⟨code, app''⟩, hcall, rfl⟩ := Option.map_eq_some_iff.mp hs
  cases c with
  | init binds creates =>
      simp only [call, init] at hcall
      split at hcall
      · cases hcall
        exact h
      · next hoff =>
          obtain ⟨runner, hrunner, heq⟩ := Option.map_eq_some_iff.mp hcall
          obtain ⟨hnone, hzero⟩ := h.off (by simpa using hoff)
          cases binds with
          | true =>
              cases heq
              exact ⟨nofun, fun _ => init_runner_cases hnone hzero hrunner⟩
          | false =>
              rcases hok creates rfl with hon | hthrow
              · exact absurd hon hoff
              · rw [hthrow] at hrunner
                cases hrunner
  | deinit =>
      simp only [call, deinit] at hcall
      split at hcall
      · cases hcall
        exact h
      · next hon =>
          cases hcall
          obtain ⟨impl, himpl, hrunning, hworkers⟩ := h.on (by simpa using hon)
          refine ⟨fun _ => ?_, nofun⟩
          rw [deinit_runner himpl hrunning hworkers]
          exact ⟨rfl, rfl⟩

/-- A bind that fails leaves a runner behind. -/
theorem not_consistent_of_bind_fails {app : Lifecycle} {c : Call} (h : ¬ app.Binds c) :
    ∃ app', app.step c = some app' ∧ ¬ app'.Consistent := by
  simp only [Binds, not_forall, not_or] at h
  obtain ⟨creates, rfl, hoff, hthrow⟩ := h
  obtain ⟨runner, hrunner⟩ := Option.ne_none_iff_exists'.mp hthrow
  have hsome : runner.outImpl ≠ none := by
    unfold AlgoRunner.init at hrunner
    split at hrunner
    · next himpl =>
        cases hrunner
        simp [himpl]
    · obtain ⟨impl, -, rfl⟩ := Option.map_eq_some_iff.mp hrunner
      simp
  refine ⟨{ app with mAlgoRunner := runner }, ?_, fun hcons => ?_⟩
  · simp [step, call, init, hoff, hrunner]
  · exact hsome (hcons.off (by simpa using hoff)).1

/-- After every call of a sequence the flags agree exactly when no `init` of the
sequence gets to a bind that fails. -/
theorem consistent_iff (threads : Int32) (calls : List Call) :
    (∀ before, before <+: calls → ∀ app, run step (create threads) before = some app →
      app.Consistent) ↔ Guarded step Binds (create threads) calls := by
  constructor
  · suffices hgen : ∀ app : Lifecycle,
        (∀ before, before <+: calls → ∀ app', run step app before = some app' →
          app'.Consistent) → Guarded step Binds app calls from hgen _
    induction calls with
    | nil => exact fun _ _ => trivial
    | cons c calls ih =>
        intro app h
        refine ⟨?_, fun t ht => ih t fun before hbefore app' hrun => ?_⟩
        · by_contra hfails
          obtain ⟨t, ht, hbad⟩ := not_consistent_of_bind_fails hfails
          refine hbad (h [c] ?_ t (by rw [run_singleton, ht]))
          exact List.cons_prefix_cons.mpr ⟨rfl, List.nil_prefix⟩
        · exact h (c :: before) (List.cons_prefix_cons.mpr ⟨rfl, hbefore⟩) app'
            (run_cons_eq_some.mpr ⟨t, ht, hrun⟩)
  · rintro hok before ⟨after, rfl⟩ app hrun
    exact run_invariant_of_guarded consistent_step (consistent_create threads)
      (guarded_append.mp hok).1 hrun

/-- A server with four threads whose bind fails reports the failure, keeps its four
workers, and refuses `deinit`. -/
theorem failed_bind_leaves_threads :
    ∃ app, (create 4).call (.init false fun _ => true) = some (ecFailure, app) ∧
      app.mInitialized = false ∧ app.mAlgoRunner.threads = 4 ∧
      app.call .deinit = some (ecFailure, app) ∧ ¬ app.Consistent := by
  refine ⟨{ mThreads := 4
            mAlgoRunner := { outImpl := some { maxThreads := 4, workers := 4, running := true }
                             threads := 4 } }, by decide, rfl, rfl, by decide, fun h => ?_⟩
  exact absurd (h.off rfl).2 (by decide)

end Lifecycle

end InterProcess
