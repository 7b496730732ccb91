import InterProcess.Server.Turns

/-!
# The server process

`main` of the server from `serverInitialize` to its `return`. The main thread starts the
runner, is in the loop of `Application::run` until a stop flag or an exception ends it, and
joins the workers in `deinit`; the workers move all the while, and the handler of the two
signals may run at any time.

A turn of the loop meets a `Serving.Turn`: any of its statements may throw, and the socket
need not take a frame. What the turn does with its message is a step of `Server.step`, as far
as the turn comes to it; whether the loop goes on and which clients it knows then is what
`Serving.Turn.body` says. What `handleEnvelope` throws it throws before it calls the runner,
and of a reply of which the socket takes the first frame only nothing is sent.

The handler sets a flag that the loop tests before it receives. A message that the main
thread is already waiting for when the signal comes is still served.
-/

namespace InterProcess

open Transition

/-- Where the main thread of the server is. -/
inductive Main where
  /-- at `serverInitialize` -/
  | init
  /-- at the test of the loop in `Application::run` -/
  | loopTest
  /-- in the body of the loop -/
  | body
  /-- at `serverDeinitialize` -/
  | deinit
  /-- in `AlgoRunnerIpml::deinit` -/
  | join
  /-- `main` has returned -/
  | returned (code : Int32)
  /-- an exception that nobody catches has ended the process -/
  | terminated
  deriving DecidableEq, Repr

def Main.alive : Main → Bool
  | .returned _ | .terminated => false
  | _ => true

theorem Main.alive_of_ne {m : Main} (hcode : ∀ code, m ≠ .returned code) (hend : m ≠ .terminated) :
    m.alive = true := by
  cases m with
  | returned code => exact absurd rfl (hcode code)
  | terminated => exact absurd rfl hend
  | _ => rfl

/-- The server process. -/
structure Process where
  app : Lifecycle
  server : Server := {}
  /-- the turn of the loop whose request is in the runner -/
  turn : Serving.Turn := {}
  sigStop : Bool := false
  main : Main := .init

namespace Server

theorem busy_of_think {codec : Codec} {s s' : Server} {choice : Choice}
    (hstep : step codec s (.thread choice) = some s') (hanswer : s.answer codec (.thread choice) = none) :
    s'.thread = s.thread ∧ s'.thread ≠ .receive ∧ s'.sent = s.sent := by
  cases (step_cases hstep).2 with
  | think client tag _ hbusy => exact ⟨hbusy.symm, by simp, rfl⟩
  | ran _ _ _ _ _ _ sreq response hran => simp [answer, hran] at hanswer
  | got _ _ _ _ _ _ greq response hgot => simp [answer, hgot] at hanswer

end Server

namespace Process

inductive Label where
  /-- `serverInitialize`, with whether `mRouter.bind` returns and which threads can be
  created -/
  | init (binds : Bool) (creates : ℕ → Bool)
  /-- `SIGINT` or `SIGTERM` -/
  | signal
  /-- the test of the loop -/
  | test
  /-- the body of the loop, up to a call of the runner; `tag` names the message, and of the turn
  only what it receives, what throws and what the socket takes is read -/
  | recv (tag : ℕ) (turn : Serving.Turn)
  /-- the main thread moves on in the runner -/
  | thread (choice : Choice)
  /-- `serverDeinitialize` -/
  | deinit
  | worker (i : ℕ)

/-- The message that arrives with the step. -/
def Label.arrival : Label → Option Arrival
  | .recv tag turn => turn.takes.map fun frames => (⟨frames.1, frames.2, tag⟩, turn)
  | _ => none

/-- The process before `main` calls `serverInitialize`. -/
def start (threads : Int32) : Process := { app := .create threads }

@[simps] def withServer (p : Process) (server : Server) (main : Main) : Process :=
  { p with server, main }

@[simps!] def withRunner (p : Process) (pool : Pool) (main : Main) : Process :=
  p.withServer (p.server.withRunner pool p.server.thread) main

/-- `serverInitialize`, and the test before the loop of `Application::run`. -/
def init (p : Process) (binds : Bool) (creates : ℕ → Bool) : Process :=
  match p.app.init binds creates with
  | none => { p with main := .terminated }
  | some (code, app) =>
      { p with
        app
        server := Server.start app.mAlgoRunner.threads
        main := if code = ecSuccess ∧ app.mInitialized = true then .loopTest else .deinit }

def deinitializeLogging : Int32 := ecSuccess

/-- The end of `main`. The code of `serverDeinitialize` is overwritten. -/
@[simps] def finish (p : Process) (result : Int32 × Lifecycle) : Process :=
  { p with app := result.2, main := .returned deinitializeLogging }

/-- The member that the loop reads. Its local `result` is set again before it is read. -/
def loop (p : Process) : Serving.Loop := { mClientExecCaps := p.server.mClientExecCaps }

/-- The end of a turn that leaves the body with `exit`. The loop goes on, or `run` returns. -/
@[simps app turn sigStop main] def conclude (p : Process) (server : Server) (sends : Bool)
    (exit : Except Serving.Exit Unit × Serving.Loop) : Process :=
  { p with
    server :=
      { server with
        mClientExecCaps := exit.2.mClientExecCaps
        sent := if sends then server.sent else p.server.sent }
    main := if exit.1.isOk then .loopTest else .deinit }

@[simp] theorem conclude_server (p : Process) (server : Server) (sends : Bool)
    (exit : Except Serving.Exit Unit × Serving.Loop) :
    (p.conclude server sends exit).server =
      { server with
        mClientExecCaps := exit.2.mClientExecCaps
        sent := if sends then server.sent else p.server.sent } := rfl

/-- The body of the loop, up to a call of the runner. -/
def recv (codec : Codec) (p : Process) (tag : ℕ) (turn : Serving.Turn) : Option Process :=
  let exit := (turn.body codec).run.run p.loop
  match turn.takes with
  | none => some (p.conclude p.server false exit)
  | some (client, payload) =>
      (p.server.step codec (.recv client payload tag)).map fun server =>
        if server.thread = .receive then
          p.conclude server
            (turn.delivers codec (p.server.mClientExecCaps client).isSome payload) exit
        else if turn.enters then { p with server, turn }
        else p.conclude p.server false exit

/-- A step of the main thread in the runner. When the call returns, the turn goes on. -/
def advance (codec : Codec) (p : Process) (choice : Choice) : Option Process :=
  (p.server.step codec (.thread choice)).map fun server =>
    match p.server.answer codec (.thread choice) with
    | none => { p with server }
    | some response =>
        p.conclude server p.turn.replies ((p.turn.reply codec response).run.run p.loop)

/-- One step of the process. Nothing moves after a trap. -/
def step (codec : Codec) (p : Process) (l : Label) : Option Process :=
  if p.server.mAlgoRunner.trapped || !p.main.alive then none
  else
    match l with
    | .init binds creates => if p.main = .init then some (p.init binds creates) else none
    | .signal => some { p with sigStop := true }
    | .test =>
        if p.main = .loopTest then
          some { p with main := if p.app.mInitialized && !p.sigStop then .body else .deinit }
        else none
    | .recv tag turn =>
        if p.main = .body ∧ p.server.thread = .receive then p.recv codec tag turn else none
    | .thread choice =>
        match p.main with
        | .body => p.advance codec choice
        | .join =>
            (p.server.mAlgoRunner.step (.caller 0 choice)).map fun pool =>
              if p.server.mAlgoRunner.callers 0 = .stopped then
                (p.withRunner pool .join).finish p.app.deinit
              else p.withRunner pool .join
        | _ => none
    | .deinit =>
        if p.main = .deinit then
          if p.app.mInitialized then
            (p.server.mAlgoRunner.step (.deinit 0)).map fun pool => p.withRunner pool .join
          else some (p.finish p.app.deinit)
        else none
    | .worker i =>
        (p.server.step codec (.worker i)).map fun server => p.withServer server p.main

inductive Step (codec : Codec) (p : Process) : Label → Process → Prop
  | init (hmain : p.main = .init) (binds : Bool) (creates : ℕ → Bool) :
      Step codec p (.init binds creates) (p.init binds creates)
  | signal : Step codec p .signal { p with sigStop := true }
  | enter (hmain : p.main = .loopTest) (hflag : p.sigStop = false) :
      Step codec p .test { p with main := .body }
  | leave (hmain : p.main = .loopTest) : Step codec p .test { p with main := .deinit }
  | missed (hmain : p.main = .body) (hfree : p.server.thread = .receive) (tag : ℕ)
      (turn : Serving.Turn) (htakes : turn.takes = none) :
      Step codec p (.recv tag turn) (p.conclude p.server false ((turn.body codec).run.run p.loop))
  | handled (hmain : p.main = .body) (hfree : p.server.thread = .receive) (tag : ℕ)
      (turn : Serving.Turn) (client payload : Bytes) (htakes : turn.takes = some (client, payload))
      (server : Server) (hserver : p.server.step codec (.recv client payload tag) = some server)
      (hdone : server.thread = .receive) :
      Step codec p (.recv tag turn) (p.conclude server
        (turn.delivers codec (p.server.mClientExecCaps client).isSome payload)
        ((turn.body codec).run.run p.loop))
  | entered (hmain : p.main = .body) (hfree : p.server.thread = .receive) (tag : ℕ)
      (turn : Serving.Turn) (client payload : Bytes) (htakes : turn.takes = some (client, payload))
      (server : Server) (hserver : p.server.step codec (.recv client payload tag) = some server)
      (hbusy : server.thread ≠ .receive) (henters : turn.enters = true) :
      Step codec p (.recv tag turn) { p with server, turn }
  | dropped (hmain : p.main = .body) (hfree : p.server.thread = .receive) (tag : ℕ)
      (turn : Serving.Turn) (client payload : Bytes) (htakes : turn.takes = some (client, payload))
      (server : Server) (hserver : p.server.step codec (.recv client payload tag) = some server)
      (hbusy : server.thread ≠ .receive) (henters : turn.enters = false) :
      Step codec p (.recv tag turn) (p.conclude p.server false ((turn.body codec).run.run p.loop))
  | think (hmain : p.main = .body) (choice : Choice) (server : Server)
      (hserver : p.server.step codec (.thread choice) = some server)
      (hanswer : p.server.answer codec (.thread choice) = none) :
      Step codec p (.thread choice) { p with server }
  | answered (hmain : p.main = .body) (choice : Choice) (server : Server)
      (hserver : p.server.step codec (.thread choice) = some server) (response : EnvelopeResp)
      (hanswer : p.server.answer codec (.thread choice) = some response) :
      Step codec p (.thread choice) (p.conclude server p.turn.replies
        ((p.turn.reply codec response).run.run p.loop))
  | join (hmain : p.main = .join) (choice : Choice) (pool : Pool)
      (hpool : p.server.mAlgoRunner.step (.caller 0 choice) = some pool)
      (hpc : p.server.mAlgoRunner.callers 0 ≠ .stopped) :
      Step codec p (.thread choice) (p.withRunner pool .join)
  | joined (hmain : p.main = .join) (choice : Choice) (pool : Pool)
      (hpool : p.server.mAlgoRunner.step (.caller 0 choice) = some pool)
      (hpc : p.server.mAlgoRunner.callers 0 = .stopped) :
      Step codec p (.thread choice) ((p.withRunner pool .join).finish p.app.deinit)
  | deinit (hmain : p.main = .deinit) (hon : p.app.mInitialized = true) (pool : Pool)
      (hpool : p.server.mAlgoRunner.step (.deinit 0) = some pool) :
      Step codec p .deinit (p.withRunner pool .join)
  | refused (hmain : p.main = .deinit) (hoff : p.app.mInitialized = false) :
      Step codec p .deinit (p.finish p.app.deinit)
  | worker (i : ℕ) (pool : Pool) (hpool : p.server.mAlgoRunner.step (.worker i) = some pool) :
      Step codec p (.worker i) (p.withRunner pool p.main)

variable {codec : Codec} {p p' q : Process} {l : Label} {ls : List Label}

theorem recv_cases {tag : ℕ} {turn : Serving.Turn} (hmain : p.main = .body)
    (hfree : p.server.thread = .receive) (h : p.recv codec tag turn = some p') :
    Step codec p (.recv tag turn) p' := by
  unfold recv at h
  dsimp only at h
  split at h
  · next htakes => cases h; exact .missed hmain hfree tag turn htakes
  · next client payload htakes =>
      obtain ⟨server, hserver, rfl⟩ := Option.map_eq_some_iff.mp h
      split
      · next hdone => exact .handled hmain hfree tag turn client payload htakes server hserver hdone
      · next hbusy =>
          split
          · next henters =>
              exact .entered hmain hfree tag turn client payload htakes server hserver hbusy henters
          · next henters =>
              exact .dropped hmain hfree tag turn client payload htakes server hserver hbusy
                (Bool.eq_false_of_not_eq_true henters)

theorem advance_cases {choice : Choice} (hmain : p.main = .body)
    (h : p.advance codec choice = some p') : Step codec p (.thread choice) p' := by
  obtain ⟨server, hserver, rfl⟩ := Option.map_eq_some_iff.mp h
  split
  · next hanswer => exact .think hmain choice server hserver hanswer
  · next response hanswer => exact .answered hmain choice server hserver response hanswer

/-- The inversion of `Process.step`. -/
theorem step_cases (h : step codec p l = some p') :
    p.server.mAlgoRunner.trapped = false ∧ p.main.alive = true ∧ Step codec p l p' := by
  unfold step at h
  split at h
  · cases h
  · next hguard =>
      simp only [Bool.or_eq_true, Bool.not_eq_true', not_or, Bool.not_eq_true,
        Bool.not_eq_false] at hguard
      refine ⟨hguard.1, hguard.2, ?_⟩
      cases l with
      | init binds creates =>
          dsimp only at h
          split at h
          · next hmain => cases h; exact .init hmain binds creates
          · cases h
      | signal => cases h; exact .signal
      | test =>
          dsimp only at h
          split at h
          · next hmain =>
              obtain rfl := Option.some.inj h
              split
              · next hgo => exact .enter hmain (by simp_all)
              · exact .leave hmain
          · cases h
      | recv tag turn =>
          dsimp only at h
          split at h
          · next hat => exact recv_cases hat.1 hat.2 h
          · cases h
      | thread choice =>
          dsimp only at h
          split at h
          · next hmain => exact advance_cases hmain h
          · next hmain =>
              obtain ⟨pool, hpool, rfl⟩ := Option.map_eq_some_iff.mp h
              split
              · next hpc => exact .joined hmain choice pool hpool hpc
              · next hpc => exact .join hmain choice pool hpool hpc
          · cases h
      | deinit =>
          dsimp only at h
          split at h
          · next hmain =>
              split at h
              · next hon =>
                  obtain ⟨pool, hpool, rfl⟩ := Option.map_eq_some_iff.mp h
                  exact .deinit hmain hon pool hpool
              · next hoff => cases h; exact .refused hmain (by simpa using hoff)
          · cases h
      | worker i =>
          obtain ⟨server, hserver, rfl⟩ := Option.map_eq_some_iff.mp h
          cases (Server.step_cases hserver).2 with
          | worker i pool hpool => exact .worker i pool hpool

/-! ### After the signal -/

/-- The messages that may still come in once the flag is set. -/
def awaits (p : Process) : ℕ := if p.main = .body ∧ p.server.thread = .receive then 1 else 0

theorem awaits_le_one (p : Process) : p.awaits ≤ 1 := by
  unfold awaits
  split <;> simp

theorem awaits_eq_zero (h : p.main = .body → p.server.thread ≠ .receive) : p.awaits = 0 :=
  if_neg fun hat => h hat.1 hat.2

theorem awaits_conclude (server : Server) (sends : Bool)
    (exit : Except Serving.Exit Unit × Serving.Loop) : (p.conclude server sends exit).awaits = 0 := by
  refine awaits_eq_zero fun hmain => ?_
  rw [conclude_main] at hmain
  split at hmain <;> cases hmain

theorem sigStop_init (binds : Bool) (creates : ℕ → Bool) :
    (p.init binds creates).sigStop = p.sigStop := by
  unfold init
  split <;> rfl

theorem main_init_ne_body (binds : Bool) (creates : ℕ → Bool) :
    (p.init binds creates).main ≠ .body := by
  unfold init
  split
  · simp
  · dsimp only
    split <;> simp

theorem arrival_recv {tag : ℕ} {turn : Serving.Turn} {client payload : Bytes}
    (htakes : turn.takes = some (client, payload)) :
    (Label.recv tag turn).arrival = some (⟨client, payload, tag⟩, turn) := by
  simp [Label.arrival, htakes]

theorem arrival_missed {tag : ℕ} {turn : Serving.Turn} (htakes : turn.takes = none) :
    (Label.recv tag turn).arrival = none := by
  simp [Label.arrival, htakes]

theorem awaits_step (hflag : p.sigStop = true) (hstep : step codec p l = some p') :
    p'.sigStop = true ∧ l.arrival.toList.length + p'.awaits ≤ p.awaits := by
  obtain ⟨-, -, hs⟩ := step_cases hstep
  have hone : p.main = .body → p.server.thread = .receive → p'.awaits = 0 →
      l.arrival.toList.length + p'.awaits ≤ p.awaits := by
    intro hmain hfree hzero
    rw [hzero, awaits, if_pos ⟨hmain, hfree⟩]
    cases l.arrival <;> simp
  cases hs with
  | init hmain binds creates =>
      refine ⟨(sigStop_init binds creates).trans hflag, ?_⟩
      rw [awaits_eq_zero fun hbody => absurd hbody (main_init_ne_body binds creates)]
      exact Nat.zero_le _
  | signal => exact ⟨rfl, (Nat.zero_add _).le⟩
  | enter _ hdown => exact absurd (hflag.symm.trans hdown) (by decide)
  | missed hmain hfree | handled hmain hfree | dropped hmain hfree =>
      exact ⟨hflag, hone hmain hfree (awaits_conclude ..)⟩
  | entered hmain hfree tag turn client payload htakes server hserver hbusy =>
      exact ⟨hflag, hone hmain hfree (awaits_eq_zero fun _ => hbusy)⟩
  | think hmain choice server hserver hanswer =>
      refine ⟨hflag, ?_⟩
      rw [awaits_eq_zero fun _ => (Server.busy_of_think hserver hanswer).2.1]
      exact Nat.zero_le _
  | answered =>
      refine ⟨hflag, ?_⟩
      rw [awaits_conclude]
      exact Nat.zero_le _
  | leave | join | joined | deinit | refused =>
      refine ⟨hflag, ?_⟩
      rw [awaits_eq_zero fun hbody => by cases hbody]
      exact Nat.zero_le _
  | worker i pool hpool => exact ⟨hflag, (Nat.zero_add _).le⟩

theorem filterMap_arrival_cons (l : Label) (ls : List Label) :
    (l :: ls).filterMap Label.arrival = l.arrival.toList ++ ls.filterMap Label.arrival := by
  cases h : l.arrival <;> simp [h]

/-- Once the flag is set, at most one more message comes in: the one that the main thread
may be waiting for. -/
theorem arrivals_after_stop (hflag : p.sigStop = true) (hrun : run (step codec) p ls = some q) :
    (ls.filterMap Label.arrival).length ≤ p.awaits := by
  induction ls generalizing p with
  | nil => exact Nat.zero_le _
  | cons l ls ih =>
      obtain ⟨p', hp', hrest⟩ := run_cons_eq_some.mp hrun
      obtain ⟨hflag', hle⟩ := awaits_step hflag hp'
      have hafter := ih hflag' hrest
      rw [filterMap_arrival_cons, List.length_append]
      omega

end Process

end InterProcess
