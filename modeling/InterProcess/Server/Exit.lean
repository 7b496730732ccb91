import InterProcess.Library.Exit
import InterProcess.Message.Wire
import InterProcess.Server.Application
import InterProcess.Server.Lifecycle

/-!
# The end of the server's loop

`Application::run` of the server with its exits: the two flags, the early returns
after a send, and the three `catch` clauses. A statement of the body can throw, and
which one does is part of the turn, as are the message that arrives, what the runner
returns and whether the socket takes a reply. The replies themselves are left to
`Server.recv`, with which the body agrees about the table of the clients.

The clauses for an unexpected exception set `result`, but what is returned after the
loop is the constant `EC_SUCCESS`.
-/

namespace InterProcess

open Transition Exits

namespace Serving

inductive Thrown where
  /-- `zmq::error_t` with its `num()` -/
  | zmq (num : Int32)
  /-- `std::exception` -/
  | std
  | unknown
  deriving DecidableEq, Repr

def eintr : Int32 := 4

/-- `ZMQ_HAUSNUMERO + 53`. -/
def eterm : Int32 := 156384712 + 53

/-- The exception that the first `catch` takes for an interruption. -/
def Thrown.Interrupts : Thrown → Prop
  | .zmq num => num = eintr ∨ num = eterm
  | .std | .unknown => False

/-- How the body of the loop is left. -/
inductive Exit where
  | returned (code : Int32)
  | threw (thrown : Thrown)
  deriving DecidableEq, Repr

/-- The statements of the body that can throw. -/
inductive Statement where
  | recvMultipart
  | copyFrames
  | badResponse
  | sendBadId
  | sendBadBody
  | parseHandshake
  | register
  | parseRequest
  | handleEnvelope
  | serialize
  | makeFrames
  | sendId
  | sendBody
  deriving DecidableEq, Repr

/-- What a turn of the loop meets. -/
structure Turn where
  /-- the two flags at the test of the loop -/
  mInitialized : Bool := true
  mSigStop : Bool := false
  /-- the first and the last frame of the message, `none` if there is none -/
  received : Option (Bytes × Bytes) := none
  throws : Statement → Option Thrown := fun _ => none
  /-- whether the socket takes a frame -/
  taken : Statement → Bool := fun _ => true
  /-- `mAlgoRunner.run` -/
  run : SubmitRequest → Int32 × SubmitResponse := fun _ => (ecSuccess, {})
  /-- `mAlgoRunner.get` -/
  get : GetRequest → Int32 × GetResponse := fun _ => (ecSuccess, {})

/-- The member and the local that the loop changes. -/
structure Loop where
  mClientExecCaps : Table Bytes UInt8 := Table.empty
  result : Int32 := ecSuccess

/-- A part of the body of the loop. -/
abbrev Body := ExceptT Exit (StateM Loop)

namespace Turn

def attempt (turn : Turn) (statement : Statement) : Body Unit :=
  match turn.throws statement with
  | none => pure ()
  | some thrown => throw (.threw thrown)

/-- A send of the router with `RETURN_IF_ERROR`. -/
def send (turn : Turn) (statement : Statement) : Body Unit := do
  turn.attempt statement
  if turn.taken statement then pure () else throw (.returned ecFailure)

/-- `sendBadResponse`, which only prints that a send has failed. -/
def sendBadResponse (turn : Turn) : Body Unit := do
  turn.attempt .badResponse
  turn.attempt .sendBadId
  turn.attempt .sendBadBody

/-- `Application::handleEnvelope` with the code that it returns. -/
def handleEnvelope (turn : Turn) (request : EnvelopeReq) (clientExecCaps : UInt8) :
    Int32 × EnvelopeResp :=
  match InterProcess.handleEnvelope request clientExecCaps with
  | .reply response => (if request.req.isSome then ecSuccess else ecFailure, response)
  | .run sreq => ((turn.run sreq).1, { resp := some (.submit (turn.run sreq).2) })
  | .get greq => ((turn.get greq).1, { resp := some (.get (turn.get greq).2) })

def handshake (codec : Codec) (turn : Turn) (clientId payload : Bytes) : Body Unit := do
  turn.attempt .parseHandshake
  match codec.parseHandshake payload with
  | none => turn.sendBadResponse
  | some handshake =>
      let funcFlags := handshake.execFunctions.toUInt8
      if verifyExecCaps funcFlags then pure () else turn.sendBadResponse
      turn.attempt .register
      modify fun loop => { loop with mClientExecCaps := loop.mClientExecCaps.insert clientId funcFlags }

def reply (codec : Codec) (turn : Turn) (response : EnvelopeResp) : Body Unit := do
  turn.attempt .serialize
  match codec.serializeResp response with
  | none => pure ()
  | some _ =>
      turn.attempt .makeFrames
      turn.send .sendId
      turn.send .sendBody

def serve (codec : Codec) (turn : Turn) (clientExecCaps : UInt8) (payload : Bytes) : Body Unit := do
  turn.attempt .parseRequest
  match codec.parseReq payload with
  | none => turn.sendBadResponse
  | some request =>
      turn.attempt .handleEnvelope
      modify fun loop => { loop with result := (turn.handleEnvelope request clientExecCaps).1 }
      turn.reply codec (turn.handleEnvelope request clientExecCaps).2

/-- The `try` block. -/
def body (codec : Codec) (turn : Turn) : Body Unit := do
  turn.attempt .recvMultipart
  match turn.received with
  | none => pure ()
  | some (clientId, payload) =>
      turn.attempt .copyFrames
      let loop ← MonadState.get
      match loop.mClientExecCaps clientId with
      | none => turn.handshake codec clientId payload
      | some clientExecCaps => turn.serve codec clientExecCaps payload

end Turn

/-- What ended `Application::run`. -/
inductive Cause where
  | uninitialized
  /-- the test of the loop -/
  | stopped
  /-- `RETURN_IF_ERROR` in the body -/
  | sendFailed
  | caught (thrown : Thrown)
  deriving DecidableEq, Repr

/-- The server was asked to stop. -/
def Cause.Orderly : Cause → Prop
  | .stopped => True
  | .caught thrown => thrown.Interrupts
  | .uninitialized | .sendFailed => False

namespace Loop

/-- The `catch` clauses. -/
def catches (loop : Loop) : Thrown → Loop
  | .zmq num =>
      if num = eintr ∨ num = eterm then loop else { loop with result := ecFailure }
  | .std | .unknown => { loop with result := ecFailure }

/-- The `return` after the loop. -/
def returned (_ : Loop) : Int32 := ecSuccess

/-- The test of the loop and its body: the loop goes on, or it ends with a cause and the
code of `Application::run`. -/
def turn (codec : Codec) (loop : Loop) (turn : Turn) : Cause × Int32 ⊕ Loop :=
  if turn.mInitialized && !turn.mSigStop then
    match ((turn.body codec).run.run loop : Except Exit Unit × Loop) with
    | (.ok (), loop) => .inr loop
    | (.error (.returned code), _) => .inl (.sendFailed, code)
    | (.error (.threw thrown), loop) => .inl (.caught thrown, (loop.catches thrown).returned)
  else .inl (.stopped, loop.returned)

def step (codec : Codec) (loop : Loop) (t : Turn) : Option Loop := (loop.turn codec t).getRight?

/-- The loop over several turns. There is no end yet if the turns do not bring it. -/
def ending (codec : Codec) (loop : Loop) : List Turn → Option (Cause × Int32)
  | [] => none
  | t :: turns =>
      match loop.turn codec t with
      | .inl stop => some stop
      | .inr loop => loop.ending codec turns

end Loop

def run (codec : Codec) (mInitialized : Bool) (mClientExecCaps : Table Bytes UInt8)
    (turns : List Turn) : Option (Cause × Int32) :=
  if mInitialized then Loop.ending codec { mClientExecCaps } turns
  else some (.uninitialized, ecFailure)

/-- The table of the clients after a message. -/
def registered (codec : Codec) (mClientExecCaps : Table Bytes UInt8) (clientId payload : Bytes) :
    Table Bytes UInt8 :=
  match mClientExecCaps clientId, codec.parseHandshake payload with
  | none, some handshake =>
      mClientExecCaps.insert clientId handshake.execFunctions.toUInt8
  | _, _ => mClientExecCaps

/-- `Server.recv` keeps the same table of the clients. -/
theorem registered_of_recv {codec : Codec} {s s' : Server} {client payload : Bytes} {tag : ℕ}
    (h : s.recv codec client payload tag = some s') :
    s'.mClientExecCaps = registered codec s.mClientExecCaps client payload := by
  unfold Server.recv at h
  unfold registered
  cases hcaps : s.mClientExecCaps client with
  | none =>
      cases hparse : codec.parseHandshake payload with
      | none =>
          simp only [hcaps, hparse, Option.some.injEq] at h
          exact h ▸ rfl
      | some handshake =>
          simp only [hcaps, hparse, Option.some.injEq] at h
          rw [← h]
          split <;> rfl
  | some caps =>
      simp only [hcaps] at h
      split at h
      · cases h
        rfl
      · split at h
        · cases h
          exact Server.reply_mClientExecCaps ..
        · obtain ⟨pool, -, rfl⟩ := Option.map_eq_some_iff.mp h
          rfl
        · obtain ⟨pool, -, rfl⟩ := Option.map_eq_some_iff.mp h
          rfl

/-- A `return` in the body returns `EC_FAILURE`. -/
def Fails (exit : Exit) (_ : Loop) : Prop := ∀ code, exit = .returned code → code = ecFailure

namespace Turn

variable {codec : Codec} {turn : Turn} {loop : Loop} {Q : Unit → Loop → Prop}

theorem wp_attempt (statement : Statement) (h : Q () loop) :
    wp (turn.attempt statement) Q Fails loop := by
  unfold attempt
  cases turn.throws statement with
  | none => exact (wp_pure _).mpr h
  | some thrown =>
      apply (wp_throw _).mpr
      intro code hcode
      cases hcode

theorem wp_send (statement : Statement) (h : Q () loop) :
    wp (turn.send statement) Q Fails loop := by
  unfold send
  rw [wp_bind]
  apply wp_attempt
  rw [wp_ite, wp_pure, wp_throw]
  split
  · exact h
  · intro code hcode
    cases hcode
    rfl

theorem wp_sendBadResponse (h : Q () loop) : wp turn.sendBadResponse Q Fails loop := by
  unfold sendBadResponse
  simp only [wp_bind]
  exact wp_attempt _ (wp_attempt _ (wp_attempt _ h))

theorem wp_handshake (clientId payload : Bytes) (hnew : loop.mClientExecCaps clientId = none) :
    wp (turn.handshake codec clientId payload)
      (fun _ loop' => loop'.mClientExecCaps =
        registered codec loop.mClientExecCaps clientId payload) Fails loop := by
  unfold handshake registered
  rw [wp_bind, hnew]
  apply wp_attempt
  cases codec.parseHandshake payload with
  | none => exact wp_sendBadResponse rfl
  | some handshake =>
      simp only [wp_bind, wp_ite, wp_modify]
      split
      · exact wp_attempt _ rfl
      · exact wp_sendBadResponse (wp_attempt _ rfl)

theorem wp_reply (response : EnvelopeResp) (h : Q () loop) :
    wp (turn.reply codec response) Q Fails loop := by
  unfold reply
  rw [wp_bind]
  apply wp_attempt
  cases codec.serializeResp response with
  | none => exact h
  | some _ =>
      simp only [wp_bind]
      exact wp_attempt _ (wp_send _ (wp_send _ h))

theorem wp_serve (clientExecCaps : UInt8) (payload : Bytes) :
    wp (turn.serve codec clientExecCaps payload)
      (fun _ loop' => loop'.mClientExecCaps = loop.mClientExecCaps) Fails loop := by
  unfold serve
  rw [wp_bind]
  apply wp_attempt
  cases codec.parseReq payload with
  | none => exact wp_sendBadResponse rfl
  | some request =>
      simp only [wp_bind]
      apply wp_attempt
      rw [wp_modify]
      exact wp_reply _ rfl

/-- The table of the clients after a turn. -/
def registers (codec : Codec) (turn : Turn) (mClientExecCaps : Table Bytes UInt8) :
    Table Bytes UInt8 :=
  match turn.received with
  | none => mClientExecCaps
  | some (clientId, payload) => registered codec mClientExecCaps clientId payload

/-- What the body does, whatever the statements throw and the runner returns. -/
theorem wp_body (codec : Codec) (turn : Turn) (loop : Loop) :
    wp (turn.body codec)
      (fun _ loop' => loop'.mClientExecCaps = turn.registers codec loop.mClientExecCaps)
      Fails loop := by
  unfold body registers
  rw [wp_bind]
  apply wp_attempt
  cases turn.received with
  | none => rfl
  | some frames =>
      obtain ⟨clientId, payload⟩ := frames
      simp only [wp_bind]
      apply wp_attempt
      apply wp_get.mpr
      cases hcaps : loop.mClientExecCaps clientId with
      | none => exact wp_handshake clientId payload hcaps
      | some clientExecCaps =>
          have hregistered :
              registered codec loop.mClientExecCaps clientId payload = loop.mClientExecCaps := by
            simp [registered, hcaps]
          rw [hregistered]
          exact wp_serve clientExecCaps payload

end Turn

namespace Loop

/-- The exception that leaves the body in a turn. -/
def raised (codec : Codec) (loop : Loop) (t : Turn) : Option Thrown :=
  if t.mInitialized && !t.mSigStop then
    match ((t.body codec).run.run loop : Except Exit Unit × Loop) with
    | (.error (.threw thrown), _) => some thrown
    | _ => none
  else none

/-- No exception leaves the body in a turn, except an interruption. -/
def Quiet (codec : Codec) (loop : Loop) (t : Turn) : Prop :=
  ∀ thrown, loop.raised codec t = some thrown → thrown.Interrupts

/-- The turns of the loop. -/
inductive Turned (codec : Codec) (loop : Loop) (t : Turn) : Cause × Int32 ⊕ Loop → Prop
  | stopped (hraised : loop.raised codec t = none) :
      Turned codec loop t (.inl (.stopped, ecSuccess))
  | sendFailed (hraised : loop.raised codec t = none) :
      Turned codec loop t (.inl (.sendFailed, ecFailure))
  | caught (thrown : Thrown) (hraised : loop.raised codec t = some thrown) :
      Turned codec loop t (.inl (.caught thrown, ecSuccess))
  | goesOn (hraised : loop.raised codec t = none) (loop' : Loop)
      (hcaps : loop'.mClientExecCaps = t.registers codec loop.mClientExecCaps) :
      Turned codec loop t (.inr loop')

theorem turned (codec : Codec) (loop : Loop) (t : Turn) :
    loop.Turned codec t (loop.turn codec t) := by
  have hbody := t.wp_body codec loop
  unfold turn
  split
  · next hruns =>
      have hraised : loop.raised codec t =
          match ((t.body codec).run.run loop : Except Exit Unit × Loop) with
          | (.error (.threw thrown), _) => some thrown
          | _ => none := if_pos hruns
      split
      · next loop' hrun =>
          rw [hrun] at hraised
          exact .goesOn hraised loop' (of_wp_ok (a := ()) hbody hrun)
      · next code loop' hrun =>
          rw [hrun] at hraised
          obtain rfl : code = ecFailure := of_wp_error hbody hrun code rfl
          exact .sendFailed hraised
      · next thrown loop' hrun =>
          rw [hrun] at hraised
          exact .caught thrown hraised
  · next hruns => exact .stopped (if_neg hruns)

end Loop

/-- The code says why the loop has ended. -/
def Reports (stop : Option (Cause × Int32)) : Prop :=
  ∀ cause code, stop = some (cause, code) → (code = ecSuccess ↔ cause.Orderly)

theorem reports_some {cause : Cause} {code : Int32} :
    Reports (some (cause, code)) ↔ (code = ecSuccess ↔ cause.Orderly) := by
  constructor
  · exact fun h => h cause code rfl
  · rintro h _ _ ⟨⟩
    exact h

namespace Loop

variable {codec : Codec} {loop : Loop} {t : Turn}

theorem quiet_of_raised_none (h : loop.raised codec t = none) : loop.Quiet codec t := by
  intro thrown hthrown
  rw [h] at hthrown
  cases hthrown

/-- The turn that ends the loop is reported exactly when it is quiet. -/
theorem reports_turn {cause : Cause} {code : Int32} (h : loop.Turned codec t (.inl (cause, code))) :
    Reports (some (cause, code)) ↔ loop.Quiet codec t := by
  rw [reports_some]
  cases h with
  | stopped hraised =>
      exact iff_of_true ⟨fun _ => trivial, fun _ => rfl⟩ (quiet_of_raised_none hraised)
  | sendFailed hraised =>
      refine iff_of_true ⟨fun hcode => ?_, fun horderly => horderly.elim⟩
        (quiet_of_raised_none hraised)
      exact absurd hcode (by decide)
  | caught thrown hraised =>
      constructor
      · intro h thrown' hthrown
        obtain rfl : thrown = thrown' := Option.some.inj (hraised.symm.trans hthrown)
        exact h.mp rfl
      · exact fun h => ⟨fun _ => h thrown hraised, fun _ => rfl⟩

/-- The loop reports its end exactly when all its turns are quiet. -/
theorem reports_ending (codec : Codec) (loop : Loop) (turns : List Turn) :
    Reports (loop.ending codec turns) ↔ Guarded (step codec) (Quiet codec) loop turns := by
  induction turns generalizing loop with
  | nil => exact iff_of_true (fun _ _ h => by cases h) trivial
  | cons t turns ih =>
      have hturned := loop.turned codec t
      cases hturn : loop.turn codec t with
      | inl stop =>
          have hstep : loop.step codec t = none := by rw [step, hturn]; rfl
          rw [hturn] at hturned
          simp only [ending, hturn, Guarded, hstep, reduceCtorEq, false_implies, implies_true, and_true]
          exact reports_turn hturned
      | inr loop' =>
          have hstep : loop.step codec t = some loop' := by rw [step, hturn]; rfl
          have hquiet : loop.Quiet codec t := by
            rw [hturn] at hturned
            cases hturned with
            | goesOn hraised => exact quiet_of_raised_none hraised
          simp only [ending, hturn, Guarded, hstep, Option.some.injEq, forall_eq', hquiet,
            true_and]
          exact ih loop'

end Loop

/-- On an initialised server, `run` reports why it has stopped exactly when no turn raises
an exception that is not an interruption. -/
theorem run_reports_iff (codec : Codec) (mClientExecCaps : Table Bytes UInt8) (turns : List Turn) :
    Reports (run codec true mClientExecCaps turns) ↔
      Guarded (Loop.step codec) (Loop.Quiet codec) { mClientExecCaps } turns :=
  Loop.reports_ending codec { mClientExecCaps } turns

/-- `recv_multipart` throws a `std::exception`: the loop ends with `result` set to
`EC_FAILURE`, and `run` returns `EC_SUCCESS`. -/
theorem not_reports_exception :
    let turn : Turn := { throws := fun statement => if statement = .recvMultipart then some .std else none }
    run wireCodec true Table.empty [turn] = some (.caught .std, ecSuccess) ∧
      ¬Reports (run wireCodec true Table.empty [turn]) := by
  intro turn
  have hrun : run wireCodec true Table.empty [turn] = some (.caught .std, ecSuccess) := rfl
  refine ⟨hrun, fun hreports => ?_⟩
  rw [hrun, reports_some] at hreports
  exact hreports.mp rfl

end Serving

end InterProcess
