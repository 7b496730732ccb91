import InterProcess.Client.Output
import InterProcess.Library.Since
import InterProcess.Network.Loop
import InterProcess.Server.Lifecycle

/-!
# A session at the terminal

`client::Application::run` as a whole, from its banner to its end: every turn tests the
stop flag, prints the prompt, reads a line of the standard input, and prints what comes of
it. A turn is a function of what the world decides in it (`Terminal.Event`).

`mSocket.send` and `recv_multipart` throw a `zmq::error_t` where they do not just fail, as
when a signal interrupts them. Nothing up to `main` catches it, so the process is terminated.
That memory runs out is left aside.

`turn_cases` says once what a turn can do.
-/

namespace InterProcess

open Scan

theorem Terminal.perm_id (order : List UInt64) : (id order).Perm order := .refl _

/-- The calls of the client's socket that can throw. -/
inductive SocketCall where
  | send
  | recvMultipart
  deriving DecidableEq, Repr

/-- How `Application::run` is left. -/
inductive Ending where
  | returned (code : Int32)
  /-- an exception ends the process -/
  | thrown
  deriving DecidableEq, Repr

/-- What the world decides in a turn of the loop. -/
structure Terminal.Event where
  /-- the stop flag is set when the loop tests it -/
  sigStop : Bool := false
  /-- `fgets` meets no error -/
  readable : Bool := true
  /-- the socket takes the message of the call -/
  taken : Bool := true
  /-- the message that arrives for it -/
  frame : Option Bytes := none
  /-- the call of the socket that throws, if the turn comes to it -/
  thrown : Option SocketCall := none
  /-- how the entries of `pending` are arranged anew when one is inserted -/
  rehash : List UInt64 → List UInt64 := id
  perm : ∀ order, (rehash order).Perm order := by exact perm_id

/-- The socket takes the message, and `send` returns. -/
def Terminal.Event.accepts (e : Event) : Bool := e.taken && decide (e.thrown ≠ some .send)

/-- The call comes to the statement that throws. `send` has a message that was serialised, and
`recv_multipart` stands behind the return for a message that was not sent. -/
def Call.throws (codec : Codec) (call : Call) (e : Terminal.Event) : Bool :=
  match e.thrown with
  | none => false
  | some .send => (codec.serializeReq call.envelope).isSome
  | some .recvMultipart =>
      !call.checksSend || (sendEnvelope codec call.envelope e.taken).isSome

def Command.granted (command : Command) (result : Return) : Option Ticket :=
  match command, result with
  | .math false _ _ _, .submit true sresp | .str false _ _ _, .submit true sresp => sresp.ticket
  | _, _ => none

def Command.finished (command : Command) (result : Return) : Option UInt64 :=
  match command, result with
  | .get ticketId _, .get true gres =>
      if gres.status ≠ .stNotFinished then some ticketId else none
  | _, _ => none

/-- The locals of `Application::run` and what it has read, sent and printed. -/
structure Terminal where
  shell : Shell := {}
  /-- the tickets in `pending` in the order of an iteration -/
  order : List UInt64 := []
  /-- the standard input that is not read yet -/
  input : Bytes
  sent : List Bytes := []
  printed : Bytes := ascii "Client started. Type 'help' for commands.\n"
  ending : Option Ending := none

namespace Terminal

@[simps] def print (t : Terminal) (text : Bytes) : Terminal := { t with printed := t.printed ++ text }

@[simps!] def exit (t : Terminal) : Terminal :=
  { t.print (ascii "Exiting...\n") with ending := some (.returned ecSuccess) }

/-- The order of an iteration after a call. An erasure leaves the others where they are. -/
def reorder (order : List UInt64) (e : Event) (command : Command) (result : Return) :
    List UInt64 :=
  match command.granted result, command.finished result with
  | some ticket, _ => if ticket.reqId ∈ order then order else e.rehash (ticket.reqId :: order)
  | none, some ticketId => order.erase ticketId
  | none, none => order

@[simps] def settle (codec : Codec) (t : Terminal) (e : Event) (command : Command) (call : Call) :
    Terminal where
  shell := t.shell.settle command (call.exchange codec e.taken e.frame)
  order := reorder t.order e command (call.exchange codec e.taken e.frame)
  input := t.input
  sent := t.sent ++ (sendEnvelope codec call.envelope e.taken).toList
  printed := t.printed ++ command.prints (call.exchange codec e.taken e.frame)
  ending :=
    if (t.shell.settle command (call.exchange codec e.taken e.frame)).left then
      some (.returned ecFailure)
    else t.ending

/-- An exception leaves the call. If `send` has thrown, nothing was sent. -/
@[simps] def abort (codec : Codec) (t : Terminal) (e : Event) (call : Call) : Terminal :=
  { t with
    sent := t.sent ++ (sendEnvelope codec call.envelope e.accepts).toList
    ending := some .thrown }

def obey (codec : Codec) (t : Terminal) (e : Event) (command : Command) : Terminal :=
  match t.shell.call command with
  | none => t.exit
  | some call => if call.throws codec e then t.abort codec e call else t.settle codec e command call

def enter (codec : Codec) (t : Terminal) (e : Event) (line : Bytes) : Terminal :=
  match t.shell.read line with
  | .skip => t
  | .say text => t.print text
  | .list => t.print (printPending t.order)
  | .command command => t.obey codec e command

/-- The line that a turn reads, and what is left of the input. -/
def gets (t : Terminal) (e : Event) : Option (Bytes × Bytes) :=
  if e.readable then nextLine t.input else none

/-- The loop with the prompt printed and this input left. -/
@[simps!] def prompted (t : Terminal) (rest : Bytes) : Terminal :=
  { t.print (ascii ">> ") with input := rest }

def turn (codec : Codec) (t : Terminal) (e : Event) : Terminal :=
  if t.ending ≠ none then t
  else if e.sigStop then t.exit
  else
    match t.gets e with
    | none => (t.prompted t.input).exit
    | some (line, rest) => (t.prompted rest).enter codec e line

def run (codec : Codec) (t : Terminal) (es : List Event) : Terminal := es.foldl (turn codec) t

inductive Turn (codec : Codec) (t : Terminal) (e : Event) : Terminal → Prop
  | left (hleft : t.ending ≠ none) : Turn codec t e t
  | stopped (hin : t.ending = none) (hstop : e.sigStop = true) : Turn codec t e t.exit
  | ended (hin : t.ending = none) (hstop : e.sigStop = false) (hgets : t.gets e = none) :
      Turn codec t e (t.prompted t.input).exit
  | quit (hin : t.ending = none) (hstop : e.sigStop = false) (line rest : Bytes)
      (hgets : t.gets e = some (line, rest)) (command : Command)
      (hread : t.shell.read line = .command command) (hcall : t.shell.call command = none) :
      Turn codec t e (t.prompted rest).exit
  | said (hin : t.ending = none) (hstop : e.sigStop = false) (line rest : Bytes)
      (hgets : t.gets e = some (line, rest))
      (hread : ∀ command, t.shell.read line ≠ .command command) (text : Bytes) :
      Turn codec t e ((t.prompted rest).print text)
  | called (hin : t.ending = none) (hstop : e.sigStop = false) (line rest : Bytes)
      (hgets : t.gets e = some (line, rest)) (command : Command)
      (hread : t.shell.read line = .command command) (call : Call)
      (hcall : t.shell.call command = some call) (hquiet : call.throws codec e = false) :
      Turn codec t e ((t.prompted rest).settle codec e command call)
  | threw (hin : t.ending = none) (hstop : e.sigStop = false) (line rest : Bytes)
      (hgets : t.gets e = some (line, rest)) (command : Command)
      (hread : t.shell.read line = .command command) (call : Call)
      (hcall : t.shell.call command = some call) (hthrows : call.throws codec e = true) :
      Turn codec t e ((t.prompted rest).abort codec e call)

variable {codec : Codec} {t t' : Terminal} {e : Event}

@[simp] theorem run_nil (codec : Codec) (t : Terminal) : run codec t [] = t := rfl

theorem run_append (codec : Codec) (t : Terminal) (es es' : List Event) :
    run codec t (es ++ es') = run codec (run codec t es) es' := by
  simp [run]

theorem run_of_ended (h : t.ending ≠ none) (es : List Event) : run codec t es = t := by
  induction es with
  | nil => rfl
  | cons e es ih =>
      have hturn : t.turn codec e = t := by rw [turn, if_pos h]
      rw [run, List.foldl_cons, hturn, ← run, ih]

def Reads (t : Terminal) (e : Event) (line : Bytes) : Prop :=
  t.ending = none ∧ e.sigStop = false ∧ ∃ rest, t.gets e = some (line, rest)

def Makes (t : Terminal) (e : Event) (command : Command) (call : Call) : Prop :=
  ∃ line, t.Reads e line ∧ t.shell.read line = .command command ∧
    t.shell.call command = some call

theorem Reads.unique {line line' : Bytes} (h : t.Reads e line) (h' : t.Reads e line') :
    line = line' := by
  obtain ⟨-, -, rest, hgets⟩ := h
  obtain ⟨-, -, rest', hgets'⟩ := h'
  exact congrArg Prod.fst (Option.some.inj (hgets.symm.trans hgets'))

theorem Makes.unique {command command' : Command} {call call' : Call}
    (h : t.Makes e command call) (h' : t.Makes e command' call') :
    command = command' ∧ call = call' := by
  obtain ⟨line, hreads, hread, hcall⟩ := h
  obtain ⟨line', hreads', hread', hcall'⟩ := h'
  obtain rfl := hreads.unique hreads'
  obtain rfl := Reading.command.inj (hread.symm.trans hread')
  exact ⟨rfl, Option.some.inj (hcall.symm.trans hcall')⟩

def Throws (codec : Codec) (t : Terminal) (e : Event) : Prop :=
  ∃ command call, t.Makes e command call ∧ call.throws codec e = true

def FailsMath (codec : Codec) (t : Terminal) (e : Event) : Prop :=
  ∃ command call, t.Makes e command call ∧ command.IsMath ∧ call.throws codec e = false ∧
    (call.exchange codec e.taken e.frame).ok = false

/-- The return after a math command that failed: nothing is printed any more. -/
def Failed (t t' : Terminal) : Prop :=
  t'.ending = some (.returned ecFailure) ∧ t'.printed = t.printed ++ ascii ">> "

/-- The end of the process by an exception. -/
def Aborted (t t' : Terminal) : Prop :=
  t'.ending = some .thrown ∧ t'.printed = t.printed ++ ascii ">> "

/-- The return at the end of the loop, with or without a prompt before it. -/
def Exited (t t' : Terminal) : Prop :=
  t'.ending = some (.returned ecSuccess) ∧
    (t'.printed = t.printed ++ ascii "Exiting...\n" ∨
      t'.printed = t.printed ++ ascii ">> " ++ ascii "Exiting...\n")

/-- How the turn in which a session ends depends on its call. -/
inductive Ended (codec : Codec) (t : Terminal) (e : Event) (t' : Terminal) : Prop
  | aborted (hthrows : t.Throws codec e) (h : Aborted t t')
  | failed (hquiet : ¬t.Throws codec e) (hfails : t.FailsMath codec e) (h : Failed t t')
  | exited (hquiet : ¬t.Throws codec e) (hok : ¬t.FailsMath codec e) (h : Exited t t')

def silence : List Event := List.replicate 20 {}

end Terminal

end InterProcess
