import InterProcess.Client.Application
import InterProcess.Library.Table

/-!
# The command loop of the client

`client::Application::run` from the point where a line has been understood as a
command. It keeps the tickets of non-blocking requests in `pending` and makes one
call for a command; `Shell.settle` is what it does with the return of that call.
A math command that fails ends the loop, a string command does not.
-/

namespace InterProcess

/-- A command of the user. A line that is not understood, `help` and `list` have no
effect on what is modelled. -/
inductive Command where
  | quit
  /-- `get <ticket>`, with the time of `wait <ms>` if that is given -/
  | get (ticketId : UInt64) (wait : Option UInt32)
  | math (isBlocking : Bool) (op : MathOp) (a b : Int32)
  | str (isBlocking : Bool) (op : StrOp) (s1 s2 : Bytes)
  deriving DecidableEq, Repr

def makeMath (op : MathOp) (a b : Int32) : SubmitRequest := { payload := some (.math { op, a, b }) }

def makeStr (op : StrOp) (s1 s2 : Bytes) : SubmitRequest :=
  { payload := some (.str { op, s1, s2 }) }

def submitCall (isBlocking : Bool) (req : SubmitRequest) : Call :=
  if isBlocking then .submitBlocking req else .submitNonBlocking req

/-- The locals of `Application::run`. -/
structure Shell where
  pending : Table UInt64 Ticket := Table.empty
  /-- the command whose call has not returned -/
  command : Option Command := none
  /-- the loop was left -/
  left : Bool := false

namespace Shell

/-- The call that a command makes. A ticket that is not pending is not asked for. -/
def call (shell : Shell) : Command → Option Call
  | .quit => none
  | .get ticketId wait =>
      (shell.pending ticketId).map fun ticket =>
        match wait with
        | none => .getResult ticket .noWait 0
        | some ms => .getResult ticket .waitUpTo ms
  | .math isBlocking op a b => some (submitCall isBlocking (makeMath op a b))
  | .str isBlocking op s1 s2 => some (submitCall isBlocking (makeStr op s1 s2))

/-- The ticket of a response to a non-blocking request is kept. -/
def remember (shell : Shell) (isBlocking : Bool) (sresp : SubmitResponse) : Shell :=
  match sresp.ticket with
  | none => shell
  | some ticket =>
      if isBlocking then shell
      else { shell with pending := shell.pending.insert ticket.reqId ticket }

/-- What the loop does with the return of the call of a command. -/
def settle (shell : Shell) (command : Command) (result : Return) : Shell :=
  let shell := { shell with command := none }
  match command, result with
  | .get ticketId _, .get true gres =>
      if gres.status ≠ .stNotFinished then
        { shell with pending := shell.pending.erase ticketId }
      else shell
  | .math isBlocking _ _ _, .submit ok sresp =>
      if ok then shell.remember isBlocking sresp else { shell with left := true }
  | .str isBlocking _ _ _, .submit ok sresp =>
      if ok then shell.remember isBlocking sresp else shell
  | _, _ => shell

end Shell

end InterProcess
