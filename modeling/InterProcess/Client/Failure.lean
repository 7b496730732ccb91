import InterProcess.Client.Shell
import InterProcess.Message.Wire

/-!
# Failed exchanges

A call fails in the same way for each of its four causes: it returns `EC_FAILURE`
and an `out` without a ticket. What `Application::run` makes of that was written
four times. The branches of `get`, `concat` and `find` print a line and go on; the
branch of the math commands has such a line too, but `RETURN_IF_ERROR` stands
before it and leaves the loop together with its tickets.
-/

namespace InterProcess

/-- A call from what it sends to what it returns. `taken` says whether the socket takes
the message, and `frame` is the message that arrives in time. -/
def Call.exchange (codec : Codec) (call : Call) (taken : Bool) (frame : Option Bytes) : Return :=
  if call.checksSend = true ∧ sendEnvelope codec call.envelope taken = none then call.failed
  else call.finish codec frame

/-- What `Application::run` says about a failure. -/
inductive Report where
  /-- `printf` -/
  | printed (text : String)
  /-- the message of `handleRegularError` -/
  | logged (msg : String)
  deriving DecidableEq, Repr

/-- What the loop says about the return of the call of a command, if that is not
`EC_SUCCESS`. -/
def Command.report (command : Command) (result : Return) : Option Report :=
  if result.ok then none
  else match command with
    | .quit => none
    | .get _ _ => some (.printed "Error getting result (transport)\n")
    | .math true _ _ _ => some (.logged "Failed to submit blocking request")
    | .math false _ _ _ => some (.logged "Failed to submit non-blocking request")
    | .str _ .strConcat _ _ => some (.printed "error sending request\n")
    | .str _ _ _ _ => some (.printed "Error sending request\n")

def Command.IsMath (command : Command) : Prop :=
  ∃ isBlocking op a b, command = .math isBlocking op a b

namespace Call

variable {codec : Codec} {call : Call}

theorem finish_eq_failed {frame : Option Bytes} (h : (call.finish codec frame).ok = false) :
    call.finish codec frame = call.failed := by
  unfold finish at h ⊢
  cases hresponse : recvEnvelope codec frame with
  | none => rfl
  | some response =>
      simp only [hresponse] at h ⊢
      split at h
      · cases h
      · cases h
      · cases h
      · rfl

/-- The four causes cannot be told apart. -/
theorem exchange_eq_failed {taken : Bool} {frame : Option Bytes}
    (h : (call.exchange codec taken frame).ok = false) :
    call.exchange codec taken frame = call.failed := by
  unfold exchange at h ⊢
  split at h
  · next hsend => rw [if_pos hsend]
  · next hsend =>
      rw [if_neg hsend]
      exact finish_eq_failed h

end Call

namespace Shell

/-- A turn of the loop: a command, whether the socket takes the message of its call, and
the message that arrives for it. -/
structure Turn where
  command : Command
  taken : Bool
  frame : Option Bytes

def returns (codec : Codec) (shell : Shell) (turn : Turn) : Option Return :=
  (shell.call turn.command).map fun call => call.exchange codec turn.taken turn.frame

/-- The call of this turn is made and returns `EC_FAILURE`. -/
def Fails (codec : Codec) (shell : Shell) (turn : Turn) : Prop :=
  ∃ result, shell.returns codec turn = some result ∧ result.ok = false

def next (codec : Codec) (shell : Shell) (turn : Turn) : Shell :=
  match shell.returns codec turn with
  | none => { shell with left := turn.command = .quit }
  | some result => shell.settle turn.command result

/-- What the loop tells in a turn about the failure of its call. -/
def tells (codec : Codec) (shell : Shell) (turn : Turn) : Option Report :=
  (shell.returns codec turn).bind turn.command.report

/-- The failure is reported, the tickets are what they were, and the next command is read. -/
def GoesOn (codec : Codec) (shell : Shell) (turn : Turn) : Prop :=
  (shell.tells codec turn).isSome ∧ (shell.next codec turn).pending = shell.pending ∧
    (shell.next codec turn).left = false

variable {codec : Codec} {shell : Shell} {turn : Turn}

theorem fails_of_timeout {call : Call} (hcall : shell.call turn.command = some call)
    (hframe : turn.frame = none) : shell.Fails codec turn := by
  refine ⟨call.exchange codec turn.taken turn.frame, ?_, ?_⟩
  · rw [returns, hcall, Option.map_some]
  · rw [hframe]
    unfold Call.exchange
    split
    · exact Call.ok_failed call
    · exact Call.ok_failed call

theorem exists_call_of_fails (h : shell.Fails codec turn) :
    ∃ call, shell.call turn.command = some call ∧ shell.returns codec turn = some call.failed := by
  obtain ⟨result, hreturns, hok⟩ := h
  obtain ⟨call, hcall, rfl⟩ := Option.map_eq_some_iff.mp hreturns
  exact ⟨call, hcall, by rw [hreturns, Call.exchange_eq_failed hok]⟩

/-- Every failure is reported. -/
theorem tells_of_fails (h : shell.Fails codec turn) : (shell.tells codec turn).isSome := by
  obtain ⟨call, hcall, hreturns⟩ := exists_call_of_fails h
  rw [tells, hreturns, Option.bind_some]
  unfold Command.report
  rw [if_neg (by simp)]
  cases hcommand : turn.command with
  | quit => rw [hcommand] at hcall; cases hcall
  | get => rfl
  | math isBlocking => cases isBlocking <;> rfl
  | str isBlocking op => cases op <;> rfl

theorem next_pending_of_fails (h : shell.Fails codec turn) :
    (shell.next codec turn).pending = shell.pending := by
  obtain ⟨call, hcall, hreturns⟩ := exists_call_of_fails h
  rw [next, hreturns]
  cases hcommand : turn.command with
  | quit => rfl
  | get | math | str => cases call <;> simp [settle, Call.failed]

/-- The loop is left for the failure of a math command, and for no other. -/
theorem next_left_of_fails (h : shell.Fails codec turn) (hin : shell.left = false) :
    (shell.next codec turn).left = true ↔ turn.command.IsMath := by
  obtain ⟨call, hcall, hreturns⟩ := exists_call_of_fails h
  rw [next, hreturns, Command.IsMath]
  cases hcommand : turn.command with
  | quit => rw [hcommand] at hcall; cases hcall
  | get => cases call <;> simp [settle, Call.failed, hin]
  | math isBlocking op a b =>
      rw [hcommand] at hcall
      obtain rfl := Option.some.inj hcall
      cases isBlocking <;> simp [settle, submitCall, Call.failed]
  | str isBlocking op s1 s2 =>
      rw [hcommand] at hcall
      obtain rfl := Option.some.inj hcall
      cases isBlocking <;> simp [settle, submitCall, Call.failed, hin]

/-- After a failed call the loop goes on exactly when the command was no math command. -/
theorem goesOn_iff_of_fails (codec : Codec) (shell : Shell) (turn : Turn)
    (hin : shell.left = false) (h : shell.Fails codec turn) :
    shell.GoesOn codec turn ↔ ¬turn.command.IsMath := by
  rw [← next_left_of_fails h hin, Bool.not_eq_true]
  constructor
  · exact fun hgoes => hgoes.2.2
  · exact fun hleft => ⟨tells_of_fails h, next_pending_of_fails h, hleft⟩

/-- A ticket is pending, and the reply to `block add 2 3` does not come in time: this is
reported, and the loop ends. -/
theorem not_goesOn_math :
    let shell : Shell := { pending := Table.empty.insert 7 { reqId := 7 } }
    let turn : Turn := { command := .math true .mathAdd 2 3, taken := true, frame := none }
    shell.Fails wireCodec turn ∧ (shell.tells wireCodec turn).isSome ∧
      (shell.next wireCodec turn).left = true ∧ ¬shell.GoesOn wireCodec turn := by
  intro shell turn
  have hfails : shell.Fails wireCodec turn := fails_of_timeout rfl rfl
  have hleft : (shell.next wireCodec turn).left = true :=
    (next_left_of_fails hfails rfl).mpr ⟨true, .mathAdd, 2, 3, rfl⟩
  refine ⟨hfails, tells_of_fails hfails, hleft, fun hgoes => ?_⟩
  rw [hgoes.2.2] at hleft
  cases hleft

/-- The same timeout under `get 7`: the ticket can be asked for again. -/
theorem goesOn_iff_of_fails_get :
    let shell : Shell := { pending := Table.empty.insert 7 { reqId := 7 } }
    let turn : Turn := { command := .get 7 none, taken := true, frame := none }
    shell.Fails wireCodec turn ∧ (shell.GoesOn wireCodec turn ↔ ¬turn.command.IsMath) := by
  intro shell turn
  have hfails : shell.Fails wireCodec turn := fails_of_timeout rfl rfl
  exact ⟨hfails, goesOn_iff_of_fails wireCodec shell turn rfl hfails⟩

def FailsAll (codec : Codec) (shell : Shell) : List Turn → Prop
  | [] => True
  | turn :: turns => shell.Fails codec turn ∧ (shell.next codec turn).FailsAll codec turns

/-- However many calls of other commands fail in a row, the tickets are kept and the loop
goes on. -/
theorem foldl_next_of_failsAll (turns : List Turn) (hin : shell.left = false)
    (h : shell.FailsAll codec turns) (hmath : ∀ turn ∈ turns, ¬turn.command.IsMath) :
    (turns.foldl (next codec) shell).pending = shell.pending ∧
      (turns.foldl (next codec) shell).left = false := by
  induction turns generalizing shell with
  | nil => exact ⟨rfl, hin⟩
  | cons turn turns ih =>
      obtain ⟨hfails, hrest⟩ := h
      have hleft : (shell.next codec turn).left = false := by
        rw [← Bool.not_eq_true, next_left_of_fails hfails hin]
        exact hmath turn (List.mem_cons_self ..)
      rw [List.foldl_cons, ← next_pending_of_fails hfails]
      exact ih hleft hrest fun turn hturn => hmath turn (List.mem_cons_of_mem _ hturn)

end Shell

end InterProcess
