import InterProcess.Client.Failure
import InterProcess.Client.Line
import InterProcess.Library.Decimal

/-!
# What the client prints

`printSubmit` and `printGet` with the `handleIpcError` that both start with, the list of
the pending tickets, and what a command prints of the return of its call. Only what goes to
the standard output is kept; what goes to the log is not.

The two functions agree on a response that has a value. They differ where it has none:
`printSubmit` says so.
-/

namespace InterProcess

open Scan

def statusToStr : Status → Bytes
  | .stSuccess => ascii "SUCCESS"
  | .stErrorInvalidInput => ascii "ERROR_INVALID_INPUT"
  | .stErrorDivByZero => ascii "ERROR_DIV_BY_ZERO"
  | .stErrorSubstrNotFound => ascii "ERROR_SUBSTR_NOT_FOUND"
  | .stErrorStringTooLong => ascii "ERROR_STRING_TOO_LONG"
  | .stErrorInternal => ascii "ERROR_INTERNAL"
  | .stNotFinished => ascii "NOT_FINISHED"
  | .unrecognized _ _ => ascii "UNKNOWN"

/-- What `handleIpcError` prints. Its callers do not look at what it returns. -/
def handleIpcError (status : Status) : Bytes :=
  if status = .stSuccess then []
  else if status = .stNotFinished then
    ascii "IPC Info: [" ++ statusToStr status ++ ascii "]\n"
  else ascii "IPC Error: [" ++ statusToStr status ++ ascii "]\n"

/-- The `switch` over the value of a result, with what is printed for `VALUE_NOT_SET`. -/
def printValue (unset : Bytes) (result : Result) : Bytes :=
  match result.value with
  | some (.intResult value) => ascii "Result: Int=" ++ signedDecimal value.toInt ++ ascii "\n"
  | some (.position value) => ascii "Result: Pos=" ++ signedDecimal value.toInt ++ ascii "\n"
  | some (.strResult value) => ascii "Result: Str=" ++ cString value ++ ascii "\n"
  | none => unset

def ticketLine (ticket : Ticket) : Bytes :=
  ascii "ticket=" ++ decimal ticket.reqId.toNat ++ ascii "\n"

/-- Different tickets are printed differently. -/
theorem ticketLine_injective : Function.Injective ticketLine := by
  rintro ⟨a⟩ ⟨b⟩ h
  have hdigits : decimal a.toNat = decimal b.toNat :=
    List.append_cancel_left (List.append_cancel_right h)
  rw [UInt64.toNat_inj.mp (decimal_injective hdigits)]

def printSubmit (response : SubmitResponse) : Bytes :=
  handleIpcError response.status ++ (response.ticket.map ticketLine).getD [] ++
    (response.result.map (printValue (ascii "No result set\n"))).getD []

def printGet (response : GetResponse) : Bytes :=
  handleIpcError response.status ++
    match response.result with
    | none =>
        if response.status = .stNotFinished then ascii "Result: NOT FINISHED\n"
        else ascii "No result payload\n"
    | some result => printValue [] result

def pendingLine (ticketId : UInt64) : Bytes := ascii "  " ++ decimal ticketId.toNat ++ ascii "\n"

/-- What `list` prints, with the tickets in the order of an iteration. -/
def printPending (order : List UInt64) : Bytes :=
  if order = [] then ascii "No pending tickets.\n"
  else ascii "Pending tickets:\n" ++ order.flatMap pendingLine

/-- What a command prints of the return of its call. -/
def Command.prints (command : Command) (result : Return) : Bytes :=
  match result with
  | .submit true out => printSubmit out
  | .get true out => printGet out
  | .submit false _ | .get false _ =>
      match command.report result with
      | some (.printed text) => ascii text
      | some (.logged _) | none => []

end InterProcess
