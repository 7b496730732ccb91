import InterProcess.Library.Custody
import InterProcess.Network.Loop
import InterProcess.Network.Traffic

/-!
# Who holds which ticket

The session as a custody: the keeper is the server, which holds the jobs in `jobs`, and a
client lists what is in `pending`. What a message asks for is known from the call that it
belongs to, how far it has got from the place where it is: with the client, in the server's
thread, or answered.
-/

namespace InterProcess

open Transition

def Call.want : Call → Want UInt64
  | .submitBlocking _ => .nothing
  | .submitNonBlocking _ => .ticket
  | .getResult ticket _ _ => .goods ticket.reqId

/-- What an answer means for the tickets. -/
def RespCase.phase : RespCase → Phase UInt64
  | .submit response =>
      match response.ticket with
      | some ticket => .granted ticket.reqId
      | none => .done
  | .get response =>
      if response.status = .stNotFinished then .done
      else if response.result.isSome then .final
      else .denied

def received (codec : Codec) (payload : Bytes) : Option RespCase :=
  (codec.parseResp payload).bind EnvelopeResp.resp

def replyPhase (codec : Codec) (payload : Bytes) : Phase UInt64 :=
  match received codec payload with
  | some response => response.phase
  | none => .done

/-- How far the message has got that the thread is in the runner for. A job that is made
counts as granted. -/
def CallerPc.phase : CallerPc → Phase UInt64
  | .insert _ id _ | .lockQueue _ id _ | .push _ id _ | .signal _ id _ => .granted id
  | .ran _ response => (RespCase.submit response).phase
  | .got _ response => (RespCase.get response).phase
  | _ => .asked

namespace Link

/-- The client's message with this number, if it is not the handshake. -/
def entry (link : Link) (tag : ℕ) (phase : Phase UInt64) : Option (Want UInt64 × Phase UInt64) :=
  (link.log[tag]?.join).map fun call => (call.want, phase)

def reply (codec : Codec) (link : Link) (p : Packet) : Option (Want UInt64 × Phase UInt64) :=
  link.entry p.tag (replyPhase codec p.payload)

def request (link : Link) (p : Packet) : Option (Want UInt64 × Phase UInt64) :=
  link.entry p.tag .asked

def handled (link : Link) (server : Server) (client : Bytes) : List (Want UInt64 × Phase UInt64) :=
  match server.thread with
  | .receive => []
  | .handle other tag =>
      if other = client then (link.entry tag (server.mAlgoRunner.callers 0).phase).toList else []

end Link

/-- The client's messages under way and their answers. -/
def Network.line (codec : Codec) (s : Network) (client : Bytes) :
    List (Want UInt64 × Phase UInt64) :=
  (s.link client).down.filterMap ((s.link client).reply codec) ++
    ((s.link client).handled s.server client ++
      (s.link client).up.filterMap (s.link client).request)

/-- The tickets that a client lists. A client that has left its loop lists none. -/
def Shell.kept (shell : Shell) : Set UInt64 := if shell.left then ∅ else shell.pending.keys

/-- The tickets whose jobs are in `jobs` or about to be. -/
def Pool.held (p : Pool) : Set UInt64 :=
  {t | p.jobs t ≠ none ∨ ∃ job, (p.callers 0).inserts = some (t, job)}

namespace Session

def holder (codec : Codec) (s : Session) (client : Bytes) : Holder UInt64 where
  kept := (s.shell client).kept
  line := s.network.line codec client
  waiting := (s.network.link client).ongoing.map fun ongoing => ongoing.call.want

def custody (codec : Codec) (s : Session) : Custody Bytes UInt64 where
  held := s.network.server.mAlgoRunner.held
  client := s.holder codec

end Session

/-! ### The tickets of a client -/

theorem Call.finish_received (codec : Codec) (call : Call) (payload : Bytes) :
    call.finish codec (some payload) =
      match call, received codec payload with
      | .submitBlocking _, some (.submit out) | .submitNonBlocking _, some (.submit out) =>
          .submit true out
      | .getResult _ _ _, some (.get out) => .get true out
      | _, _ => call.failed := by
  unfold finish recvEnvelope received
  rw [Option.bind_some]
  cases codec.parseResp payload with
  | none => cases call <;> rfl
  | some response => rcases response with ⟨_ | _ | _⟩ <;> cases call <;> rfl

namespace Shell

variable {shell : Shell} {command : Command}

theorem kept_of_in (h : shell.left = false) : shell.kept = shell.pending.keys := by
  simp [kept, h]

theorem kept_of_left (h : shell.left = true) : shell.kept = ∅ := by
  simp [kept, h]

def Leaves : Command → Bool
  | .math _ _ _ _ => true
  | _ => false

theorem settle_failed {call : Call} (h : command.Makes call) :
    shell.settle command call.failed =
      { shell with command := none, left := shell.left || Leaves command } := by
  cases h with
  | get => simp [settle, Call.failed, Leaves]
  | math isBlocking | str isBlocking =>
      cases isBlocking <;> simp [settle, submitCall, Call.failed, Leaves]

/-- The loop goes on with these tickets, or a math command has failed and it is left. -/
def Lists (shell : Shell) (command : Command) (kept : Set UInt64) : Prop :=
  (shell.left = false ∧ shell.kept = kept) ∨ (shell.left = true ∧ Leaves command = true)

theorem lists_failed {call : Call} (h : command.Makes call) (hin : shell.left = false) :
    (shell.settle command call.failed).Lists command shell.kept := by
  rw [settle_failed h]
  unfold Lists
  cases hleaves : Leaves command with
  | false => simp [hin, kept]
  | true => simp

theorem keptAfter_submit {call : Call} {out : SubmitResponse} (kept : Set UInt64)
    (h : call.want ≠ .ticket ∨ out.ticket = none) :
    keptAfter call.want (RespCase.submit out).phase kept = kept := by
  unfold keptAfter RespCase.phase
  cases hticket : out.ticket <;> cases hwant : call.want <;> simp_all

theorem keptAfter_get {call : Call} {out : GetResponse} (kept : Set UInt64)
    (h : (∀ t, call.want ≠ .goods t) ∨ out.status = .stNotFinished) :
    keptAfter call.want (RespCase.get out).phase kept = kept := by
  cases hwant : call.want with
  | nothing => rfl
  | ticket =>
      simp only [RespCase.phase]
      split
      · rfl
      · split <;> rfl
  | goods t =>
      have hstatus := h.resolve_left fun hnone => hnone t hwant
      simp [keptAfter, RespCase.phase, hstatus]

theorem keptAfter_goods {t : UInt64} {out : GetResponse} (kept : Set UInt64)
    (h : out.status ≠ .stNotFinished) :
    keptAfter (.goods t) (RespCase.get out).phase kept = kept \ {t} := by
  simp only [RespCase.phase, if_neg h]
  split <;> rfl

theorem lists_remember (shell : Shell) (req : SubmitRequest) (isBlocking : Bool) (out : SubmitResponse)
    (hin : shell.left = false) : (shell.remember isBlocking out).Lists command
      (keptAfter (submitCall isBlocking req).want (RespCase.submit out).phase shell.kept) := by
  cases isBlocking with
  | true =>
      have hsame : shell.remember true out = shell := by
        unfold remember
        split <;> rfl
      rw [hsame]
      exact Or.inl ⟨hin, (keptAfter_submit _ (Or.inl (by simp [submitCall, Call.want]))).symm⟩
  | false =>
      cases hticket : out.ticket with
      | none =>
          have hsame : shell.remember false out = shell := by simp [remember, hticket]
          rw [hsame]
          exact Or.inl ⟨hin, (keptAfter_submit _ (Or.inr hticket)).symm⟩
      | some ticket =>
          refine Or.inl ?_
          simp [remember, hticket, hin, kept, submitCall, Call.want, RespCase.phase, keptAfter,
            Table.keys_insert]

theorem lists_settle (codec : Codec) {call : Call} (h : command.Makes call)
    (hin : shell.left = false) (payload : Bytes) :
    (shell.settle command (call.finish codec (some payload))).Lists command
      (keptAfter call.want (replyPhase codec payload) shell.kept) := by
  rw [Call.finish_received]
  unfold replyPhase
  rcases received codec payload with _ | (out | out)
  · have hsame : keptAfter call.want .done shell.kept = shell.kept := by cases call <;> rfl
    rw [hsame]
    cases call <;> exact lists_failed h hin
  · cases h with
    | get ticketId wait ticket waitMode timeoutMs hticket hmode =>
        dsimp only
        rw [keptAfter_submit _ (Or.inl (by simp [Call.want]))]
        exact lists_failed (.get ticketId wait ticket waitMode timeoutMs hticket hmode) hin
    | math isBlocking op a b =>
        cases isBlocking
        · exact lists_remember { shell with command := none } (makeMath op a b) false out hin
        · exact lists_remember { shell with command := none } (makeMath op a b) true out hin
    | str isBlocking op s1 s2 =>
        cases isBlocking
        · exact lists_remember { shell with command := none } (makeStr op s1 s2) false out hin
        · exact lists_remember { shell with command := none } (makeStr op s1 s2) true out hin
  · cases h with
    | get ticketId wait ticket waitMode timeoutMs hticket =>
        refine Or.inl ?_
        by_cases hstatus : out.status = .stNotFinished
        · dsimp only
          rw [keptAfter_get _ (Or.inr hstatus)]
          simp [settle, hstatus, kept, hin]
        · dsimp only
          rw [Call.want, keptAfter_goods _ hstatus]
          simp [settle, hstatus, kept, hin, hticket, Table.keys_erase]
    | math isBlocking op a b =>
        have hnone : ∀ t, (submitCall isBlocking (makeMath op a b)).want ≠ .goods t := by
          cases isBlocking <;> simp [submitCall, Call.want]
        dsimp only
        rw [keptAfter_get _ (Or.inl hnone)]
        cases isBlocking <;> exact lists_failed (.math _ op a b) hin
    | str isBlocking op s1 s2 =>
        have hnone : ∀ t, (submitCall isBlocking (makeStr op s1 s2)).want ≠ .goods t := by
          cases isBlocking <;> simp [submitCall, Call.want]
        dsimp only
        rw [keptAfter_get _ (Or.inl hnone)]
        cases isBlocking <;> exact lists_failed (.str _ op s1 s2) hin

theorem left_of_final {codec : Codec} {call : Call} (h : command.Makes call)
    (hleaves : Leaves command = true) {payload : Bytes}
    (hfinal : replyPhase codec payload = .final) :
    (shell.settle command (call.finish codec (some payload))).left = true := by
  have hfailed : call.finish codec (some payload) = call.failed := by
    rw [Call.finish_received]
    unfold replyPhase at hfinal
    rcases hreceived : received codec payload with _ | (out | out)
    · cases call <;> rfl
    · rw [hreceived] at hfinal
      cases hticket : out.ticket <;> simp [RespCase.phase, hticket] at hfinal
    · cases h with
      | get | str => cases hleaves
      | math isBlocking => cases isBlocking <;> rfl
  rw [hfailed, settle_failed h, hleaves]
  exact Bool.or_true _

end Shell

theorem replyPhase_ne_asked (codec : Codec) (payload : Bytes) :
    replyPhase codec payload ≠ .asked := by
  unfold replyPhase
  rcases received codec payload with _ | (out | out)
  · exact nofun
  · cases hticket : out.ticket <;> simp [RespCase.phase, hticket]
  · simp only [RespCase.phase]
    split
    · exact nofun
    · split <;> exact nofun

end InterProcess
