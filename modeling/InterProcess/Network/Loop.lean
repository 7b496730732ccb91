import InterProcess.Network.Session
import InterProcess.Network.Traffic

/-!
# The loops and their calls

A loop whose command has made a call waits for it, and a loop that was left waits for
nothing. The tickets that it lists are listed under their own numbers, and what it asks
for is what a command can ask for.
-/

namespace InterProcess

open Transition

inductive Command.Makes : Command → Call → Prop
  | get (ticketId : UInt64) (wait : Option UInt32) (ticket : Ticket) (waitMode : GetWaitMode)
      (timeoutMs : UInt32) (hticket : ticket.reqId = ticketId)
      (hmode : waitMode = .noWait ∨ waitMode = .waitUpTo) :
      Makes (.get ticketId wait) (.getResult ticket waitMode timeoutMs)
  | math (isBlocking : Bool) (op : MathOp) (a b : Int32) :
      Makes (.math isBlocking op a b) (submitCall isBlocking (makeMath op a b))
  | str (isBlocking : Bool) (op : StrOp) (s1 s2 : Bytes) :
      Makes (.str isBlocking op s1 s2) (submitCall isBlocking (makeStr op s1 s2))

/-- A command asks for a result in a way that the server knows. -/
def Call.Plain : Call → Prop
  | .getResult _ waitMode _ => waitMode = .noWait ∨ waitMode = .waitUpTo
  | .submitBlocking _ | .submitNonBlocking _ => True

theorem Command.Makes.plain {command : Command} {call : Call} (h : command.Makes call) :
    call.Plain := by
  cases h with
  | get ticketId wait ticket waitMode timeoutMs hticket hmode => exact hmode
  | math isBlocking | str isBlocking => cases isBlocking <;> trivial

namespace Shell

def Own (shell : Shell) : Prop := ∀ t ticket, shell.pending t = some ticket → ticket.reqId = t

variable {shell : Shell} {command : Command} {call : Call}

theorem makes_of_call (hown : shell.Own) (h : shell.call command = some call) :
    command.Makes call := by
  cases command with
  | quit => cases h
  | get ticketId wait =>
      obtain ⟨ticket, hticket, rfl⟩ := Option.map_eq_some_iff.mp h
      cases wait with
      | none => exact .get ticketId none ticket .noWait 0 (hown ticketId ticket hticket) (Or.inl rfl)
      | some ms =>
          exact .get ticketId (some ms) ticket .waitUpTo ms (hown ticketId ticket hticket) (Or.inr rfl)
  | math isBlocking op a b => exact Option.some.inj h ▸ .math isBlocking op a b
  | str isBlocking op s1 s2 => exact Option.some.inj h ▸ .str isBlocking op s1 s2

theorem own_remember (shell : Shell) (h : shell.Own) (isBlocking : Bool) (sresp : SubmitResponse) :
    (shell.remember isBlocking sresp).Own := by
  unfold remember
  split
  · exact h
  · next ticket hticket =>
      cases isBlocking with
      | true => exact h
      | false =>
          intro t ticket' ht
          by_cases heq : t = ticket.reqId
          · subst heq
            simp only [Bool.false_eq_true, if_false, Table.insert_self, Option.some.injEq] at ht
            rw [ht]
          · exact h t ticket' (by simpa [Table.insert_of_ne _ heq] using ht)

theorem own_settle (h : shell.Own) (command : Command) (result : Return) :
    (shell.settle command result).Own := by
  unfold settle
  dsimp only
  split
  · split
    · exact fun t ticket ht => h t ticket (Table.of_erase_eq_some ht).2
    · exact h
  · split
    · exact own_remember { shell with command := none } h _ _
    · exact h
  · split
    · exact own_remember { shell with command := none } h _ _
    · exact h
  · exact h

theorem remember_command (shell : Shell) (isBlocking : Bool) (sresp : SubmitResponse) :
    (shell.remember isBlocking sresp).command = shell.command := by
  unfold remember
  split
  · rfl
  · split <;> rfl

theorem settle_command (shell : Shell) (command : Command) (result : Return) :
    (shell.settle command result).command = none := by
  unfold settle
  dsimp only
  split
  · split <;> rfl
  · split
    · rw [remember_command]
    · rfl
  · split
    · rw [remember_command]
    · rfl
  · rfl

end Shell

namespace Session

inductive Step (codec : Codec) (s : Session) : Label → Session → Prop
  /-- a command without a call -/
  | idle (client : Bytes) (command : Command) (taken : Bool)
      (hfree : (s.shell client).command = none) (hin : (s.shell client).left = false) :
      Step codec s (.command client command taken)
        (s.setShell client { s.shell client with left := command = .quit })
  /-- a call whose message goes out -/
  | sent (client : Bytes) (command : Command) (taken : Bool)
      (hready : (s.network.link client).log ≠ []) (hin : (s.shell client).left = false)
      (call : Call) (hcall : (s.shell client).call command = some call)
      (hidle : (s.network.link client).ongoing = none) (payload : Bytes)
      (hsend : sendEnvelope codec call.envelope taken = some payload) (clean : Bool) :
      Step codec s (.command client command taken)
        ⟨s.network.setLink client { s.network.link client with
            log := (s.network.link client).log ++ [some call]
            up := (s.network.link client).up ++ [⟨(s.network.link client).log.length, payload⟩]
            ongoing := some ⟨call, (s.network.link client).log.length, clean⟩ },
          Function.update s.shell client { s.shell client with command := some command }⟩
  /-- a call that returns without having sent a message -/
  | failed (client : Bytes) (command : Command) (taken : Bool)
      (hready : (s.network.link client).log ≠ []) (hin : (s.shell client).left = false)
      (call : Call) (hcall : (s.shell client).call command = some call)
      (hidle : (s.network.link client).ongoing = none)
      (hsend : sendEnvelope codec call.envelope taken = none) (network : Network)
      (hserver : network.server = s.network.server)
      (hlink : network.link = Function.update s.network.link client { s.network.link client with
        log := (s.network.link client).log ++ [some call] }) :
      Step codec s (.command client command taken)
        ⟨network, Function.update s.shell client ((s.shell client).settle command call.failed)⟩
  /-- a call that waits without having sent a message -/
  | unsent (client : Bytes) (command : Command) (taken : Bool)
      (hready : (s.network.link client).log ≠ []) (hin : (s.shell client).left = false)
      (call : Call) (hcall : (s.shell client).call command = some call)
      (hidle : (s.network.link client).ongoing = none)
      (hsend : sendEnvelope codec call.envelope taken = none) (clean : Bool) :
      Step codec s (.command client command taken)
        ⟨s.network.setLink client { s.network.link client with
            log := (s.network.link client).log ++ [some call]
            ongoing := some ⟨call, (s.network.link client).log.length, clean⟩ },
          Function.update s.shell client { s.shell client with command := some command }⟩
  | init (client : Bytes) (execFunFlags : UInt8) (hnew : s.network.link client = {})
      (payload : Bytes) :
      Step codec s (.network (.init client execFunFlags))
        ⟨s.network.setLink client { log := [none], up := [{ tag := 0, payload }] }, s.shell⟩
  | timeout (client : Bytes) (ongoing : Ongoing)
      (hongoing : (s.network.link client).ongoing = some ongoing) :
      Step codec s (.network (.timeout client))
        ⟨s.network.endCall codec client ongoing none (s.network.link client).down,
          Function.update s.shell client
            ((s.shell client).returned ⟨client, ongoing, none, ongoing.call.failed⟩)⟩
  | deliver (client : Bytes) (ongoing : Ongoing)
      (hongoing : (s.network.link client).ongoing = some ongoing) (frame : Packet)
      (rest : List Packet) (hdown : (s.network.link client).down = frame :: rest) :
      Step codec s (.network (.deliver client))
        ⟨s.network.endCall codec client ongoing (some frame) rest,
          Function.update s.shell client ((s.shell client).returned
            ⟨client, ongoing, some frame.tag, ongoing.call.finish codec (some frame.payload)⟩)⟩
  | server (l : Network.Label) (m : Server.Label) (s₁ : Network) (ht : s.network.Taken s₁ m)
      (server : Server) (hserver : Server.step codec s.network.server m = some server)
      (hl : ∀ choice, m = .thread choice → l = .thread choice) :
      Step codec s (.network l) ⟨s₁.route server, s.shell⟩

theorem startCall_cases {codec : Codec} {s : Session} {client : Bytes} {command : Command}
    (taken : Bool) (hready : (s.network.link client).log ≠ [])
    (hin : (s.shell client).left = false) {call : Call}
    (hcall : (s.shell client).call command = some call)
    (hidle : (s.network.link client).ongoing = none) :
    Step codec s (.command client command taken)
      ((s.setShell client { s.shell client with command := some command }).follow
        (s.network.startCall codec client call taken)) := by
  unfold Network.startCall
  split
  · next payload hsend =>
      rw [follow_of_same]
      · exact .sent client command taken hready hin call hcall hidle payload hsend _
      · rfl
  · next hsend =>
      split
      · rw [follow_of_append
          (c := ⟨client, ⟨call, (s.network.link client).log.length,
            (s.network.owed codec client).isEmpty⟩, none, call.failed⟩)]
        · rw [update_setShell]
          simp only [setShell_shell, Function.update_self]
          refine .failed client command taken hready hin call hcall hidle hsend _ ?_ ?_
          · rfl
          · rfl
        · rfl
      · rw [follow_of_same]
        · exact .unsent client command taken hready hin call hcall hidle hsend _
        · rfl

/-- The inversion of `Session.step`. -/
theorem step_cases {codec : Codec} {s s' : Session} {l : Label} (h : step codec s l = some s') :
    Step codec s l s' := by
  cases l with
  | command client command taken =>
      simp only [step] at h
      split at h
      · next hcond =>
          obtain ⟨hready, hfree, hin⟩ := hcond
          split at h
          · exact Option.some.inj h ▸ .idle client command taken hfree hin
          · next call hcall =>
              obtain ⟨network, hnetwork, rfl⟩ := Option.map_eq_some_iff.mp h
              cases Network.step_cases hnetwork with
              | call _ _ _ _ hidle => exact startCall_cases taken hready hin hcall hidle
      · cases h
  | network l =>
      have hserver : ∀ {m : Server.Label} {s₁ : Network} {server : Server},
          s.network.Taken s₁ m → Server.step codec s.network.server m = some server →
          (∀ choice, m = .thread choice → l = .thread choice) →
          Step codec s (.network l) (s.follow (s₁.route server)) := by
        intro m s₁ server ht hserver hl
        rw [follow_of_same (show (s₁.route server).completed = s.network.completed from ht.completed)]
        exact .server l m s₁ ht server hserver hl
      cases l with
      | call => cases h
      | init client execFunFlags =>
          obtain ⟨network, hnetwork, rfl⟩ := Option.map_eq_some_iff.mp h
          cases Network.step_cases hnetwork with
          | init _ _ hnew _ _ payload =>
              rw [follow_of_same]
              · exact .init client execFunFlags hnew payload
              · rfl
      | timeout client =>
          obtain ⟨network, hnetwork, rfl⟩ := Option.map_eq_some_iff.mp h
          cases Network.step_cases hnetwork with
          | timeout _ ongoing hongoing =>
              rw [follow_of_append rfl]
              exact .timeout client ongoing hongoing
      | deliver client =>
          obtain ⟨network, hnetwork, rfl⟩ := Option.map_eq_some_iff.mp h
          cases Network.step_cases hnetwork with
          | deliver _ ongoing hongoing frame rest hdown =>
              rw [follow_of_append rfl]
              exact .deliver client ongoing hongoing frame rest hdown
      | serve client =>
          obtain ⟨network, hnetwork, rfl⟩ := Option.map_eq_some_iff.mp h
          cases Network.step_cases hnetwork with
          | serve _ frame rest hup server hstep =>
              exact hserver (Network.taken_serve hup) hstep (by simp)
      | thread choice =>
          obtain ⟨network, hnetwork, rfl⟩ := Option.map_eq_some_iff.mp h
          cases Network.step_cases hnetwork with
          | thread _ server hstep =>
              exact hserver (Network.taken_self (by simp)) hstep (by simp)
      | worker i =>
          obtain ⟨network, hnetwork, rfl⟩ := Option.map_eq_some_iff.mp h
          cases Network.step_cases hnetwork with
          | worker _ server hstep =>
              exact hserver (Network.taken_self (by simp)) hstep (by simp)

/-- The invariant of the loops. -/
structure Shells (s : Session) : Prop where
  own : ∀ client, (s.shell client).Own
  free : ∀ client, (s.network.link client).ongoing = none → (s.shell client).command = none
  busy : ∀ client ongoing, (s.network.link client).ongoing = some ongoing →
    (s.shell client).left = false ∧
      ∃ command, (s.shell client).command = some command ∧ command.Makes ongoing.call
  plain : ∀ client call, some call ∈ (s.network.link client).log → call.Plain

variable {codec : Codec} {s s' : Session}

theorem shells_start (n : ℕ) : (start n).Shells where
  own client t ticket h := by cases h
  free client _ := rfl
  busy client ongoing h := by cases h
  plain client call h := (List.not_mem_nil h).elim

theorem Shells.client (h : s.Shells) {client : Bytes} {link : Link} {shell : Shell}
    (hlink : s'.network.link = Function.update s.network.link client link)
    (hshell : s'.shell = Function.update s.shell client shell) (hown : shell.Own)
    (hfree : link.ongoing = none → shell.command = none)
    (hbusy : ∀ ongoing, link.ongoing = some ongoing → shell.left = false ∧
      ∃ command, shell.command = some command ∧ command.Makes ongoing.call)
    (hplain : ∀ call, some call ∈ link.log → call.Plain) : s'.Shells := by
  constructor
  · intro c
    rw [hshell, Function.update_apply]
    split
    · exact hown
    · exact h.own c
  · intro c
    rw [hlink, hshell, Function.update_apply, Function.update_apply]
    split
    · exact hfree
    · exact h.free c
  · intro c
    rw [hlink, hshell, Function.update_apply, Function.update_apply]
    split
    · exact hbusy
    · exact h.busy c
  · intro c
    rw [hlink, Function.update_apply]
    split
    · exact hplain
    · exact h.plain c

theorem Shells.plain_append (h : s.Shells) {client : Bytes} {command : Command} {call : Call}
    (hcall : (s.shell client).call command = some call) :
    ∀ call', some call' ∈ (s.network.link client).log ++ [some call] → call'.Plain := by
  intro call' hmem
  rcases List.mem_append.mp hmem with hold | hnew
  · exact h.plain client call' hold
  · obtain rfl := Option.some.inj (List.mem_singleton.mp hnew)
    exact (Shell.makes_of_call (h.own client) hcall).plain

theorem Shells.returned (h : s.Shells) {client : Bytes} {ongoing : Ongoing}
    (hongoing : (s.network.link client).ongoing = some ongoing) :
    ∃ command, command.Makes ongoing.call ∧ ∀ c, (s.shell client).returned c =
      (s.shell client).settle command c.result := by
  obtain ⟨-, command, hcommand, hmakes⟩ := h.busy client ongoing hongoing
  exact ⟨command, hmakes, fun c => by simp [Shell.returned, hcommand]⟩

theorem shells_step (h : s.Shells) {l : Label} (hs : Step codec s l s') : s'.Shells := by
  cases hs with
  | idle client command taken hfree hin =>
      refine h.client (Function.update_eq_self client _).symm rfl (h.own client)
        (h.free client) (fun ongoing hongoing => ?_) (h.plain client)
      obtain ⟨-, command', hcommand, -⟩ := h.busy client ongoing hongoing
      rw [hfree] at hcommand
      cases hcommand
  | sent client command taken hready hin call hcall hidle payload hsend clean
  | unsent client command taken hready hin call hcall hidle hsend clean =>
      refine h.client rfl rfl (h.own client) nofun (fun ongoing hongoing => ?_)
        (h.plain_append hcall)
      obtain rfl := Option.some.inj hongoing
      exact ⟨hin, command, rfl, Shell.makes_of_call (h.own client) hcall⟩
  | failed client command taken hready hin call hcall hidle hsend network hserver hlink =>
      refine h.client hlink rfl (Shell.own_settle (h.own client) _ _)
        (fun _ => Shell.settle_command _ _ _) (fun ongoing hongoing => ?_) (h.plain_append hcall)
      rw [hidle] at hongoing
      cases hongoing
  | init client execFunFlags hnew payload =>
      refine h.client rfl (Function.update_eq_self client _).symm (h.own client)
        (fun _ => h.free client (by rw [hnew])) nofun ?_
      simp
  | timeout client ongoing hongoing | deliver client ongoing hongoing frame rest hdown =>
      obtain ⟨command, -, hreturned⟩ := h.returned hongoing
      rw [hreturned]
      exact h.client rfl rfl (Shell.own_settle (h.own client) _ _)
        (fun _ => Shell.settle_command _ _ _) nofun (h.plain client)
  | server l m s₁ ht server =>
      refine ⟨h.own, fun c hc => h.free c ?_, fun c ongoing hc => h.busy c ongoing ?_,
        fun c call hc => h.plain c call ?_⟩
      · exact ht.ongoing c ▸ hc
      · exact ht.ongoing c ▸ hc
      · exact ht.log c ▸ hc

end Session

end InterProcess
