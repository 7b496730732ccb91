import InterProcess.Client.Shell
import InterProcess.Network.Connection

/-!
# Clients in their command loops

The network with the command loop of each client. A user enters any command at any
time, but the loop reads the next one when the call of the last one has returned. The
end of the input and a signal end the loop as `quit` does.
-/

namespace InterProcess

open Transition

/-- A call has returned, and the loop goes on. -/
def Shell.returned (shell : Shell) (c : Completed) : Shell :=
  match shell.command with
  | none => shell
  | some command => shell.settle command c.result

/-- The network and the command loops of its clients. -/
structure Session where
  network : Network
  shell : Bytes → Shell := fun _ => {}

namespace Session

inductive Label where
  /-- the loop of a client reads a command, and the socket takes the message of its call or
  does not take it -/
  | command (client : Bytes) (command : Command) (taken : Bool)
  /-- a step of the network that is not a call of a client -/
  | network (l : Network.Label)
  deriving DecidableEq, Repr

def start (n : ℕ) : Session := { network := Network.start n }

@[simps] def setShell (s : Session) (client : Bytes) (shell : Shell) : Session :=
  { s with shell := Function.update s.shell client shell }

theorem update_setShell (s : Session) (client : Bytes) (before after : Shell) :
    Function.update (s.setShell client before).shell client after =
      Function.update s.shell client after := by
  unfold setShell
  dsimp only
  rw [Function.update_idem]

/-- The network makes a step, and the loops whose calls have returned go on. -/
def follow (s : Session) (network : Network) : Session :=
  let new := network.completed.drop s.network.completed.length
  { network
    shell := fun client =>
      (new.filter fun c => c.client = client).foldl Shell.returned (s.shell client) }

def step (codec : Codec) (s : Session) : Label → Option Session
  | .command client command taken =>
      let shell := s.shell client
      if (s.network.link client).log ≠ [] ∧ shell.command = none ∧ shell.left = false then
        match shell.call command with
        | none => some (s.setShell client { shell with left := command = .quit })
        | some call =>
            (s.network.step codec (.call client call taken)).map
              (s.setShell client { shell with command := some command }).follow
      else none
  | .network (.call _ _ _) => none
  | .network l => (s.network.step codec l).map s.follow

/-- A step of the session is one of the network, or nothing for it. -/
theorem network_step {codec : Codec} {s s' : Session} {l : Label} (h : step codec s l = some s') :
    s'.network = s.network ∨ ∃ m, s.network.step codec m = some s'.network := by
  cases l with
  | command client command taken =>
      simp only [step] at h
      split at h
      · split at h
        · exact Or.inl (Option.some.inj h ▸ rfl)
        · obtain ⟨network, hnetwork, rfl⟩ := Option.map_eq_some_iff.mp h
          exact Or.inr ⟨_, hnetwork⟩
      · cases h
  | network l =>
      cases l with
      | call => cases h
      | init | timeout | deliver | serve | thread | worker =>
          obtain ⟨network, hnetwork, rfl⟩ := Option.map_eq_some_iff.mp h
          exact Or.inr ⟨_, hnetwork⟩

theorem follow_of_same {s : Session} {network : Network}
    (h : network.completed = s.network.completed) : s.follow network = { s with network } := by
  simp [follow, h]

theorem follow_of_append {s : Session} {network : Network} {c : Completed}
    (h : network.completed = s.network.completed ++ [c]) :
    s.follow network =
      ⟨network, Function.update s.shell c.client ((s.shell c.client).returned c)⟩ := by
  have hnew : network.completed.drop s.network.completed.length = [c] := by simp [h]
  simp only [follow, hnew, Session.mk.injEq, true_and]
  funext client
  by_cases hc : c.client = client
  · subst hc
    simp
  · simp [hc, Function.update_of_ne (Ne.symm hc)]

end Session

end InterProcess
