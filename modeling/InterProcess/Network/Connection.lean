import InterProcess.Client.Application
import InterProcess.Server.Application

/-!
# Clients and server on the network

Any number of clients of this repository, each with its own connection to the
server. A connection delivers the messages of each direction in their order,
without loss or duplication and after any delay. A client makes one call at a
time, any call at any time, and the receive of a call can time out at any moment,
also when the reply is on its way.

A message carries the number of its client's message as a tag, which neither
party sees. A call counts as a message also if nothing was sent. What a call
returned is recorded with its own number and the tag of the reply that it took.
-/

namespace InterProcess

open Transition

structure Packet where
  tag : ℕ
  payload : Bytes
  deriving DecidableEq, Repr

/-- A call in progress. -/
structure Ongoing where
  call : Call
  number : ℕ
  /-- no reply was outstanding when the call began -/
  clean : Bool
  deriving DecidableEq, Repr

/-- The connection of a client. -/
structure Link where
  /-- the messages of the client so far; `none` is the handshake -/
  log : List (Option Call) := []
  /-- sent by the client and not received by the server -/
  up : List Packet := []
  /-- sent by the server and not received by the client -/
  down : List Packet := []
  ongoing : Option Ongoing := none
  deriving DecidableEq, Repr

/-- A call that has returned. -/
structure Completed where
  client : Bytes
  ongoing : Ongoing
  /-- the tag of the reply that it took -/
  reply : Option ℕ
  result : Return
  deriving DecidableEq, Repr

structure Network where
  server : Server
  link : Bytes → Link := fun _ => {}
  completed : List Completed := []

namespace Network

inductive Label where
  /-- `clientInitialize` and `Application::init` of a client -/
  | init (client : Bytes) (execFunFlags : UInt8)
  /-- a client makes a call, whose message the socket takes or does not take -/
  | call (client : Bytes) (call : Call) (taken : Bool)
  /-- the receive of a call times out -/
  | timeout (client : Bytes)
  /-- the receive of a call gets the next message -/
  | deliver (client : Bytes)
  /-- the server receives the next message of a client -/
  | serve (client : Bytes)
  | thread (choice : Choice)
  | worker (i : ℕ)
  deriving DecidableEq, Repr

def start (n : ℕ) : Network := { server := Server.start n }

@[simps] def setLink (s : Network) (client : Bytes) (link : Link) : Network :=
  { s with link := Function.update s.link client link }

/-- The tags of the messages that will be answered. `registered` says whether the
server knows the client when the first of them arrives: an accepted handshake is
not answered. -/
def answered (codec : Codec) : Bool → List Packet → List ℕ
  | _, [] => []
  | true, p :: ps => p.tag :: answered codec true ps
  | false, p :: ps =>
      match codec.parseHandshake p.payload with
      | none => p.tag :: answered codec false ps
      | some handshake =>
          if verifyExecCaps handshake.execFunctions.toUInt8 then answered codec true ps
          else p.tag :: answered codec true ps

/-- The messages of the client that will be answered: the one that is handled, and
those in `up`. -/
def debt (codec : Codec) (server : Server) (client : Bytes) (up : List Packet) : List ℕ :=
  (match server.thread with
    | .receive => []
    | .handle other tag => if other = client then [tag] else []) ++
  answered codec (server.mClientExecCaps client).isSome up

def owed (codec : Codec) (s : Network) (client : Bytes) : List ℕ :=
  (s.link client).down.map Packet.tag ++ debt codec s.server client (s.link client).up

/-- A call begins: its message goes out, or it returns at once, or it waits for a
reply without having sent a message. -/
def startCall (codec : Codec) (s : Network) (client : Bytes) (call : Call) (taken : Bool) :
    Network :=
  let link := s.link client
  let ongoing : Ongoing :=
    { call, number := link.log.length, clean := (s.owed codec client).isEmpty }
  let link := { link with log := link.log ++ [some call] }
  match sendEnvelope codec call.envelope taken with
  | some payload =>
      s.setLink client { link with
        up := link.up ++ [{ tag := ongoing.number, payload }], ongoing := some ongoing }
  | none =>
      if call.checksSend then
        { s.setLink client link with
          completed := s.completed ++
            [{ client, ongoing, reply := none, result := call.failed }] }
      else s.setLink client { link with ongoing := some ongoing }

/-- A call returns with the message that it received, if any. -/
def endCall (codec : Codec) (s : Network) (client : Bytes) (ongoing : Ongoing)
    (frame : Option Packet) (down : List Packet) : Network :=
  { s.setLink client { s.link client with down, ongoing := none } with
    completed := s.completed ++
      [{ client, ongoing, reply := frame.map Packet.tag
         result := ongoing.call.finish codec (frame.map Packet.payload) }] }

/-- The messages among `sent` for this client. -/
def packetsFor (client : Bytes) (sent : List Sent) : List Packet :=
  (sent.filter fun r => r.client = client).map fun r => { tag := r.tag, payload := r.payload }

/-- The server makes a step, and what it sends goes on its way. -/
def route (s : Network) (server : Server) : Network :=
  let new := server.sent.drop s.server.sent.length
  { s with
    server
    link := fun c => { s.link c with down := (s.link c).down ++ packetsFor c new } }

def step (codec : Codec) (s : Network) : Label → Option Network
  | .init client execFunFlags =>
      if s.link client = {} ∧ IsIdentity client ∧ verifyExecCaps execFunFlags then
        (codec.serializeHandshake (firstHandshake client execFunFlags)).map fun payload =>
          s.setLink client { log := [none], up := [{ tag := 0, payload }] }
      else none
  | .call client call taken =>
      if (s.link client).log ≠ [] ∧ (s.link client).ongoing = none then
        some (s.startCall codec client call taken)
      else none
  | .timeout client =>
      (s.link client).ongoing.map fun ongoing =>
        s.endCall codec client ongoing none (s.link client).down
  | .deliver client =>
      match (s.link client).ongoing, (s.link client).down with
      | some ongoing, frame :: rest => some (s.endCall codec client ongoing (some frame) rest)
      | _, _ => none
  | .serve client =>
      match (s.link client).up with
      | [] => none
      | frame :: rest =>
          (Server.step codec s.server (.recv client frame.payload frame.tag)).map fun server =>
            (s.setLink client { s.link client with up := rest }).route server
  | .thread choice => (Server.step codec s.server (.thread choice)).map s.route
  | .worker i => (Server.step codec s.server (.worker i)).map s.route

inductive Step (codec : Codec) (s : Network) : Label → Network → Prop
  | init (client : Bytes) (execFunFlags : UInt8) (hnew : s.link client = {})
      (hid : IsIdentity client) (hverify : verifyExecCaps execFunFlags = true) (payload : Bytes)
      (hserialize : codec.serializeHandshake (firstHandshake client execFunFlags) =
        some payload) :
      Step codec s (.init client execFunFlags)
        (s.setLink client { log := [none], up := [{ tag := 0, payload }] })
  | call (client : Bytes) (call : Call) (taken : Bool) (hready : (s.link client).log ≠ [])
      (hidle : (s.link client).ongoing = none) :
      Step codec s (.call client call taken) (s.startCall codec client call taken)
  | timeout (client : Bytes) (ongoing : Ongoing)
      (hongoing : (s.link client).ongoing = some ongoing) :
      Step codec s (.timeout client)
        (s.endCall codec client ongoing none (s.link client).down)
  | deliver (client : Bytes) (ongoing : Ongoing)
      (hongoing : (s.link client).ongoing = some ongoing) (frame : Packet) (rest : List Packet)
      (hdown : (s.link client).down = frame :: rest) :
      Step codec s (.deliver client) (s.endCall codec client ongoing (some frame) rest)
  | serve (client : Bytes) (frame : Packet) (rest : List Packet)
      (hup : (s.link client).up = frame :: rest) (server : Server)
      (hserver : Server.step codec s.server (.recv client frame.payload frame.tag) =
        some server) :
      Step codec s (.serve client)
        ((s.setLink client { s.link client with up := rest }).route server)
  | thread (choice : Choice) (server : Server)
      (hserver : Server.step codec s.server (.thread choice) = some server) :
      Step codec s (.thread choice) (s.route server)
  | worker (i : ℕ) (server : Server)
      (hserver : Server.step codec s.server (.worker i) = some server) :
      Step codec s (.worker i) (s.route server)

/-- The inversion of `Network.step`. -/
theorem step_cases {codec : Codec} {s s' : Network} {l : Label}
    (h : step codec s l = some s') : Step codec s l s' := by
  cases l with
  | init client execFunFlags =>
      simp only [step] at h
      split at h
      · next hcond =>
          obtain ⟨hnew, hid, hverify⟩ := hcond
          obtain ⟨payload, hserialize, rfl⟩ := Option.map_eq_some_iff.mp h
          exact .init client execFunFlags hnew hid hverify payload hserialize
      · cases h
  | call client call taken =>
      simp only [step] at h
      split at h
      · next hcond =>
          obtain ⟨hready, hidle⟩ := hcond
          exact Option.some.inj h ▸ .call client call taken hready hidle
      · cases h
  | timeout client =>
      obtain ⟨ongoing, hongoing, rfl⟩ := Option.map_eq_some_iff.mp h
      exact .timeout client ongoing hongoing
  | deliver client =>
      simp only [step] at h
      split at h
      · next ongoing frame rest hongoing hdown =>
          exact Option.some.inj h ▸ .deliver client ongoing hongoing frame rest hdown
      · cases h
  | serve client =>
      simp only [step] at h
      split at h
      · cases h
      · next frame rest hup =>
          obtain ⟨server, hserver, rfl⟩ := Option.map_eq_some_iff.mp h
          exact .serve client frame rest hup server hserver
  | thread choice =>
      obtain ⟨server, hserver, rfl⟩ := Option.map_eq_some_iff.mp h
      exact .thread choice server hserver
  | worker i =>
      obtain ⟨server, hserver, rfl⟩ := Option.map_eq_some_iff.mp h
      exact .worker i server hserver

end Network

end InterProcess
