import InterProcess.Library.Exchange
import InterProcess.Message.Wire
import InterProcess.Network.Connection
import InterProcess.Server.Replies

/-!
# Requests and their replies

The messages carry no number that the two parties see, so a call takes the next reply
that comes, and only its kind is looked at. For each client the network is an exchange
on an ordered connection: what it is owed are the replies under way, the message that is
handled and the messages that will be answered. A call that begins when nothing is owed
gets its own reply; one that begins after a timeout, with the late reply still to come,
gets that one.
-/

namespace InterProcess

open Transition

namespace Server

def Label.packets (client : Bytes) : Label → List Packet
  | .recv other payload tag => if other = client then [{ tag, payload }] else []
  | .thread _ | .worker _ => []

end Server

/-- The call took the reply that the server sent for its own message. -/
structure Completed.Paired (codec : Codec) (s : Network) (c : Completed) : Prop where
  message : (s.link c.client).log[c.ongoing.number]? = some (some c.ongoing.call)
  reply : c.reply = some c.ongoing.number
  sent : ∃ payload, (⟨c.client, c.ongoing.number, payload⟩ : Sent) ∈ s.server.sent ∧
    c.result = c.ongoing.call.finish codec (some payload)

namespace Network

variable {codec : Codec}

theorem tags_replied {s : Server} {l : Server.Label} {response : EnvelopeResp}
    (hanswer : s.answer codec l = some response) (client other : Bytes) (tag : ℕ)
    (rest : List ℕ) :
    ((packetsFor client (Server.replied codec other tag response)).map Packet.tag ++ rest).Sublist
        ((if other = client then [tag] else []) ++ rest) ∧
      (Server.Serialises codec s l →
        (packetsFor client (Server.replied codec other tag response)).map Packet.tag ++ rest =
          (if other = client then [tag] else []) ++ rest) := by
  unfold Server.replied
  cases hserialise : codec.serializeResp response with
  | none => exact ⟨by simp [packetsFor], fun h => absurd hserialise (h response hanswer)⟩
  | some payload =>
      by_cases hc : other = client
      · simp [packetsFor, hc]
      · simp [packetsFor, hc]

theorem debt_step {s s' : Server} {l : Server.Label} (hs : Server.Step codec s l s')
    (client : Bytes) (up : List Packet) :
    ∃ more, s'.sent = s.sent ++ more ∧
      ((packetsFor client more).map Packet.tag ++ debt codec s' client up).Sublist
        (debt codec s client (l.packets client ++ up)) ∧
      (Server.Serialises codec s l →
        (packetsFor client more).map Packet.tag ++ debt codec s' client up =
          debt codec s client (l.packets client ++ up)) := by
  cases hs with
  | badHandshake other payload tag hfree hnew hparse =>
      refine ⟨_, rfl, ?_⟩
      by_cases hc : other = client
      · subst hc
        simp [debt, hfree, answered, hnew, hparse, packetsFor, Server.Label.packets]
      · simp [debt, hfree, packetsFor, Server.Label.packets, hc]
  | accept other payload tag hfree hnew handshake hparse hverify =>
      refine ⟨[], (List.append_nil _).symm, ?_⟩
      by_cases hc : other = client
      · subst hc
        simp [debt, hfree, answered, hnew, hparse, hverify, packetsFor, Server.Label.packets]
      · simp [debt, hfree, packetsFor, Server.Label.packets, hc, Table.insert_of_ne _ (Ne.symm hc)]
  | refuse other payload tag hfree hnew handshake hparse hverify =>
      refine ⟨_, rfl, ?_⟩
      by_cases hc : other = client
      · subst hc
        simp [debt, hfree, answered, hnew, hparse, hverify, packetsFor, Server.Label.packets]
      · simp [debt, hfree, packetsFor, Server.Label.packets, hc, Table.insert_of_ne _ (Ne.symm hc)]
  | badRequest other payload tag hfree caps hcaps hparse =>
      refine ⟨_, rfl, ?_⟩
      by_cases hc : other = client
      · subst hc
        simp [debt, hfree, answered, hcaps, packetsFor, Server.Label.packets]
      · simp [debt, hfree, packetsFor, Server.Label.packets, hc]
  | answer other payload tag hfree caps hcaps request hparse response hhandle =>
      refine ⟨_, Server.reply_sent _ _ _ _ _, ?_⟩
      have hanswer : s.answer codec (.recv other payload tag) = some response := by
        simp [Server.answer, hcaps, hparse, hhandle]
      have hdebt : debt codec s client (Server.Label.packets client (.recv other payload tag) ++ up) =
          (if other = client then [tag] else []) ++ debt codec s client up := by
        by_cases hc : other = client
        · subst hc
          simp [debt, hfree, answered, hcaps, Server.Label.packets]
        · simp [hc, Server.Label.packets]
      have hsame : debt codec (s.reply codec other tag response) client up =
          debt codec s client up := by simp [debt]
      rw [hdebt, hsame]
      exact tags_replied hanswer client other tag _
  | run other payload tag hfree caps hcaps request hparse sreq hhandle pool hpool
  | get other payload tag hfree caps hcaps request hparse greq hhandle pool hpool =>
      refine ⟨[], (List.append_nil _).symm, ?_⟩
      by_cases hc : other = client
      · subst hc
        simp [debt, hfree, answered, hcaps, packetsFor, Server.Label.packets]
      · simp [debt, hfree, packetsFor, Server.Label.packets, hc]
  | think other tag choice hbusy pool hpool hran hgot =>
      refine ⟨[], (List.append_nil _).symm, ?_⟩
      simp [debt, hbusy, packetsFor, Server.Label.packets]
  | ran other tag choice hbusy pool hpool sreq response hran =>
      refine ⟨_, Server.reply_sent _ _ _ _ _, ?_⟩
      have hanswer : s.answer codec (.thread choice) = some { resp := some (.submit response) } := by
        simp [Server.answer, hran]
      simpa [debt, hbusy, Server.Label.packets] using tags_replied hanswer client other tag
        (answered codec (s.mClientExecCaps client).isSome up)
  | got other tag choice hbusy pool hpool greq response hgot =>
      refine ⟨_, Server.reply_sent _ _ _ _ _, ?_⟩
      have hanswer : s.answer codec (.thread choice) = some { resp := some (.get response) } := by
        simp [Server.answer, hgot]
      simpa [debt, hbusy, Server.Label.packets] using tags_replied hanswer client other tag
        (answered codec (s.mClientExecCaps client).isSome up)
  | worker i pool hpool =>
      refine ⟨[], (List.append_nil _).symm, ?_⟩
      simp [debt, packetsFor, Server.Label.packets]

theorem answered_append (codec : Codec) (registered : Bool) (up : List Packet) (p : Packet) :
    ∃ b : Bool, answered codec registered (up ++ [p]) =
      answered codec registered up ++ if b then [p.tag] else [] := by
  induction up generalizing registered with
  | nil =>
      cases registered with
      | true => exact ⟨true, rfl⟩
      | false =>
          simp only [List.nil_append, answered]
          split
          · exact ⟨true, rfl⟩
          · split
            · exact ⟨false, rfl⟩
            · exact ⟨true, rfl⟩
  | cons q up ih =>
      cases registered with
      | true =>
          obtain ⟨b, hb⟩ := ih true
          exact ⟨b, by simp only [List.cons_append, answered, hb]⟩
      | false =>
          simp only [List.cons_append, answered]
          split
          · obtain ⟨b, hb⟩ := ih false
            exact ⟨b, by rw [hb, List.cons_append]⟩
          · obtain ⟨b, hb⟩ := ih true
            split
            · exact ⟨b, hb⟩
            · exact ⟨b, by rw [hb, List.cons_append]⟩

/-- The client's side of the network as a party that exchanges messages. -/
def exchange (codec : Codec) (s : Network) (client : Bytes) : Exchange where
  owed := s.owed codec client
  next := (s.link client).log.length
  current := (s.link client).ongoing.map fun ongoing => (ongoing.number, ongoing.clean)

theorem exchange_congr {s s' : Network} {client : Bytes} (hserver : s'.server = s.server)
    (hlink : s'.link client = s.link client) :
    s'.exchange codec client = s.exchange codec client := by
  simp only [exchange, owed, hserver, hlink]

theorem route_link {s : Network} {server : Server} {more : List Sent}
    (hsent : server.sent = s.server.sent ++ more) (client : Bytes) :
    (s.route server).link client =
      { s.link client with down := (s.link client).down ++ packetsFor client more } := by
  simp [route, hsent]

theorem exchange_route {lossy : Prop} {s s₁ : Network} {server : Server} {m : Server.Label}
    {client : Bytes} (hs : Server.Step codec s.server m server)
    (hserver : s₁.server = s.server) (hlossy : ¬ lossy → Server.Serialises codec s.server m)
    (hup : (s.link client).up = m.packets client ++ (s₁.link client).up)
    (hdown : (s₁.link client).down = (s.link client).down)
    (hlog : (s₁.link client).log = (s.link client).log)
    (hongoing : (s₁.link client).ongoing = (s.link client).ongoing) :
    Exchange.Step lossy (s.exchange codec client) ((s₁.route server).exchange codec client) := by
  obtain ⟨more, hsent, hsub, hsame⟩ := debt_step hs client (s₁.link client).up
  rw [← hserver] at hsent
  have hlink := route_link hsent client
  have howed : (s₁.route server).owed codec client = (s.link client).down.map Packet.tag ++
      ((packetsFor client more).map Packet.tag ++ debt codec server client (s₁.link client).up) := by
    simp only [owed, hlink, hdown, List.map_append, List.append_assoc]
    rfl
  have hbefore : s.owed codec client = (s.link client).down.map Packet.tag ++
      debt codec s.server client (m.packets client ++ (s₁.link client).up) := by
    rw [owed, hup]
  apply Exchange.Step.of_sublist
  · simp [exchange, hlink, hlog]
  · simp [exchange, hlink, hongoing]
  · show ((s₁.route server).owed codec client).Sublist (s.owed codec client)
    rw [howed, hbefore]
    exact hsub.append_left _
  · intro hnot
    show (s₁.route server).owed codec client = s.owed codec client
    rw [howed, hbefore, hsame (hlossy hnot)]

theorem owed_send (codec : Codec) (s : Network) (client : Bytes) (link : Link) {p : Packet}
    (hup : link.up = (s.link client).up ++ [p]) (hdown : link.down = (s.link client).down) :
    ∃ b : Bool, (s.setLink client link).owed codec client =
      s.owed codec client ++ if b then [p.tag] else [] := by
  obtain ⟨b, hb⟩ := answered_append codec (s.server.mClientExecCaps client).isSome
    (s.link client).up p
  refine ⟨b, ?_⟩
  simp only [owed, debt, setLink_link, setLink_server, Function.update_self, hup, hdown, hb,
    List.append_assoc]

theorem exchange_start {lossy : Prop} {s : Network} {client : Bytes} (call : Call) (taken : Bool)
    (hidle : (s.link client).ongoing = none) :
    Exchange.Step lossy (s.exchange codec client)
      ((s.startCall codec client call taken).exchange codec client) := by
  have hcurrent : (s.exchange codec client).current = none := by simp [exchange, hidle]
  unfold startCall
  split
  · next payload hsend =>
      obtain ⟨b, hb⟩ := owed_send codec s client
        { s.link client with
          log := (s.link client).log ++ [some call]
          up := (s.link client).up ++ [⟨(s.link client).log.length, payload⟩]
          ongoing := some ⟨call, (s.link client).log.length, (s.owed codec client).isEmpty⟩ }
        rfl rfl
      have hstep : Exchange.Step lossy (s.exchange codec client) _ := .start b hcurrent
      simpa [exchange, hb] using hstep
  · split
    · have hstep : Exchange.Step lossy (s.exchange codec client) _ := .post false hcurrent
      simpa [exchange, owed, debt, hidle] using hstep
    · have hstep : Exchange.Step lossy (s.exchange codec client) _ := .start false hcurrent
      simpa [exchange, owed, debt] using hstep

theorem exchange_init {lossy : Prop} {s : Network} {client : Bytes}
    (hnew : s.link client = {}) (payload : Bytes) :
    Exchange.Step lossy (s.exchange codec client)
      ((s.setLink client { log := [none], up := [⟨0, payload⟩] }).exchange codec client) := by
  have hcurrent : (s.exchange codec client).current = none := by simp [exchange, hnew]
  obtain ⟨b, hb⟩ := owed_send codec s client
    { log := [none], up := [⟨0, payload⟩] } (p := ⟨0, payload⟩) (by rw [hnew]; rfl) (by rw [hnew])
  have hstep : Exchange.Step lossy (s.exchange codec client) _ := .post b hcurrent
  simpa [exchange, hb, hnew] using hstep

theorem exchange_end {lossy : Prop} {s : Network} {client : Bytes} (ongoing : Ongoing)
    {frame : Option Packet} {down : List Packet}
    (hdown : (s.link client).down = frame.toList ++ down) :
    Exchange.Step lossy (s.exchange codec client)
      ((s.endCall codec client ongoing frame down).exchange codec client) := by
  cases frame with
  | none =>
      have hstep : Exchange.Step lossy (s.exchange codec client) _ := .stop
      simpa [exchange, endCall, owed, debt, hdown] using hstep
  | some frame =>
      have hstep : Exchange.Step lossy (s.exchange codec client) _ := .take frame.tag
        (down.map Packet.tag ++ debt codec s.server client (s.link client).up)
        (by simp [exchange, owed, hdown])
      simpa [exchange, endCall, owed, debt] using hstep

theorem exchange_other {lossy : Prop} {s s' : Network} {client other : Bytes} {link : Link}
    (hserver : s'.server = s.server) (hlink : s'.link = Function.update s.link other link)
    (hne : client ≠ other) :
    Exchange.Step lossy (s.exchange codec client) (s'.exchange codec client) := by
  rw [exchange_congr hserver (by rw [hlink, Function.update_of_ne hne])]
  exact .stay

@[simp] theorem startCall_server (s : Network) (client : Bytes) (call : Call) (taken : Bool) :
    (s.startCall codec client call taken).server = s.server := by
  unfold startCall
  split
  · rfl
  · split <;> rfl

theorem startCall_link (codec : Codec) (s : Network) (client : Bytes) (call : Call) (taken : Bool) :
    ∃ link, (s.startCall codec client call taken).link = Function.update s.link client link := by
  unfold startCall
  split
  · exact ⟨_, rfl⟩
  · split <;> exact ⟨_, rfl⟩

/-- Every step of the network is one of the client's exchange. -/
theorem exchange_step {lossy : Prop} {s s' : Network} {l : Label} (hs : Step codec s l s')
    (hlossy : ¬ lossy → ∀ m, Server.Serialises codec s.server m) (client : Bytes) :
    Exchange.Step lossy (s.exchange codec client) (s'.exchange codec client) := by
  cases hs with
  | init other execFunFlags hnew hid hverify payload =>
      by_cases hc : client = other
      · subst hc
        exact exchange_init hnew payload
      · exact exchange_other rfl rfl hc
  | call other call taken hready hidle =>
      by_cases hc : client = other
      · subst hc
        exact exchange_start call taken hidle
      · obtain ⟨link, hlink⟩ := startCall_link codec s other call taken
        exact exchange_other (startCall_server _ _ _ _) hlink hc
  | timeout other ongoing =>
      by_cases hc : client = other
      · subst hc
        exact exchange_end ongoing rfl
      · exact exchange_other rfl rfl hc
  | deliver other ongoing hongoing frame rest hdown =>
      by_cases hc : client = other
      · subst hc
        exact exchange_end ongoing hdown
      · exact exchange_other rfl rfl hc
  | serve other frame rest hup server hserver =>
      have hstep := (Server.step_cases hserver).2
      by_cases hc : client = other
      · subst hc
        exact exchange_route hstep rfl (fun h => hlossy h _)
          (by simp [hup, Server.Label.packets]) (by simp) (by simp) (by simp)
      · exact exchange_route hstep rfl (fun h => hlossy h _)
          (by simp [hc, Ne.symm hc, Server.Label.packets]) (by simp [hc]) (by simp [hc]) (by simp [hc])
  | thread choice server hserver | worker i server hserver =>
      exact exchange_route (Server.step_cases hserver).2 rfl (fun h => hlossy h _) rfl rfl rfl rfl

/-! ### What is on record -/

theorem getElem?_of_extends {α : Type*} {xs ys : List α} (h : xs <+: ys) {i : ℕ} {x : α}
    (hi : xs[i]? = some x) : ys[i]? = some x := by
  obtain ⟨hlt, rfl⟩ := List.getElem?_eq_some_iff.mp hi
  exact List.prefix_iff_getElem?.mp h i hlt

theorem log_step {s s' : Network} {l : Label} (hs : Step codec s l s') (client : Bytes) :
    (s.link client).log <+: (s'.link client).log := by
  cases hs with
  | init other execFunFlags hnew =>
      by_cases hc : client = other
      · subst hc
        simp [hnew]
      · simp [hc]
  | call other call taken =>
      by_cases hc : client = other
      · subst hc
        unfold startCall
        split
        · simp
        · split <;> simp
      · obtain ⟨link, hlink⟩ := startCall_link codec s other call taken
        simp [hlink, hc]
  | timeout other ongoing | deliver other ongoing =>
      by_cases hc : client = other
      · subst hc
        simp [endCall]
      · simp [endCall, hc]
  | serve other frame rest =>
      by_cases hc : client = other
      · subst hc
        simp [route]
      · simp [route, hc]
  | thread | worker => simp [route]

theorem sent_step {s s' : Network} {l : Label} (hs : Step codec s l s') :
    s.server.sent <+: s'.server.sent := by
  cases hs with
  | init | timeout | deliver => exact List.prefix_rfl
  | call => rw [startCall_server]
  | serve _ _ _ _ server hserver | thread _ server hserver | worker _ server hserver =>
      obtain ⟨more, hsent, -⟩ := debt_step (Server.step_cases hserver).2 [] []
      exact ⟨more, hsent.symm⟩

theorem completed_step {s s' : Network} {l : Label} (hs : Step codec s l s') {c : Completed}
    (hc : c ∈ s'.completed) (hok : c.result.ok = true) :
    c ∈ s.completed ∨ ∃ client ongoing frame rest,
      (s.link client).ongoing = some ongoing ∧ (s.link client).down = frame :: rest ∧
        c = ⟨client, ongoing, some frame.tag, ongoing.call.finish codec (some frame.payload)⟩ := by
  cases hs with
  | init | serve | thread | worker => exact Or.inl hc
  | call client call taken =>
      unfold startCall at hc
      split at hc
      · exact Or.inl hc
      · split at hc
        · rcases List.mem_append.mp hc with hc | hc
          · exact Or.inl hc
          · obtain rfl := List.mem_singleton.mp hc
            simp at hok
        · exact Or.inl hc
  | timeout client ongoing =>
      rcases List.mem_append.mp hc with hc | hc
      · exact Or.inl hc
      · obtain rfl := List.mem_singleton.mp hc
        simp [Call.finish_none] at hok
  | deliver client ongoing hongoing frame rest hdown =>
      rcases List.mem_append.mp hc with hc | hc
      · exact Or.inl hc
      · exact Or.inr ⟨client, ongoing, frame, rest, hongoing, hdown, List.mem_singleton.mp hc⟩

/-- The numbers on record are those of the client's messages, and what is on its way to a
client was sent to it. -/
structure Recorded (s : Network) (client : Bytes) : Prop where
  down : ∀ p ∈ (s.link client).down, (⟨client, p.tag, p.payload⟩ : Sent) ∈ s.server.sent
  ongoing : ∀ ongoing, (s.link client).ongoing = some ongoing →
    (s.link client).log[ongoing.number]? = some (some ongoing.call)

theorem mem_packetsFor {client : Bytes} {sent : List Sent} {p : Packet}
    (h : p ∈ packetsFor client sent) : (⟨client, p.tag, p.payload⟩ : Sent) ∈ sent := by
  obtain ⟨r, hr, rfl⟩ := List.mem_map.mp h
  obtain ⟨hmem, hclient⟩ := List.mem_filter.mp hr
  obtain rfl := of_decide_eq_true hclient
  exact hmem

theorem Recorded.route {s : Network} {client : Bytes} (h : s.Recorded client) {server : Server}
    (hsent : s.server.sent <+: server.sent) : (s.route server).Recorded client := by
  obtain ⟨more, hmore⟩ := hsent
  have hlink := route_link hmore.symm client
  refine ⟨fun p hp => ?_, fun ongoing hongoing => ?_⟩
  · show _ ∈ server.sent
    rw [← hmore]
    rw [hlink] at hp
    rcases List.mem_append.mp hp with hold | hnew
    · exact List.mem_append_left _ (h.down p hold)
    · exact List.mem_append_right _ (mem_packetsFor hnew)
  · rw [hlink] at hongoing ⊢
    exact h.ongoing ongoing hongoing

theorem recorded_step {s s' : Network} {l : Label} (hs : Step codec s l s') {client : Bytes}
    (h : s.Recorded client) : s'.Recorded client := by
  have hsent := sent_step hs
  cases hs with
  | init other execFunFlags hnew =>
      by_cases hc : client = other
      · subst hc
        exact ⟨by simp, by simp⟩
      · exact ⟨by simpa [hc] using h.down, by simpa [hc] using h.ongoing⟩
  | call other call taken =>
      by_cases hc : client = other
      · subst hc
        unfold startCall
        split
        · exact ⟨by simpa using h.down, by simp⟩
        · split
          · exact ⟨by simpa using h.down, by simp_all⟩
          · exact ⟨by simpa using h.down, by simp⟩
      · obtain ⟨link, hlink⟩ := startCall_link codec s other call taken
        refine ⟨?_, ?_⟩
        · simpa [hlink, hc] using h.down
        · simpa [hlink, hc] using h.ongoing
  | timeout other ongoing =>
      by_cases hc : client = other
      · subst hc
        exact ⟨by simpa [endCall] using h.down, by simp [endCall]⟩
      · exact ⟨by simpa [endCall, hc] using h.down, by simpa [endCall, hc] using h.ongoing⟩
  | deliver other ongoing hongoing frame rest hdown =>
      by_cases hc : client = other
      · subst hc
        refine ⟨fun p hp => ?_, by simp [endCall]⟩
        have hp : p ∈ rest := by simpa [endCall] using hp
        exact h.down p (hdown ▸ List.mem_cons_of_mem _ hp)
      · exact ⟨by simpa [endCall, hc] using h.down, by simpa [endCall, hc] using h.ongoing⟩
  | serve other frame rest hup server =>
      refine Recorded.route ?_ hsent
      by_cases hc : client = other
      · subst hc
        exact ⟨by simpa using h.down, by simpa using h.ongoing⟩
      · exact ⟨by simpa [hc] using h.down, by simpa [hc] using h.ongoing⟩
  | thread choice server | worker i server => exact h.route hsent

theorem paired_mono {s s' : Network} {l : Label} (hs : Step codec s l s') {c : Completed}
    (h : c.Paired codec s) : c.Paired codec s' := by
  obtain ⟨payload, hsent, hresult⟩ := h.sent
  exact ⟨getElem?_of_extends (log_step hs c.client) h.message, h.reply, payload,
    (sent_step hs).subset hsent, hresult⟩

/-- The invariant of the network: what is on record, the order of the replies, and which
calls took their own reply. -/
structure Orderly (codec : Codec) (s : Network) : Prop where
  recorded : ∀ client, s.Recorded client
  yielding : s.server.mAlgoRunner.Yielding fun _ result => result.Brief
  ordered : ∀ client, (s.exchange codec client).Ordered (¬ codec.Lawful)
  own : ∀ c ∈ s.completed, c.result.ok = true → c.ongoing.clean = true → c.Paired codec s
  other : codec.Lawful → ∀ c ∈ s.completed, c.result.ok = true → c.ongoing.clean = false →
    c.reply ≠ some c.ongoing.number

theorem orderly_start (codec : Codec) (n : ℕ) : (start n).Orderly codec where
  recorded _ := ⟨fun _ h => (List.not_mem_nil h).elim, fun _ h => nomatch h⟩
  yielding := Pool.yielding_start _ n
  ordered _ := Exchange.ordered_empty
  own _ h := (List.not_mem_nil h).elim
  other _ _ h := (List.not_mem_nil h).elim

theorem server_step {s s' : Network} {l : Label} (hs : Step codec s l s') :
    s'.server = s.server ∨ ∃ m, Server.step codec s.server m = some s'.server := by
  cases hs with
  | init | timeout | deliver => exact Or.inl rfl
  | call => exact Or.inl (startCall_server _ _ _ _)
  | serve _ _ _ _ server hserver | thread _ server hserver | worker _ server hserver =>
      exact Or.inr ⟨_, hserver⟩

theorem orderly_step (s : Network) (l : Label) (s' : Network) (h : s.Orderly codec)
    (hstep : step codec s l = some s') : s'.Orderly codec := by
  have hs := step_cases hstep
  refine ⟨fun client => recorded_step hs (h.recorded client), ?_, fun client => ?_,
    fun c hc hok hclean => ?_, fun hcodec c hc hok hclean => ?_⟩
  · rcases server_step hs with heq | ⟨m, hm⟩
    · rw [heq]
      exact h.yielding
    · exact Server.yielding_step (fun _ _ _ => by simp [Result.Brief, Result.texts])
        (fun sreq _ _ => yields_brief sreq) _ m _ h.yielding hm
  · refine Exchange.ordered_step (h.ordered client) (exchange_step hs (fun hcodec m => ?_) client)
    exact Server.serialises_of_lawful (not_not.mp hcodec) h.yielding m
  · rcases completed_step hs hc hok with hold | ⟨client, ongoing, frame, rest, hongoing, hdown, rfl⟩
    · exact paired_mono hs (h.own c hold hok hclean)
    · have hcurrent : (s.exchange codec client).current = some (ongoing.number, true) := by
        simp [exchange, hongoing, show ongoing.clean = true from hclean]
      have htag : frame.tag = ongoing.number :=
        (h.ordered client).take_own (by simp [exchange, owed, hdown]; rfl) hcurrent
      have hsent := (h.recorded client).down frame (hdown ▸ List.mem_cons_self)
      refine paired_mono hs ⟨(h.recorded client).ongoing ongoing hongoing, by rw [htag], ?_⟩
      exact ⟨frame.payload, htag ▸ hsent, rfl⟩
  · rcases completed_step hs hc hok with hold | ⟨client, ongoing, frame, rest, hongoing, hdown, rfl⟩
    · exact h.other hcodec c hold hok hclean
    · have hcurrent : (s.exchange codec client).current = some (ongoing.number, false) := by
        simp [exchange, hongoing, show ongoing.clean = false from hclean]
      have htag : frame.tag < ongoing.number :=
        (h.ordered client).take_older (not_not.mpr hcodec) (by simp [exchange, owed, hdown]; rfl)
          hcurrent
      intro heq
      exact htag.ne (Option.some.inj heq)

/-- A call begins when the client has received every reply to its earlier messages. -/
def Clear (codec : Codec) (s : Network) : Label → Prop
  | .call client _ _ => s.owed codec client = []
  | _ => True

instance (codec : Codec) (s : Network) : ∀ l, Decidable (Clear codec s l)
  | .call client _ _ => inferInstanceAs (Decidable (s.owed codec client = []))
  | .init _ _ | .timeout _ | .deliver _ | .serve _ | .thread _ | .worker _ =>
      inferInstanceAs (Decidable True)

/-- Every call on record began when nothing was owed to its client. -/
structure AllClean (s : Network) : Prop where
  ongoing : ∀ client ongoing, (s.link client).ongoing = some ongoing → ongoing.clean = true
  completed : ∀ c ∈ s.completed, c.ongoing.clean = true

theorem allClean_start (n : ℕ) : (start n).AllClean where
  ongoing _ _ h := nomatch h
  completed _ h := (List.not_mem_nil h).elim

theorem allClean_step (s : Network) (l : Label) (s' : Network) (h : s.AllClean)
    (hclear : Clear codec s l) (hstep : step codec s l = some s') : s'.AllClean := by
  have hs := step_cases hstep
  cases hs with
  | init client execFunFlags =>
      refine ⟨fun other ongoing hongoing => ?_, h.completed⟩
      by_cases hc : other = client
      · simp [hc] at hongoing
      · exact h.ongoing other ongoing (by simpa [hc] using hongoing)
  | call client call taken =>
      have hclean : (s.owed codec client).isEmpty = true := by
        rw [show s.owed codec client = [] from hclear]
        rfl
      have hother : ∀ {link : Link}, (∀ ongoing, link.ongoing = some ongoing →
          ongoing.clean = true) → (s.setLink client link).AllClean := by
        refine fun {link} hlink => ⟨fun other ongoing hongoing => ?_, h.completed⟩
        by_cases hc : other = client
        · exact hlink ongoing (by simpa [hc] using hongoing)
        · exact h.ongoing other ongoing (by simpa [hc] using hongoing)
      unfold startCall
      split
      · exact hother (by simp [hclean])
      · split
        · have hsame : (s.setLink client { s.link client with
              log := (s.link client).log ++ [some call] }).AllClean := hother (h.ongoing client)
          refine ⟨hsame.ongoing, fun c hc => ?_⟩
          rcases List.mem_append.mp hc with hold | hnew
          · exact h.completed c hold
          · obtain rfl := List.mem_singleton.mp hnew
            exact hclean
        · exact hother (by simp [hclean])
  | timeout client ongoing hongoing | deliver client ongoing hongoing =>
      refine ⟨fun other ongoing' hongoing' => ?_, fun c hc => ?_⟩
      · by_cases hc : other = client
        · simp [endCall, hc] at hongoing'
        · exact h.ongoing other ongoing' (by simpa [endCall, hc] using hongoing')
      · rcases List.mem_append.mp hc with hold | hnew
        · exact h.completed c hold
        · obtain rfl := List.mem_singleton.mp hnew
          exact h.ongoing client ongoing hongoing
  | serve client frame rest =>
      refine ⟨fun other ongoing hongoing => ?_, h.completed⟩
      by_cases hc : other = client
      · subst hc
        exact h.ongoing other ongoing (by simpa [route] using hongoing)
      · exact h.ongoing other ongoing (by simpa [route, hc] using hongoing)
  | thread | worker => exact ⟨h.ongoing, h.completed⟩

/-- If every call begins when nothing is owed to its client, every call that returns a
response returns the reply to its own message. If no reply is lost in the serialisation,
it does so exactly if nothing was owed when it began. -/
theorem calls_paired_of_clear (codec : Codec) (n : ℕ) (ls : List Label) (s : Network)
    (hrun : run (step codec) (start n) ls = some s) :
    (Guarded (step codec) (Clear codec) (start n) ls →
      ∀ c ∈ s.completed, c.result.ok = true → c.Paired codec s) ∧
    (codec.Lawful → ∀ c ∈ s.completed, c.result.ok = true →
      (c.Paired codec s ↔ c.ongoing.clean = true)) := by
  have horderly := run_invariant orderly_step (orderly_start codec n) hrun
  refine ⟨fun hclear c hc hok => ?_, fun hcodec c hc hok => ⟨fun hpaired => ?_, ?_⟩⟩
  · have hclean : s.AllClean := run_invariant_of_guarded allClean_step
      (allClean_start n) hclear hrun
    exact horderly.own c hc hok (hclean.completed c hc)
  · by_contra hclean
    exact horderly.other hcodec c hc hok (by simpa using hclean) hpaired.reply
  · exact horderly.own c hc hok

def joined : List Label := [.init (List.replicate 8 65) 1, .serve (List.replicate 8 65)]

def added : List Label := [.serve (List.replicate 8 65), .thread {}, .thread {}]

def addCall (a b : Int32) : Label :=
  .call (List.replicate 8 65) (.submitBlocking (Server.addBlocking a b)) true

/-- The one call of a client takes its own reply. -/
theorem calls_paired_of_clear_add :
    ∃ s c, run (step wireCodec) (start 1)
        (joined ++ [addCall 2 3] ++ added ++ [.deliver (List.replicate 8 65)]) = some s ∧
      c ∈ s.completed ∧ c.result.ok = true ∧ c.ongoing.clean = true ∧ c.Paired wireCodec s := by
  obtain ⟨s, hs, htest⟩ := exists_of_run_any (step wireCodec) (start 1)
    (joined ++ [addCall 2 3] ++ added ++ [.deliver (List.replicate 8 65)])
    (fun s => s.completed.any fun c => c.result.ok) (by decide)
  obtain ⟨c, hc, hok⟩ := List.any_eq_true.mp htest
  obtain ⟨hpaired, hiff⟩ := calls_paired_of_clear wireCodec 1 _ s hs
  have hown := hpaired (by decide) c hc hok
  exact ⟨s, c, hs, hc, hok, (hiff wireCodec_lawful c hc hok).mp hown, hown⟩

/-- A call times out, and the next one of the client, to add other numbers, returns its
reply: 20 and 30 make 5. -/
theorem stale_reply_taken :
    ∃ s c, run (step wireCodec) (start 1) (joined ++
        [addCall 2 3, .timeout (List.replicate 8 65), addCall 20 30] ++ added ++
        [.deliver (List.replicate 8 65)]) = some s ∧
      c ∈ s.completed ∧ c.ongoing.call = .submitBlocking (Server.addBlocking 20 30) ∧
      c.result = .submit true
        { status := .stSuccess, result := some { value := some (.intResult 5) } } ∧
      c.result.ok = true ∧ ¬ c.Paired wireCodec s := by
  obtain ⟨s, hs, htest⟩ := exists_of_run_any (step wireCodec) (start 1)
    (joined ++ [addCall 2 3, .timeout (List.replicate 8 65), addCall 20 30] ++ added ++
      [.deliver (List.replicate 8 65)])
    (fun s => s.completed.any fun c =>
      (c.ongoing.call = .submitBlocking (Server.addBlocking 20 30) ∧
      c.result = .submit true
        { status := .stSuccess, result := some { value := some (.intResult 5) } }) ∧
      c.reply ≠ some c.ongoing.number) (by decide)
  obtain ⟨c, hc, hcall⟩ := List.any_eq_true.mp htest
  obtain ⟨⟨hcall, hresult⟩, hreply⟩ := of_decide_eq_true hcall
  exact ⟨s, c, hs, hc, hcall, hresult, by rw [hresult]; rfl, fun h => hreply h.reply⟩

end Network

end InterProcess
