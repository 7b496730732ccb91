import InterProcess.Network.Traffic
import InterProcess.Server.Desk

/-!
# The history of the calls

From the clients' side: every client goes to the desk of `Server.Desk` with its handshake
first and with its calls after that. A visit has the answer and no bytes. The handshakes
and the calls of a run can be put in one order, that in which the server deals with them,
so that they are right as visits; a call that took its own reply returned the answer of its
visit, and what was over before another call began comes before it in the order.
-/

namespace InterProcess

open Transition Wire

/-- What a client goes to the desk for. -/
inductive Errand where
  | greet (execFunFlags : UInt8)
  | call (call : Call)
  deriving DecidableEq, Repr

/-- A message of a client, the one with this number, as it is dealt with. -/
structure Visit where
  client : Bytes
  number : ℕ
  errand : Errand
  reply : Option EnvelopeResp
  deriving DecidableEq, Repr

namespace Desk

/-- The desk after a visit; `none` if the answer is wrong. -/
def visit (desk : Desk) (v : Visit) : Option Desk :=
  match v.errand, desk.clients v.client with
  | .greet execFunFlags, none =>
      if v.reply = none then
        some { desk with clients := desk.clients.insert v.client execFunFlags }
      else none
  | .call call, some caps =>
      if ∀ s ∈ call.envelope.texts, IsText s then v.reply.bind (desk.answer caps call.envelope)
      -- the server's parser refuses strings that are not UTF-8
      else if v.reply = some badResponse then some desk else none
  | _, _ => none

end Desk

def Errand.payload (codec : Codec) (client : Bytes) : Errand → Option Bytes
  | .greet execFunFlags => codec.serializeHandshake (firstHandshake client execFunFlags)
  | .call c => codec.serializeReq c.envelope

/-- What the client with this number has sent. -/
inductive Errand.OnRecord (ls : List Network.Label) (s : Network) (client : Bytes) (number : ℕ) :
    Errand → Prop
  | greet (execFunFlags : UInt8) (hlabel : .init client execFunFlags ∈ ls)
      (hid : IsIdentity client) (hverify : verifyExecCaps execFunFlags = true)
      (hlog : (s.link client).log[number]? = some none) (hnumber : number = 0) :
      OnRecord ls s client number (.greet execFunFlags)
  | call (call : Call) (hlog : (s.link client).log[number]? = some (some call))
      (hnumber : number ≠ 0) : OnRecord ls s client number (.call call)

theorem Errand.OnRecord.mono {ls ls' : List Network.Label} {s s' : Network} {client : Bytes}
    {number : ℕ} {errand : Errand} (h : errand.OnRecord ls s client number) (hls : ls ⊆ ls')
    (hlog : (s.link client).log <+: (s'.link client).log) :
    errand.OnRecord ls' s' client number := by
  cases h with
  | greet execFunFlags hlabel hid hverify hgreet hnumber =>
      exact .greet execFunFlags (hls hlabel) hid hverify (Network.getElem?_of_extends hlog hgreet)
        hnumber
  | call call hcall hnumber => exact .call call (Network.getElem?_of_extends hlog hcall) hnumber

def Call.outcome (call : Call) (response : EnvelopeResp) : Return :=
  match call, response.resp with
  | .submitBlocking _, some (.submit out) | .submitNonBlocking _, some (.submit out) =>
      .submit true out
  | .getResult _ _ _, some (.get out) => .get true out
  | _, _ => call.failed

theorem Call.finish_eq_outcome {codec : Codec} (hcodec : codec.Lawful) {call : Call}
    {response : EnvelopeResp} {payload : Bytes}
    (hserialize : codec.serializeResp response = some payload)
    (hok : (call.finish codec (some payload)).ok = true) :
    call.finish codec (some payload) = call.outcome response := by
  have hparse := hcodec.resp _ _ hserialize
  unfold finish recvEnvelope at hok ⊢
  rw [Option.bind_some, hparse] at hok ⊢
  by_cases htexts : ∀ s ∈ response.texts, IsText s
  · rw [if_pos htexts]
    rcases response with ⟨_ | _ | _⟩ <;> cases call <;> rfl
  · rw [if_neg htexts] at hok
    simp at hok

/-- The call went to the desk like this. -/
structure Visit.Explains (v : Visit) (c : Completed) : Prop where
  client : v.client = c.client
  number : v.number = c.ongoing.number
  errand : v.errand = .call c.ongoing.call
  returned : ∃ response, v.reply = some response ∧ c.result = c.ongoing.call.outcome response

namespace Network

variable {codec : Codec} {s s' : Network} {ls : List Label} {ms : List Message}

/-- The numbers of the client's messages that the server has received, and of those on the
way to it. -/
def numbers (ms : List Message) (s : Network) (client : Bytes) : List ℕ :=
  (ms.filter fun m => m.client = client).map Message.tag ++ (s.link client).up.map Packet.tag

/-- The messages that the server has received are those of the clients, each client's
handshake first and all in their order. -/
structure Heard (codec : Codec) (ls : List Label) (s : Network) (ms : List Message) : Prop where
  known : ∀ client, s.server.mClientExecCaps client ≠ none ↔ ∃ m ∈ ms, m.client = client
  origin : ∀ m ∈ ms, ∃ errand : Errand, errand.OnRecord ls s m.client m.tag ∧
    errand.payload codec m.client = some m.payload
  first : ∀ before m after, ms = before ++ m :: after →
    (m.tag = 0 ↔ ∀ m' ∈ before, m'.client ≠ m.client)
  greeting : ∀ client p rest, s.server.mClientExecCaps client = none →
    (s.link client).up = p :: rest → ∃ errand : Errand, errand.OnRecord ls s client 0 ∧
      p.tag = 0 ∧ errand.payload codec client = some p.payload
  sorted : ∀ client, (s.numbers ms client).Pairwise (· < ·)
  below : ∀ client, ∀ t ∈ s.numbers ms client, t < (s.link client).log.length

theorem heard_start (codec : Codec) (n : ℕ) : Heard codec [] (start n) [] where
  known client := by simp [start, Server.start]
  origin _ hm := (List.not_mem_nil hm).elim
  first before m after h := by simp at h
  greeting client p rest _ hup := by simp [start] at hup
  sorted client := by simp [numbers, start]
  below client := by simp [numbers, start]

theorem Heard.client (h : Heard codec ls s ms) (l : Label) {client : Bytes} {link : Link}
    (hserver : s'.server = s.server) (hlink : s'.link = Function.update s.link client link)
    (hlog : (s.link client).log <+: link.log)
    (hup : link.up.map Packet.tag = (s.link client).up.map Packet.tag ∨
      link.up.map Packet.tag =
          (s.link client).up.map Packet.tag ++ [(s.link client).log.length] ∧
        (s.link client).log.length < link.log.length)
    (hgreeting : ∀ p rest, s.server.mClientExecCaps client = none → link.up = p :: rest →
      ∃ errand : Errand, errand.OnRecord (ls ++ [l]) s' client 0 ∧ p.tag = 0 ∧
        errand.payload codec client = some p.payload) : Heard codec (ls ++ [l]) s' ms := by
  have hlabels : ls ⊆ ls ++ [l] := List.subset_append_left _ _
  have hmine : s'.link client = link := by rw [hlink, Function.update_self]
  have hother : ∀ c, c ≠ client → s'.link c = s.link c := fun c hc => by
    rw [hlink, Function.update_of_ne hc]
  have hlogs : ∀ c, (s.link c).log <+: (s'.link c).log := by
    intro c
    by_cases hc : c = client
    · subst hc
      rwa [hmine]
    · rw [hother c hc]
  refine ⟨hserver ▸ h.known, fun m hm => ?_, h.first, fun c p rest hcaps hfront => ?_, fun c => ?_,
    fun c => ?_⟩
  · obtain ⟨errand, hrecord, hpayload⟩ := h.origin m hm
    exact ⟨errand, hrecord.mono hlabels (hlogs _), hpayload⟩
  · rw [hserver] at hcaps
    by_cases hc : c = client
    · subst hc
      exact hgreeting p rest hcaps (hmine ▸ hfront)
    · obtain ⟨errand, hrecord, hrest⟩ := h.greeting c p rest hcaps (hother c hc ▸ hfront)
      exact ⟨errand, hrecord.mono hlabels (hlogs c), hrest⟩
  · by_cases hc : c = client
    · subst hc
      rcases hup with hsame | ⟨hnew, -⟩
      · simpa only [numbers, hmine, hsame] using h.sorted c
      · simp only [numbers, hmine, hnew, ← List.append_assoc]
        refine List.pairwise_append.mpr ⟨h.sorted c, List.pairwise_singleton _ _, ?_⟩
        intro t ht u hu
        rw [List.mem_singleton.mp hu]
        exact h.below c t ht
    · simpa only [numbers, hother c hc] using h.sorted c
  · by_cases hc : c = client
    · subst hc
      intro t ht
      rw [hmine]
      rcases hup with hsame | ⟨hnew, hlt⟩
      · simp only [numbers, hmine, hsame] at ht
        exact (h.below c t ht).trans_le hlog.length_le
      · simp only [numbers, hmine, hnew, ← List.append_assoc, List.mem_append,
          List.mem_singleton] at ht
        rcases ht with ht | rfl
        · exact (h.below c t (List.mem_append.mpr ht)).trans hlt
        · exact hlt
    · simpa only [numbers, hother c hc] using h.below c

section Route

variable {s₁ : Network} {server : Server} {m : Server.Label}

theorem Traffic.known_step (hcodec : codec.Lawful) (h : s.Traffic codec) (ht : s.Taken s₁ m)
    (hs : Server.Step codec s.server m server) (client : Bytes) :
    server.mClientExecCaps client ≠ none ↔
      s.server.mClientExecCaps client ≠ none ∨ ∃ msg ∈ m.message, msg.client = client := by
  have hold : ∀ {other payload : Bytes} {tag : ℕ} {caps : UInt8}, m = .recv other payload tag →
      s.server.mClientExecCaps other = some caps →
        (s.server.mClientExecCaps client ≠ none ↔
          s.server.mClientExecCaps client ≠ none ∨ ∃ msg ∈ m.message, msg.client = client) := by
    rintro other payload tag caps rfl hcaps
    refine ⟨Or.inl, fun hor => hor.elim id ?_⟩
    rintro ⟨msg, hmsg, rfl⟩
    obtain rfl := Option.some.inj hmsg
    simp [hcaps]
  cases hs with
  | badHandshake other payload tag hfree hnew hparse =>
      obtain ⟨-, execFunFlags, hid, hverify, hserialize⟩ := h.greeted ht hnew
      obtain ⟨_, hsome, -⟩ := greeting_accepted hcodec hid hverify hserialize hparse
      cases hsome
  | accept other payload tag hfree hnew | refuse other payload tag hfree hnew =>
      by_cases hc : client = other
      · subst hc
        simp [Server.Label.message]
      · simp [Server.Label.message, Table.insert_of_ne _ hc, Ne.symm hc]
  | badRequest other payload tag hfree caps hcaps => exact hold rfl hcaps
  | answer other payload tag hfree caps hcaps =>
      rw [Server.reply_mClientExecCaps]
      exact hold rfl hcaps
  | run other payload tag hfree caps hcaps | get other payload tag hfree caps hcaps =>
      exact hold rfl hcaps
  | think | worker => simp [Server.Label.message]
  | ran | got => simp [Server.Label.message]

theorem numbers_route (ht : s.Taken s₁ m) {more : List Sent}
    (hsent : server.sent = s.server.sent ++ more) (client : Bytes) :
    (s₁.route server).numbers (ms ++ m.message.toList) client = s.numbers ms client := by
  have hlink := route_link (s := s₁) (by rw [ht.server, hsent]) client
  have hmessage : (m.message.toList.filter fun msg => msg.client = client).map Message.tag =
      (m.packets client).map Packet.tag := by
    cases m with
    | recv other payload tag =>
        by_cases hc : other = client <;> simp [Server.Label.message, Server.Label.packets, hc]
    | thread | worker => rfl
  simp only [numbers, hlink, ht.up client, List.filter_append, List.map_append, hmessage,
    List.append_assoc]

theorem Heard.tag_pos (h : Heard codec ls s ms) {client payload : Bytes} {tag : ℕ}
    (ht : s.Taken s₁ (.recv client payload tag)) (hcaps : s.server.mClientExecCaps client ≠ none) :
    0 < tag := by
  obtain ⟨msg, hmsg, hclient⟩ := (h.known client).mp hcaps
  have hsorted := h.sorted client
  unfold numbers at hsorted
  rw [ht.head] at hsorted
  have hlt : msg.tag < tag := (List.pairwise_append.mp hsorted).2.2 msg.tag
    (List.mem_map.mpr ⟨msg, List.mem_filter.mpr ⟨hmsg, by simpa using hclient⟩, rfl⟩) tag (by simp)
  exact (Nat.zero_le _).trans_lt hlt

theorem Heard.arrival (h : Heard codec ls s ms) (htraffic : s.Traffic codec)
    {client payload : Bytes} {tag : ℕ} (ht : s.Taken s₁ (.recv client payload tag)) :
    (∃ errand : Errand, errand.OnRecord ls s client tag ∧
        errand.payload codec client = some payload) ∧
      (tag = 0 ↔ s.server.mClientExecCaps client = none) := by
  cases hcaps : s.server.mClientExecCaps client with
  | none =>
      obtain ⟨errand, hrecord, rfl, hpayload⟩ := h.greeting client ⟨tag, payload⟩ _ hcaps ht.head
      exact ⟨⟨errand, hrecord, hpayload⟩, by simp⟩
  | some caps =>
      have hpos : 0 < tag := h.tag_pos ht (by simp [hcaps])
      obtain ⟨call, hcall, hserialize⟩ := htraffic.requested ht hcaps
      exact ⟨⟨.call call, .call call hcall hpos.ne', hserialize⟩, by simpa using hpos.ne'⟩

theorem Heard.route (hcodec : codec.Lawful) (h : Heard codec ls s ms) (htraffic : s.Traffic codec)
    (l : Label) (ht : s.Taken s₁ m) (hstep : Server.step codec s.server m = some server) :
    Heard codec (ls ++ [l]) (s₁.route server) (ms ++ m.message.toList) := by
  have hs := (Server.step_cases hstep).2
  obtain ⟨more, hsent, -⟩ := debt_step hs [] []
  have hlink : ∀ c, (s₁.route server).link c =
      { s₁.link c with down := (s₁.link c).down ++ packetsFor c more } :=
    route_link (by rw [ht.server, hsent])
  have hlogs : ∀ c, ((s₁.route server).link c).log = (s.link c).log := fun c => by
    rw [hlink, ht.log]
  have hmono : ∀ {c : Bytes} {number : ℕ} {errand : Errand}, errand.OnRecord ls s c number →
      errand.OnRecord (ls ++ [l]) (s₁.route server) c number := fun hrecord =>
    hrecord.mono (List.subset_append_left _ _) (hlogs _ ▸ List.prefix_rfl)
  have hknown : ∀ c, server.mClientExecCaps c ≠ none ↔
      ∃ msg ∈ ms ++ m.message.toList, msg.client = c := by
    intro c
    rw [htraffic.known_step hcodec ht hs c, h.known c]
    simp [or_and_right, exists_or]
  refine ⟨hknown, fun msg hmsg => ?_, fun before msg after hsplit => ?_,
    fun c p rest hcaps' hfront => ?_, fun c => ?_, fun c => ?_⟩
  · rcases List.mem_append.mp hmsg with hold | hnew
    · obtain ⟨errand, hrecord, hpayload⟩ := h.origin msg hold
      exact ⟨errand, hmono hrecord, hpayload⟩
    · cases m with
      | recv other payload tag =>
          obtain rfl := Option.some.inj (Option.mem_toList.mp hnew)
          obtain ⟨⟨errand, hrecord, hpayload⟩, -⟩ := h.arrival htraffic ht
          exact ⟨errand, hmono hrecord, hpayload⟩
      | thread | worker => exact (List.not_mem_nil hnew).elim
  · cases m with
    | thread | worker => exact h.first before msg after ((List.append_nil ms).symm.trans hsplit)
    | recv other payload tag =>
        rcases List.eq_nil_or_concat after with rfl | ⟨after, last, rfl⟩
        · obtain ⟨rfl, hlast⟩ := List.append_inj' hsplit rfl
          obtain rfl := (List.cons.inj hlast).1
          rw [(h.arrival htraffic ht).2, ← not_iff_not, ← ne_eq, h.known other]
          simp
        · rw [List.concat_eq_append, ← List.cons_append, ← List.append_assoc] at hsplit
          exact h.first before msg after (List.append_inj' hsplit rfl).1
  · have hquiet := not_iff_not.mpr (htraffic.known_step hcodec ht hs c)
    obtain ⟨hcaps, hnone⟩ := not_or.mp (hquiet.mp (not_not.mpr hcaps'))
    have hpackets : m.packets c = [] := by
      cases m with
      | recv other payload tag => exact if_neg fun hc => hnone ⟨_, rfl, hc⟩
      | thread | worker => rfl
    have hup : (s.link c).up = p :: rest := by
      rw [ht.up c, hpackets, List.nil_append, ← hfront, hlink]
    obtain ⟨errand, hrecord, hrest⟩ := h.greeting c p rest (not_not.mp hcaps) hup
    exact ⟨errand, hmono hrecord, hrest⟩
  · rw [numbers_route ht hsent]
    exact h.sorted c
  · rw [numbers_route ht hsent, hlogs]
    exact h.below c

end Route

theorem Heard.startCall (h : Heard codec ls s ms) (htraffic : s.Traffic codec) (l : Label)
    {client : Bytes} (call : Call) (taken : Bool) (hready : (s.link client).log ≠ []) :
    Heard codec (ls ++ [l]) (s.startCall codec client call taken) ms := by
  have hextends : (s.link client).log <+: (s.link client).log ++ [some call] :=
    List.prefix_append _ _
  have hfront : ∀ {link : Link} {s' : Network} {p : Packet} {rest more : List Packet},
      s'.link = Function.update s.link client link → (s.link client).log <+: link.log →
      s.server.mClientExecCaps client = none → (s.link client).up ++ more = p :: rest →
      ∃ errand : Errand, errand.OnRecord (ls ++ [l]) s' client 0 ∧ p.tag = 0 ∧
        errand.payload codec client = some p.payload := by
    intro link s' p rest more hlink hlog hcaps hup
    have hupcoming := htraffic.up client
    rw [hcaps] at hupcoming
    cases hupcoming with
    | new hlog => exact absurd hlog hready
    | greeting _ _ _ rest' _ _ _ hup' =>
        obtain ⟨errand, hrecord, hpayload⟩ := h.greeting client _ _ hcaps hup'
        rw [hup', List.cons_append] at hup
        obtain ⟨rfl, -⟩ := List.cons.inj hup
        exact ⟨errand, hrecord.mono (List.subset_append_left _ _) (by rwa [hlink, Function.update_self]),
          hpayload⟩
  unfold Network.startCall
  split
  · next payload hsend =>
      refine h.client l rfl rfl hextends (Or.inr ⟨by simp, by simp⟩) fun p rest hcaps hup => ?_
      exact hfront rfl hextends hcaps hup
  · split <;>
      exact h.client l rfl rfl hextends (Or.inl rfl) fun p rest hcaps hup =>
        hfront rfl hextends hcaps ((List.append_nil _).trans hup)

theorem Heard.same (h : Heard codec ls s ms) (l : Label) {client : Bytes} {link : Link}
    (hserver : s'.server = s.server) (hlink : s'.link = Function.update s.link client link)
    (hlog : link.log = (s.link client).log) (hup : link.up = (s.link client).up) :
    Heard codec (ls ++ [l]) s' ms := by
  refine h.client l hserver hlink (hlog ▸ List.prefix_rfl) (Or.inl (by rw [hup])) ?_
  intro p rest hcaps hfront
  obtain ⟨errand, hrecord, hrest⟩ := h.greeting client p rest hcaps (hup ▸ hfront)
  refine ⟨errand, hrecord.mono (List.subset_append_left _ _) ?_, hrest⟩
  rw [hlink, Function.update_self, hlog]

theorem Heard.init (h : Heard codec ls s ms) {client : Bytes} {execFunFlags : UInt8}
    (hnew : s.link client = {}) (hid : IsIdentity client)
    (hverify : verifyExecCaps execFunFlags = true) {payload : Bytes}
    (hserialize : codec.serializeHandshake (firstHandshake client execFunFlags) = some payload) :
    Heard codec (ls ++ [.init client execFunFlags])
      (s.setLink client { log := [none], up := [⟨0, payload⟩] }) ms := by
  refine h.client _ rfl rfl (by simp [hnew]) (Or.inr (by simp [hnew])) ?_
  rintro p rest - hup
  obtain ⟨rfl, -⟩ := List.cons.inj hup
  exact ⟨.greet execFunFlags, .greet execFunFlags (by simp) hid hverify (by simp) rfl, rfl, hserialize⟩

theorem heard_step (hcodec : codec.Lawful) (h : Heard codec ls s ms) (htraffic : s.Traffic codec)
    {l : Label} (hs : Step codec s l s') :
    ∃ new, Heard codec (ls ++ [l]) s' (ms ++ new) ∧
      ((new = [] ∧ s'.server = s.server) ∨ ∃ m, Server.step codec s.server m = some s'.server ∧
        new = m.message.toList) := by
  have hclient : Heard codec (ls ++ [l]) s' ms → s'.server = s.server →
      ∃ new, Heard codec (ls ++ [l]) s' (ms ++ new) ∧
        ((new = [] ∧ s'.server = s.server) ∨ ∃ m, Server.step codec s.server m = some s'.server ∧
          new = m.message.toList) := fun hheard hserver =>
    ⟨[], by rwa [List.append_nil], Or.inl ⟨rfl, hserver⟩⟩
  cases hs with
  | init client execFunFlags hnew hid hverify payload hserialize =>
      exact hclient (h.init hnew hid hverify hserialize) rfl
  | call client call taken hready =>
      exact hclient (h.startCall htraffic _ call taken hready) (startCall_server _ _ _ _)
  | timeout client ongoing => exact hclient (h.same _ rfl rfl rfl rfl) rfl
  | deliver client ongoing => exact hclient (h.same _ rfl rfl rfl rfl) rfl
  | serve client frame rest hup server hserver =>
      exact ⟨_, h.route hcodec htraffic _ (taken_serve hup) hserver, Or.inr ⟨_, hserver, rfl⟩⟩
  | thread choice server hserver =>
      exact ⟨_, h.route hcodec htraffic _ (taken_self (by simp)) hserver, Or.inr ⟨_, hserver, rfl⟩⟩
  | worker i server hserver =>
      exact ⟨_, h.route hcodec htraffic _ (taken_self (by simp)) hserver, Or.inr ⟨_, hserver, rfl⟩⟩

/-! ### The visits -/

end Network

def Dealing.visit (errand : Message → Errand) (d : Dealing) : Visit :=
  ⟨d.message.client, d.message.tag, errand d.message, d.reply⟩

namespace Desk

theorem visit_greet {codec : Codec} (hcodec : codec.Lawful) {desk desk' : Desk} {d : Dealing}
    {execFunFlags : UInt8} (hid : IsIdentity d.message.client)
    (hverify : verifyExecCaps execFunFlags = true)
    (hpayload : codec.serializeHandshake (firstHandshake d.message.client execFunFlags) =
      some d.message.payload) (hnew : desk.clients d.message.client = none)
    (hstep : desk.step codec d = some desk') :
    d.reply = none ∧
      desk' = { desk with clients := desk.clients.insert d.message.client execFunFlags } := by
  have htext : IsText (firstHandshake d.message.client execFunFlags).clientName :=
    isText_of_identity hid.2
  have hparse := hcodec.handshake _ _ hpayload
  rw [if_pos htext] at hparse
  have hflags : (firstHandshake d.message.client execFunFlags).execFunctions.toUInt8 =
      execFunFlags := by simp [firstHandshake]
  simp only [Desk.step, hnew, hparse, hflags, hverify, if_true] at hstep
  obtain ⟨hreply, hdesk⟩ := Option.ite_none_right_eq_some.mp hstep
  exact ⟨hreply, (Option.some.inj hdesk).symm⟩

/-- A step of the desk is the visit of the client that the message is from. -/
theorem visit_of_step {codec : Codec} (hcodec : codec.Lawful) {desk desk' : Desk} {d : Dealing}
    {ls : List Network.Label} {s : Network} {errand : Message → Errand}
    (hrecord : (errand d.message).OnRecord ls s d.message.client d.message.tag)
    (hpayload : (errand d.message).payload codec d.message.client = some d.message.payload)
    (hfirst : d.message.tag = 0 ↔ desk.clients d.message.client = none)
    (hstep : desk.step codec d = some desk') :
    desk.visit (d.visit errand) = some desk' ∧ ∀ client, desk'.clients client ≠ none ↔
      desk.clients client ≠ none ∨ d.message.client = client := by
  generalize herrand : errand d.message = e at hrecord hpayload
  cases hrecord with
  | greet execFunFlags hlabel hid hverify hlog hnumber =>
      have hnew := hfirst.mp hnumber
      obtain ⟨hreply, rfl⟩ := visit_greet hcodec hid hverify hpayload hnew hstep
      refine ⟨by simp [visit, Dealing.visit, herrand, hnew, hreply], fun client => ?_⟩
      by_cases hc : client = d.message.client
      · subst hc
        simp
      · simp [Table.insert_of_ne _ hc, Ne.symm hc]
  | call call hlog hnumber =>
      obtain ⟨caps, hcaps⟩ := Option.ne_none_iff_exists'.mp (mt hfirst.mpr hnumber)
      have hparse := hcodec.req _ _ hpayload
      have hsame : desk'.clients = desk.clients → ∀ client, desk'.clients client ≠ none ↔
          desk.clients client ≠ none ∨ d.message.client = client := by
        intro hclients client
        rw [hclients]
        refine ⟨Or.inl, fun hor => hor.elim id ?_⟩
        rintro rfl
        simp [hcaps]
      by_cases htexts : ∀ s ∈ call.envelope.texts, IsText s
      · rw [if_pos htexts] at hparse
        simp only [Desk.step, hcaps, hparse] at hstep
        refine ⟨by simp only [visit, Dealing.visit, herrand, hcaps, if_pos htexts, hstep], ?_⟩
        obtain ⟨response, -, hanswer⟩ := Option.bind_eq_some_iff.mp hstep
        exact hsame (answer_clients hanswer)
      · rw [if_neg htexts] at hparse
        simp only [Desk.step, hcaps, hparse] at hstep
        refine ⟨by simp only [visit, Dealing.visit, herrand, hcaps, if_neg htexts, hstep], ?_⟩
        obtain ⟨-, hdesk⟩ := Option.ite_none_right_eq_some.mp hstep
        exact hsame (by rw [Option.some.inj hdesk])

end Desk

namespace Network

variable {codec : Codec} {s s' : Network} {ls : List Label} {ms : List Message}

theorem Heard.visits (hcodec : codec.Lawful) (h : Heard codec ls s ms) {errand : Message → Errand}
    (herrand : ∀ m ∈ ms, (errand m).OnRecord ls s m.client m.tag ∧
      (errand m).payload codec m.client = some m.payload) {dealings : List Dealing}
    {waiting : List Message} {desk : Desk} (hms : ms = dealings.map Dealing.message ++ waiting)
    (hrun : run (Desk.step codec) {} dealings = some desk) :
    run Desk.visit {} (dealings.map (Dealing.visit errand)) = some desk ∧
      ∀ client, desk.clients client ≠ none ↔ ∃ d ∈ dealings, d.message.client = client := by
  induction dealings using List.reverseRecOn generalizing waiting desk with
  | nil =>
      obtain rfl := Option.some.inj hrun
      simp
  | append_singleton dealings d ih =>
      obtain ⟨before, hbefore, hlast⟩ := run_append_eq_some.mp hrun
      rw [run_singleton] at hlast
      have hsplit : ms = dealings.map Dealing.message ++ d.message :: waiting := by simp [hms]
      obtain ⟨hvisits, hknown⟩ := ih hsplit hbefore
      obtain ⟨hrecord, hpayload⟩ := herrand d.message (by simp [hsplit])
      have hfirst : d.message.tag = 0 ↔ before.clients d.message.client = none := by
        rw [h.first _ _ _ hsplit, ← not_iff_not, ← ne_eq, hknown]
        simp
      obtain ⟨hvisit, hclients⟩ := Desk.visit_of_step hcodec hrecord hpayload hfirst hlast
      refine ⟨?_, fun client => ?_⟩
      · rw [List.map_append]
        exact run_append_eq_some.mpr ⟨before, hvisits, by rw [List.map_singleton, run_singleton, hvisit]⟩
      · rw [hclients, hknown]
        simp [or_and_right, exists_or]

/-- The state of a history: what the server has received, how it was dealt with at a desk, and
whose messages they are. -/
def Told (codec : Codec) (ls : List Label) (s : Network) (dealings : List Dealing) : Prop :=
  ∃ ms desk, Server.Dealt codec ms s.server dealings desk ∧ Heard codec ls s ms

theorem server_of_run {n : ℕ} (hrun : run (step codec) (start n) ls = some s) :
    ∃ ks, run (Server.step codec) (Server.start n) ks = some s.server := by
  have hserver : ∀ s l t, step codec s l = some t → t.server = s.server ∨
      ∃ m : Server.Label, True ∧ Server.step codec s.server m = some t.server := by
    intro s l t hstep
    rcases server_step (step_cases hstep) with hsame | ⟨m, hm⟩
    · exact Or.inl hsame
    · exact Or.inr ⟨m, trivial, hm⟩
  obtain ⟨ks, -, hks⟩ := exists_projected hserver hrun
  exact ⟨ks, hks⟩

theorem told_step (hcodec : codec.Lawful) {n : ℕ} {l : Label} {dealings : List Dealing}
    (hrun : run (step codec) (start n) ls = some s) (h : Told codec ls s dealings)
    (hids : s'.server.mAlgoRunner.ids.Nodup) (hstep : step codec s l = some s') :
    ∃ more, Told codec (ls ++ [l]) s' (dealings ++ more) := by
  obtain ⟨ms, desk, hdealt, hheard⟩ := h
  have htraffic : s.Traffic codec := run_invariant
    (fun _ _ _ htraffic hstep => traffic_step hcodec htraffic (step_cases hstep))
    (traffic_start codec n) hrun
  obtain ⟨new, hheard', hserver⟩ := heard_step hcodec hheard htraffic (step_cases hstep)
  rcases hserver with ⟨rfl, hsame⟩ | ⟨m, hm, rfl⟩
  · refine ⟨[], ms, desk, ?_, ?_⟩
    · rw [List.append_nil, hsame]
      exact hdealt
    · rwa [List.append_nil] at hheard'
  · obtain ⟨ks, hks⟩ := server_of_run hrun
    have hsound := Server.sound_of_run hks (hids.sublist (Server.ids_extends hm).sublist)
    obtain ⟨more, desk', hdealt'⟩ := Server.dealt_step hcodec hdealt hsound hids hm
    exact ⟨more, _, desk', hdealt', hheard'⟩

/-- Along a run under a steady clock the dealings only grow. -/
theorem told_of_run (hcodec : codec.Lawful) {n : ℕ} (hrun : run (step codec) (start n) ls = some s)
    (hclock : SteadyClock s.server.mAlgoRunner.readings) :
    ∃ dealings, Told codec ls s dealings ∧ ∀ before after s₁, ls = before ++ after →
      run (step codec) (start n) before = some s₁ → ∃ early, Told codec before s₁ early ∧
        early <+: dealings := by
  obtain ⟨ks, hks⟩ := server_of_run hrun
  obtain ⟨js, -, hjs⟩ := Server.pool_of_run hks
  have hids : s.server.mAlgoRunner.ids.Nodup := (Pool.clocked_of_run hjs).ids_nodup hclock
  have hback : ∀ s l t, step codec s l = some t → t.server.mAlgoRunner.ids.Nodup →
      s.server.mAlgoRunner.ids.Nodup := by
    intro s l t hstep hids
    rcases server_step (step_cases hstep) with hsame | ⟨m, hm⟩
    · exact hsame ▸ hids
    · exact hids.sublist (Server.ids_extends hm).sublist
  have hguard : Guarded (step codec)
      (fun s l => ∀ t, step codec s l = some t → t.server.mAlgoRunner.ids.Nodup) (start n) ls := by
    refine (guarded_of_run (P := fun _ => True) (Q := fun s => s.server.mAlgoRunner.ids.Nodup)
      (fun _ _ _ _ _ => trivial) (fun s l t _ => hback s l t) ?_ trivial hrun hids).1
    intro s l t _ hstep ht t' hstep'
    exact Option.some.inj (hstep.symm.trans hstep') ▸ ht
  have hstart : Told codec [] (start n) [] :=
    ⟨[], {}, Server.dealt_start codec n, heard_start codec n⟩
  refine exists_growing (P := Told codec) ?_ hstart hguard hrun
  intro ls s l t dealings hrun h hok hstep
  exact told_step hcodec hrun h (hok t hstep) hstep

theorem log_of_run {ls : List Label} (hrun : run (step codec) s ls = some s') (client : Bytes) :
    (s.link client).log <+: (s'.link client).log :=
  run_invariant (P := fun t => (s.link client).log <+: (t.link client).log)
    (fun _ _ _ h hstep => h.trans (log_step (step_cases hstep) client)) List.prefix_rfl hrun

/-- A call that took its own reply is among the messages dealt with. -/
theorem Told.explains (hcodec : codec.Lawful) {before : List Label} {s₁ : Network}
    {early : List Dealing} (h : Told codec before s₁ early) {errand : Message → Errand}
    (hlog : ∀ client, (s₁.link client).log <+: (s.link client).log)
    (herrand : ∀ d ∈ early, (errand d.message).OnRecord ls s d.message.client d.message.tag)
    {c : Completed} (hok : c.result.ok = true) (hpaired : c.Paired codec s₁) :
    ∃ v ∈ early.map (Dealing.visit errand), v.Explains c := by
  obtain ⟨ms, desk, hdealt, -⟩ := h
  obtain ⟨payload, hsent, hresult⟩ := hpaired.sent
  obtain ⟨d, hd, hclient, htag, response, hreply, hserialize⟩ := hdealt.reply_of_sent hsent
  refine ⟨_, List.mem_map_of_mem hd, hclient, htag, ?_, response, hreply, ?_⟩
  · have hmessage := getElem?_of_extends (hlog c.client) hpaired.message
    have hrecord := herrand d hd
    dsimp only at hclient htag
    rw [hclient, htag] at hrecord
    show errand d.message = _
    generalize errand d.message = e at hrecord
    cases hrecord with
    | greet execFunFlags _ _ _ hgreet => simp [hmessage] at hgreet
    | call call hcall =>
        obtain rfl := Option.some.inj (Option.some.inj (hmessage.symm.trans hcall))
        rfl
  · rw [hresult] at hok ⊢
    exact Call.finish_eq_outcome hcodec hserialize hok

/-- An order of the messages of all clients in which they are right as visits to one desk, one
after another, up to the end of a run and up to any point of it. -/
structure Ordered (codec : Codec) (n : ℕ) (ls : List Label) (s : Network) (visits : List Visit)
    (desk : Desk) : Prop where
  run : Transition.run Desk.visit {} visits = some desk
  clients : desk.clients = s.server.mClientExecCaps
  tickets : desk.tickets = s.server.mAlgoRunner.store
  onRecord : ∀ v ∈ visits, v.errand.OnRecord ls s v.client v.number
  sorted : ∀ client,
    ((visits.filter fun v => v.client = client).map Visit.number).Pairwise (· < ·)
  early : ∀ before after s₁, ls = before ++ after →
    Transition.run (step codec) (start n) before = some s₁ → ∃ early, early <+: visits ∧
      (∀ c ∈ s₁.completed, c.result.ok = true → c.ongoing.clean = true →
        ∃ v ∈ early, v.Explains c) ∧
      ∀ v ∈ early, v.number < (s₁.link v.client).log.length

theorem ordered_of_run (hcodec : codec.Lawful) {n : ℕ} (hrun : run (step codec) (start n) ls = some s)
    (hclock : SteadyClock s.server.mAlgoRunner.readings) :
    ∃ visits desk, Ordered codec n ls s visits desk := by
  obtain ⟨dealings, ⟨ms, desk, hdealt, hheard⟩, hall⟩ := told_of_run hcodec hrun hclock
  obtain ⟨waiting, hms⟩ := hdealt.messages
  obtain ⟨errand, herrand⟩ : ∃ errand : Message → Errand, ∀ m ∈ ms,
      (errand m).OnRecord ls s m.client m.tag ∧
        (errand m).payload codec m.client = some m.payload := by
    have : Nonempty Errand := ⟨.greet 0⟩
    choose! errand herrand using hheard.origin
    exact ⟨errand, herrand⟩
  have hrecord : ∀ d ∈ dealings, (errand d.message).OnRecord ls s d.message.client d.message.tag :=
    fun d hd => (herrand d.message
      (hms ▸ List.mem_append_left waiting (List.mem_map_of_mem hd))).1
  refine ⟨dealings.map (Dealing.visit errand), desk,
    ⟨(hheard.visits hcodec herrand hms hdealt.run).1, hdealt.clients, hdealt.tickets, ?_, ?_, ?_⟩⟩
  · intro v hv
    obtain ⟨d, hd, rfl⟩ := List.mem_map.mp hv
    exact hrecord d hd
  · intro client
    have hsorted := (List.pairwise_append.mp (hheard.sorted client)).1
    rw [hms, List.filter_append, List.map_append, List.pairwise_append, List.filter_map,
      List.map_map] at hsorted
    rw [List.filter_map, List.map_map]
    exact hsorted.1
  · intro before after s₁ hsplit hbefore
    obtain ⟨early, htold, hinit⟩ := hall before after s₁ hsplit hbefore
    have hafter : run (step codec) s₁ after = some s := by
      rw [hsplit] at hrun
      obtain ⟨s₁', hs₁', hrest⟩ := run_append_eq_some.mp hrun
      obtain rfl := Option.some.inj (hbefore.symm.trans hs₁')
      exact hrest
    refine ⟨early.map (Dealing.visit errand), hinit.map _, fun c hc hok hclean => ?_, fun v hv => ?_⟩
    · have horderly := run_invariant orderly_step (orderly_start codec n) hbefore
      exact htold.explains hcodec (log_of_run hafter) (fun d hd => hrecord d (hinit.subset hd)) hok
        (horderly.own c hc hok hclean)
    · obtain ⟨d, hd, rfl⟩ := List.mem_map.mp hv
      obtain ⟨ms₁, desk₁, hdealt₁, hheard₁⟩ := htold
      obtain ⟨waiting₁, hms₁⟩ := hdealt₁.messages
      refine hheard₁.below d.message.client d.message.tag ?_
      refine List.mem_append_left _ (List.mem_map.mpr ⟨d.message, List.mem_filter.mpr ⟨?_, by simp⟩, rfl⟩)
      rw [hms₁]
      exact List.mem_append_left _ (List.mem_map_of_mem hd)

/-- Under a steady clock there is one order of the messages of all clients in which they are
right as visits to one desk after another. In it the messages of a client are in the order of
their numbers. At every point of the run the visits so far are the first ones; among them
is every call that has returned with its own reply, and it returned the answer of its
visit, and no call that has not begun. -/
theorem linearizable (codec : Codec) (hcodec : codec.Lawful) (n : ℕ) (ls : List Label)
    (s : Network) (hrun : run (step codec) (start n) ls = some s)
    (hclock : SteadyClock s.server.mAlgoRunner.readings) :
    ∃ visits desk, run Desk.visit {} visits = some desk ∧
      desk.clients = s.server.mClientExecCaps ∧ desk.tickets = s.server.mAlgoRunner.store ∧
      (∀ v ∈ visits, v.errand.OnRecord ls s v.client v.number) ∧
      (∀ client, ((visits.filter fun v => v.client = client).map Visit.number).Pairwise (· < ·)) ∧
      ∀ before after s₁, ls = before ++ after → run (step codec) (start n) before = some s₁ →
        ∃ early, early <+: visits ∧
          (∀ c ∈ s₁.completed, c.result.ok = true → c.ongoing.clean = true →
            ∃ v ∈ early, v.Explains c) ∧
          ∀ v ∈ early, v.number < (s₁.link v.client).log.length := by
  obtain ⟨visits, desk, hordered⟩ := ordered_of_run hcodec hrun hclock
  exact ⟨visits, desk, hordered.run, hordered.clients, hordered.tickets, hordered.onRecord,
    hordered.sorted, hordered.early⟩

/-- A client submits an addition, the worker executes it, and the client asks for the result. -/
def redeemed : List Label :=
  joined ++ [.call (List.replicate 8 65) (.submitNonBlocking (Server.addBlocking 2 3)) true,
      .serve (List.replicate 8 65)] ++
    List.replicate 6 (.thread { reading := 5 }) ++ .deliver (List.replicate 8 65) ::
    List.replicate 6 (.worker 0) ++
    [.call (List.replicate 8 65) (.getResult { reqId := ticketId 5 0 } .noWait 0) true,
      .serve (List.replicate 8 65)] ++
    List.replicate 4 (.thread {}) ++ [.deliver (List.replicate 8 65)]

/-- The call for the result is a visit that is answered with it. -/
theorem linearizable_redeemed :
    ∃ s visits desk, run (step wireCodec) (start 1) redeemed = some s ∧
      run Desk.visit {} visits = some desk ∧ ∃ v ∈ visits, v.number = 2 ∧
        ∃ response, v.reply = some response ∧
          Call.outcome (.getResult { reqId := ticketId 5 0 } .noWait 0) response = .get true
            { status := .stSuccess, result := some { value := some (.intResult 5) } } := by
  obtain ⟨s, hs, htest⟩ := exists_of_run_any (step wireCodec) (start 1) redeemed
    (fun s => s.server.mAlgoRunner.readings = [5] ∧ s.completed.any fun c =>
      c.ongoing = ⟨.getResult { reqId := ticketId 5 0 } .noWait 0, 2, true⟩ ∧
        c.result = .get true
          { status := .stSuccess, result := some { value := some (.intResult 5) } })
    (by decide +kernel)
  simp only [decide_eq_true_eq, List.any_eq_true] at htest
  obtain ⟨hreadings, c, hc, hongoing, hresult⟩ := htest
  have hclock : SteadyClock s.server.mAlgoRunner.readings := by
    rw [hreadings]
    exact ⟨List.pairwise_singleton _ _, by simp, fun a => List.count_le_length.trans (by simp)⟩
  obtain ⟨visits, desk, hrun, -, -, -, -, hall⟩ :=
    linearizable wireCodec wireCodec_lawful 1 redeemed s hs hclock
  obtain ⟨early, hinit, hexplained, -⟩ := hall redeemed [] s (List.append_nil _).symm hs
  obtain ⟨v, hv, hexplains⟩ := hexplained c hc (by rw [hresult]; rfl) (by rw [hongoing])
  obtain ⟨response, hreply, hreturned⟩ := hexplains.returned
  refine ⟨s, visits, desk, hs, hrun, v, hinit.subset hv, ?_, response, hreply, ?_⟩
  · rw [hexplains.number, hongoing]
  · rw [hongoing] at hreturned
    rw [← hreturned, hresult]

end Network

end InterProcess
