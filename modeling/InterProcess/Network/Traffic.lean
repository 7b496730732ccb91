import InterProcess.Network.Pairing

/-!
# What is under way

Between the clients of this repository and the server only certain messages are under
way: what a client sent is its handshake or the envelope of one of its calls, the server
handles such a message, and what it answers can be read by the client. `Traffic` is the
invariant; it needs a codec whose messages survive the way.
-/

namespace InterProcess

open Transition Wire

/-- What a job can finish with: not with `ST_NOT_FINISHED`, and with a string that can be
sent. -/
structure Genuine (status : Status) (result : Result) : Prop where
  status : status ≠ .stNotFinished
  brief : result.Brief
  text : ∀ s ∈ result.texts, IsText s

theorem Genuine.swap {status : Status} {result : Result} (h : Genuine status result) :
    Genuine status {} where
  status := h.status
  brief := by simp [Result.Brief, Result.texts]
  text := by simp [Result.texts]

theorem runStr_text {args : StrArgs} (h₁ : IsText args.s1) (h₂ : IsText args.s2) :
    ∀ s ∈ (runStr args {}).2.texts, IsText s := by
  unfold runStr
  cases args.op with
  | strConcat =>
      dsimp only
      split
      · simp [Result.texts]
      · simpa [Result.texts] using h₁.append h₂
  | strFindStart =>
      dsimp only
      split <;> simp [Result.texts]
  | unrecognized => simp [Result.texts]

theorem yields_genuine {request : SubmitRequest} (h : ∀ s ∈ request.texts, IsText s) :
    request.Yields Genuine := by
  intro status result heval
  refine ⟨evaluate_status_ne_notFinished heval, yields_brief request status result heval, ?_⟩
  unfold evaluate at heval
  rcases hpayload : request.payload with _ | (args | args)
  · simp only [hpayload, Option.some.injEq, Prod.mk.injEq] at heval
    simp [← heval.2, Result.texts]
  · simp only [hpayload] at heval
    simp [runMath_texts heval]
  · simp only [hpayload, Option.some.injEq] at heval
    have htexts : request.texts = [args.s1, args.s2] := by
      simp [SubmitRequest.texts, hpayload]
    rw [htexts] at h
    have htext := runStr_text (h args.s1 (by simp)) (h args.s2 (by simp))
    rwa [heval] at htext

theorem isText_of_identity {bs : Bytes} (h : bs.all identityChar = true) : IsText bs := by
  induction bs with
  | nil => rfl
  | cons b bs ih =>
      simp only [List.all_cons, Bool.and_eq_true] at h
      have hb : utf8Step [] b = some [] := by
        have hlt : b < 0x80 := by
          have := h.1
          simp only [identityChar, Bool.or_eq_true, Bool.and_eq_true, decide_eq_true_eq,
            UInt8.le_iff_toNat_le, UInt8.reduceToNat] at this
          simp only [UInt8.lt_iff_toNat_lt, UInt8.reduceToNat]
          omega
        simp [utf8Step, hlt]
      unfold IsText
      rw [List.foldlM_cons, hb]
      exact ih h.2

/-- The packet is the message of a call of the client. -/
def Link.Requested (codec : Codec) (link : Link) (p : Packet) : Prop :=
  ∃ call, link.log[p.tag]? = some (some call) ∧ codec.serializeReq call.envelope = some p.payload

/-- What a client has on the way to the server, before the server knows it and after. -/
inductive Link.Upcoming (codec : Codec) (client : Bytes) (link : Link) : Bool → Prop
  | new (hlog : link.log = []) (hup : link.up = []) : Upcoming codec client link false
  | greeting (hlog : link.log[0]? = some none) (execFunFlags : UInt8) (payload : Bytes) (rest : List Packet)
      (hid : IsIdentity client) (hverify : verifyExecCaps execFunFlags = true)
      (hserialize : codec.serializeHandshake (firstHandshake client execFunFlags) = some payload)
      (hup : link.up = ⟨0, payload⟩ :: rest) (hrest : ∀ p ∈ rest, link.Requested codec p) :
      Upcoming codec client link false
  | known (hlog : link.log ≠ []) (hup : ∀ p ∈ link.up, link.Requested codec p) :
      Upcoming codec client link true

namespace Link

variable {codec : Codec} {link link' : Link}

theorem Requested.mono (hlog : link.log <+: link'.log) {p : Packet}
    (h : link.Requested codec p) : link'.Requested codec p := by
  obtain ⟨call, hcall, hserialize⟩ := h
  exact ⟨call, Network.getElem?_of_extends hlog hcall, hserialize⟩

theorem Upcoming.same {client : Bytes} {registered : Bool}
    (h : link.Upcoming codec client registered) (hne : link.log ≠ [])
    (hlog : link.log <+: link'.log) (hup : link'.up = link.up) :
    link'.Upcoming codec client registered := by
  cases h with
  | new hnew => exact absurd hnew hne
  | greeting hne' execFunFlags payload rest hid hverify hserialize hrest hall =>
      exact .greeting (Network.getElem?_of_extends hlog hne') execFunFlags payload rest hid hverify hserialize (hup.trans hrest)
        fun p hp => (hall p hp).mono hlog
  | known hne' hall => exact .known (fun hnil => hne (List.prefix_nil.mp (hnil ▸ hlog))) fun p hp => (hall p (hup ▸ hp)).mono hlog

theorem Upcoming.send {client : Bytes} {registered : Bool}
    (h : link.Upcoming codec client registered) (hne : link.log ≠ [])
    (hlog : link.log <+: link'.log) {p : Packet} (hup : link'.up = link.up ++ [p])
    (hp : link'.Requested codec p) : link'.Upcoming codec client registered := by
  cases h with
  | new hnew => exact absurd hnew hne
  | greeting hne' execFunFlags payload rest hid hverify hserialize hrest hall =>
      refine .greeting (Network.getElem?_of_extends hlog hne') execFunFlags payload (rest ++ [p]) hid hverify hserialize
        (by rw [hup, hrest]; rfl) fun q hq => ?_
      rcases List.mem_append.mp hq with hq | hq
      · exact (hall q hq).mono hlog
      · exact List.mem_singleton.mp hq ▸ hp
  | known hne' hall =>
      refine .known (fun hnil => hne (List.prefix_nil.mp (hnil ▸ hlog))) fun q hq => ?_
      rcases List.mem_append.mp (hup ▸ hq) with hq | hq
      · exact (hall q hq).mono hlog
      · exact List.mem_singleton.mp hq ▸ hp

theorem Upcoming.congr {client : Bytes} {registered : Bool}
    (h : link.Upcoming codec client registered) (hlog : link'.log = link.log)
    (hup : link'.up = link.up) : link'.Upcoming codec client registered := by
  have hextends : link.log <+: link'.log := by rw [hlog]
  cases h with
  | new hnew hnone => exact .new (hlog.trans hnew) (hup.trans hnone)
  | greeting hne' execFunFlags payload rest hid hverify hserialize hrest hall =>
      exact .greeting (hlog ▸ hne') execFunFlags payload rest hid hverify hserialize (hup.trans hrest)
        fun p hp => (hall p hp).mono hextends
  | known hne' hall => exact .known (hlog ▸ hne') fun p hp => (hall p (hup ▸ hp)).mono hextends

theorem Upcoming.greet {client : Bytes} {p : Packet} (h : link.Upcoming codec client false)
    (hlog : link'.log = link.log) (hup : link.up = p :: link'.up) :
    link'.Upcoming codec client true ∧ ∃ execFunFlags, IsIdentity client ∧
      verifyExecCaps execFunFlags = true ∧
        codec.serializeHandshake (firstHandshake client execFunFlags) = some p.payload := by
  have hextends : link.log <+: link'.log := by rw [hlog]
  cases h with
  | new hnew hnone => simp [hnone] at hup
  | greeting hne' execFunFlags payload rest hid hverify hserialize hrest hall =>
      obtain ⟨rfl, rfl⟩ := List.cons.inj (hrest.symm.trans hup)
      refine ⟨.known ?_ fun q hq => (hall q hq).mono hextends, execFunFlags, hid, hverify, hserialize⟩
      intro hnil
      simp [← hlog, hnil] at hne'

theorem Upcoming.requested {client : Bytes} {p : Packet} {rest : List Packet}
    (h : link.Upcoming codec client true) (hup : link.up = p :: rest) : link.Requested codec p := by
  cases h with
  | known hne' hall => exact hall p (hup ▸ List.mem_cons_self)

theorem Upcoming.tail {client : Bytes} {p : Packet} (h : link.Upcoming codec client true)
    (hlog : link'.log = link.log) (hup : link.up = p :: link'.up) :
    link'.Upcoming codec client true := by
  have hextends : link.log <+: link'.log := by rw [hlog]
  cases h with
  | known hne' hall =>
      refine .known (hlog ▸ hne') fun q hq => (hall q ?_).mono hextends
      exact hup ▸ List.mem_cons_of_mem p hq

end Link

theorem greeting_accepted {codec : Codec} (hcodec : codec.Lawful) {client payload : Bytes}
    {execFunFlags : UInt8} (hid : IsIdentity client) (hverify : verifyExecCaps execFunFlags = true)
    (hserialize : codec.serializeHandshake (firstHandshake client execFunFlags) = some payload)
    {handshake : Option FirstHandshake} (hparse : codec.parseHandshake payload = handshake) :
    ∃ h, handshake = some h ∧ verifyExecCaps h.execFunctions.toUInt8 = true := by
  have htext : IsText (firstHandshake client execFunFlags).clientName := isText_of_identity hid.2
  rw [hcodec.handshake _ _ hserialize, if_pos htext] at hparse
  exact ⟨_, hparse.symm, by simpa [firstHandshake] using hverify⟩

theorem Link.Requested.parse {codec : Codec} (hcodec : codec.Lawful) {link : Link} {p : Packet}
    (h : link.Requested codec p) {request : EnvelopeReq}
    (hparse : codec.parseReq p.payload = some request) :
    ∃ call, link.log[p.tag]? = some (some call) ∧ call.envelope = request ∧
      ∀ s ∈ request.texts, IsText s := by
  obtain ⟨call, hcall, hserialize⟩ := h
  rw [hcodec.req _ _ hserialize] at hparse
  split at hparse
  · next htexts =>
      obtain rfl := Option.some.inj hparse
      exact ⟨call, hcall, rfl, htexts⟩
  · cases hparse

namespace Network

/-- The invariant. -/
structure Traffic (codec : Codec) (s : Network) : Prop where
  up : ∀ client, (s.link client).Upcoming codec client (s.server.mClientExecCaps client).isSome
  down : ∀ client, ∀ p ∈ (s.link client).down, ∃ call, (s.link client).log[p.tag]? = some (some call)
  idle : s.server.thread = .receive → s.server.mAlgoRunner.callers 0 = .idle
  busy : ∀ client tag, s.server.thread = .handle client tag →
    ∃ call, (s.link client).log[tag]? = some (some call) ∧
      (s.server.mAlgoRunner.callers 0).req = call.envelope.req
  yielding : s.server.mAlgoRunner.Yielding Genuine

variable {codec : Codec} {s s' : Network}

theorem traffic_start (codec : Codec) (n : ℕ) : (start n).Traffic codec where
  up _ := .new rfl rfl
  down _ _ h := (List.not_mem_nil h).elim
  idle _ := rfl
  busy _ _ h := by cases h
  yielding := Pool.yielding_start _ n

theorem Traffic.client (h : s.Traffic codec) {client : Bytes} {link : Link}
    (hserver : s'.server = s.server) (hlink : s'.link = Function.update s.link client link)
    (hlog : (s.link client).log <+: link.log)
    (hup : link.Upcoming codec client (s.server.mClientExecCaps client).isSome)
    (hdown : ∀ p ∈ link.down, p ∈ (s.link client).down) : s'.Traffic codec := by
  have hlogs : ∀ c, (s.link c).log <+: (s'.link c).log := by
    intro c
    by_cases hc : c = client
    · subst hc
      simpa [hlink] using hlog
    · simp [hlink, hc]
  refine ⟨fun c => ?_, fun c p hp => ?_, hserver ▸ h.idle, fun c tag hbusy => ?_,
    hserver ▸ h.yielding⟩
  · rw [hserver]
    by_cases hc : c = client
    · subst hc
      simpa [hlink] using hup
    · simpa [hlink, hc] using h.up c
  · have hold : p ∈ (s.link c).down := by
      by_cases hc : c = client
      · subst hc
        exact hdown p (by simpa [hlink] using hp)
      · simpa [hlink, hc] using hp
    obtain ⟨call, hcall⟩ := h.down c p hold
    exact ⟨call, getElem?_of_extends (hlogs c) hcall⟩
  · rw [hserver] at hbusy ⊢
    obtain ⟨call, hcall, hreq⟩ := h.busy c tag hbusy
    exact ⟨call, getElem?_of_extends (hlogs c) hcall, hreq⟩

theorem traffic_startCall (h : s.Traffic codec) {client : Bytes} (call : Call) (taken : Bool)
    (hready : (s.link client).log ≠ []) : (s.startCall codec client call taken).Traffic codec := by
  have hextends : (s.link client).log <+: (s.link client).log ++ [some call] :=
    List.prefix_append _ _
  unfold startCall
  split
  · next payload hsend =>
      refine h.client rfl rfl hextends ?_ fun p hp => hp
      refine (h.up client).send hready hextends rfl ⟨call, by simp, ?_⟩
      unfold sendEnvelope at hsend
      split at hsend
      · exact hsend
      · cases hsend
  · split
    · exact h.client rfl rfl hextends ((h.up client).same hready hextends rfl) fun p hp => hp
    · exact h.client rfl rfl hextends ((h.up client).same hready hextends rfl) fun p hp => hp

/-- The network without the message that the server receives in the step, if it receives
one. -/
structure Taken (s s₁ : Network) (m : Server.Label) : Prop where
  server : s₁.server = s.server
  completed : s₁.completed = s.completed
  up : ∀ c, (s.link c).up = m.packets c ++ (s₁.link c).up
  log : ∀ c, (s₁.link c).log = (s.link c).log
  down : ∀ c, (s₁.link c).down = (s.link c).down
  ongoing : ∀ c, (s₁.link c).ongoing = (s.link c).ongoing

theorem taken_self {m : Server.Label} (hm : ∀ client payload tag, m ≠ .recv client payload tag) :
    s.Taken s m := by
  refine ⟨rfl, rfl, fun c => ?_, fun _ => rfl, fun _ => rfl, fun _ => rfl⟩
  cases m with
  | recv client payload tag => exact absurd rfl (hm client payload tag)
  | thread | worker => rfl

theorem taken_serve {client : Bytes} {frame : Packet} {rest : List Packet}
    (hup : (s.link client).up = frame :: rest) :
    s.Taken (s.setLink client { s.link client with up := rest })
      (.recv client frame.payload frame.tag) := by
  set s₁ := s.setLink client { s.link client with up := rest } with hs₁
  have hlink : ∀ c, s₁.link c = { s.link c with up := (s₁.link c).up } := fun c => by
    by_cases hc : c = client
    · subst hc
      simp [hs₁]
    · simp [hs₁, hc]
  refine ⟨rfl, rfl, fun c => ?_, fun c => by rw [hlink], fun c => by rw [hlink],
    fun c => by rw [hlink]⟩
  by_cases hc : c = client
  · subst hc
    simp [hs₁, hup, Server.Label.packets]
  · simp [hs₁, hc, Ne.symm hc, Server.Label.packets]

theorem Taken.head {s₁ : Network} {client payload : Bytes} {tag : ℕ}
    (ht : s.Taken s₁ (.recv client payload tag)) :
    (s.link client).up = ⟨tag, payload⟩ :: (s₁.link client).up := by
  rw [ht.up, Server.Label.packets, if_pos rfl]
  rfl

theorem Taken.other {s₁ : Network} {client payload : Bytes} {tag : ℕ}
    (ht : s.Taken s₁ (.recv client payload tag)) {c : Bytes} (hc : c ≠ client) :
    (s₁.link c).up = (s.link c).up := by
  rw [ht.up, Server.Label.packets, if_neg (Ne.symm hc)]
  rfl

section Route

variable {s₁ : Network} {server : Server} {m : Server.Label}

theorem Traffic.route (h : s.Traffic codec) (ht : s.Taken s₁ m) (more : List Sent)
    (hsent : server.sent = s.server.sent ++ more)
    (hup : ∀ c, (s₁.link c).Upcoming codec c (server.mClientExecCaps c).isSome)
    (hmore : ∀ r ∈ more, ∃ call, (s.link r.client).log[r.tag]? = some (some call))
    (hidle : server.thread = .receive → server.mAlgoRunner.callers 0 = .idle)
    (hbusy : ∀ client tag, server.thread = .handle client tag →
      ∃ call, (s.link client).log[tag]? = some (some call) ∧
        (server.mAlgoRunner.callers 0).req = call.envelope.req)
    (hyielding : server.mAlgoRunner.Yielding Genuine) : (s₁.route server).Traffic codec := by
  have hlink : ∀ c, (s₁.route server).link c =
      { s₁.link c with down := (s₁.link c).down ++ packetsFor c more } :=
    route_link (by rw [ht.server, hsent])
  refine ⟨fun c => ?_, fun c p hp => ?_, hidle, fun c tag hthread => ?_, hyielding⟩
  · rw [hlink]
    exact (hup c).congr rfl rfl
  · rw [hlink] at hp ⊢
    rw [ht.log]
    rcases List.mem_append.mp hp with hold | hnew
    · exact h.down c p (ht.down c ▸ hold)
    · exact hmore _ (mem_packetsFor hnew)
  · rw [hlink, ht.log]
    exact hbusy c tag hthread

theorem Traffic.up_of_known (h : s.Traffic codec) (ht : s.Taken s₁ m)
    (hknown : ∀ client payload tag, m = .recv client payload tag →
      (s.server.mClientExecCaps client).isSome = true)
    (hcaps : server.mClientExecCaps = s.server.mClientExecCaps) (c : Bytes) :
    (s₁.link c).Upcoming codec c (server.mClientExecCaps c).isSome := by
  rw [hcaps]
  have hc := h.up c
  cases m with
  | recv client payload tag =>
      by_cases heq : c = client
      · subst heq
        rw [hknown c payload tag rfl] at hc ⊢
        exact hc.tail (ht.log c) ht.head
      · exact hc.congr (ht.log c) (ht.other heq)
  | thread choice | worker i => exact hc.congr (ht.log c) (ht.up c).symm

theorem Traffic.requested (h : s.Traffic codec) {client payload : Bytes} {tag : ℕ}
    (ht : s.Taken s₁ (.recv client payload tag)) {caps : UInt8}
    (hcaps : s.server.mClientExecCaps client = some caps) :
    (s.link client).Requested codec ⟨tag, payload⟩ := by
  have hknown := h.up client
  rw [hcaps] at hknown
  exact hknown.requested ht.head

theorem Traffic.greeted (h : s.Traffic codec) {client payload : Bytes} {tag : ℕ}
    (ht : s.Taken s₁ (.recv client payload tag))
    (hcaps : s.server.mClientExecCaps client = none) :
    (s₁.link client).Upcoming codec client true ∧ ∃ execFunFlags, IsIdentity client ∧
      verifyExecCaps execFunFlags = true ∧
        codec.serializeHandshake (firstHandshake client execFunFlags) = some payload := by
  have hnew := h.up client
  rw [hcaps] at hnew
  exact hnew.greet (ht.log client) ht.head

theorem Traffic.yielding_step (hcodec : codec.Lawful) (h : s.Traffic codec) (ht : s.Taken s₁ m)
    (hstep : Server.step codec s.server m = some server) : server.mAlgoRunner.Yielding Genuine := by
  refine Server.yielding_of_step (fun _ _ hgenuine => hgenuine.swap) h.yielding ?_ hstep
  rintro client payload tag caps request sreq rfl hcaps hparse hhandle
  obtain ⟨call, -, -, htexts⟩ := (h.requested ht hcaps).parse hcodec hparse
  obtain ⟨hreq, -⟩ := handleEnvelope_eq_run.mp hhandle
  refine yields_genuine ?_
  simpa [EnvelopeReq.texts, hreq] using htexts

theorem Traffic.reply (h : s.Traffic codec) {client payload : Bytes} {tag : ℕ}
    (ht : s.Taken s₁ (.recv client payload tag)) (hfree : s.server.thread = .receive)
    {caps : UInt8} (hcaps : s.server.mClientExecCaps client = some caps) {more : List Sent}
    (hsent : server.sent = s.server.sent ++ more)
    (hmore : ∀ r ∈ more, r.client = client ∧ r.tag = tag)
    (hknown : server.mClientExecCaps = s.server.mClientExecCaps)
    (hrunner : server.mAlgoRunner = s.server.mAlgoRunner)
    (hthread : server.thread = s.server.thread) : (s₁.route server).Traffic codec := by
  obtain ⟨call, hcall, -⟩ := h.requested ht hcaps
  refine h.route ht more hsent (h.up_of_known ht ?_ hknown) ?_ ?_ ?_
    (hrunner ▸ h.yielding)
  · rintro c _ _ ⟨⟩
    rw [hcaps]
    rfl
  · intro r hr
    obtain ⟨rfl, rfl⟩ := hmore r hr
    exact ⟨call, hcall⟩
  · rw [hthread, hrunner]
    exact h.idle
  · rw [hthread, hfree]
    exact nofun

theorem Traffic.enter (h : s.Traffic codec) (hcodec : codec.Lawful) {client payload : Bytes}
    {tag : ℕ} (ht : s.Taken s₁ (.recv client payload tag)) {caps : UInt8} (hcaps : s.server.mClientExecCaps client = some caps) {request : EnvelopeReq}
    (hparse : codec.parseReq payload = some request) {pool : Pool}
    (hreq : (pool.callers 0).req = request.req) (hyielding : pool.Yielding Genuine) :
    (s₁.route (s.server.withRunner pool (.handle client tag))).Traffic codec := by
  obtain ⟨call, hcall, henvelope, -⟩ := (h.requested ht hcaps).parse hcodec hparse
  refine h.route ht [] (by simp) (h.up_of_known ht ?_ rfl) ?_ ?_ ?_
    hyielding
  · rintro c _ _ ⟨⟩
    rw [hcaps]
    rfl
  · exact fun r hr => (List.not_mem_nil hr).elim
  · exact nofun
  · rintro c t ⟨⟩
    exact ⟨call, hcall, by rw [henvelope]; exact hreq⟩

theorem Traffic.think (h : s.Traffic codec)
    (hm : ∀ client payload tag, m ≠ .recv client payload tag) (ht : s.Taken s₁ m) {pool : Pool}
    (hidle : s.server.mAlgoRunner.callers 0 = .idle → pool.callers 0 = .idle)
    (hreq : (pool.callers 0).req = (s.server.mAlgoRunner.callers 0).req)
    (hyielding : pool.Yielding Genuine) :
    (s₁.route (s.server.withRunner pool s.server.thread)).Traffic codec := by
  refine h.route ht [] (by simp) (h.up_of_known ht ?_ rfl) ?_ ?_ ?_
    hyielding
  · exact fun c payload tag heq => absurd heq (hm c payload tag)
  · exact fun r hr => (List.not_mem_nil hr).elim
  · exact fun hfree => hidle (h.idle hfree)
  · intro c tag hbusy
    obtain ⟨call, hcall, heq⟩ := h.busy c tag hbusy
    exact ⟨call, hcall, hreq.trans heq⟩

theorem Traffic.return (h : s.Traffic codec)
    (hm : ∀ client payload tag, m ≠ .recv client payload tag) (ht : s.Taken s₁ m)
    {client : Bytes} {tag : ℕ}
    (hbusy : s.server.thread = .handle client tag) {pool : Pool} (hidle : pool.callers 0 = .idle)
    (hyielding : pool.Yielding Genuine) (response : EnvelopeResp) :
    (s₁.route ((s.server.withRunner pool .receive).reply codec client tag response)).Traffic
      codec := by
  obtain ⟨call, hcall, -⟩ := h.busy client tag hbusy
  refine h.route ht _ (Server.reply_sent _ _ _ _ _)
    (h.up_of_known ht ?_ (Server.reply_mClientExecCaps _ _ _ _ _)) ?_ ?_ ?_
    (by simpa using hyielding)
  · exact fun c payload tag heq => absurd heq (hm c payload tag)
  · intro r hr
    obtain ⟨payload, -, rfl⟩ := Option.map_eq_some_iff.mp (Option.mem_toList.mp hr)
    exact ⟨call, hcall⟩
  · exact fun _ => by simpa using hidle
  · rw [Server.reply_thread]
    exact nofun

theorem traffic_server (hcodec : codec.Lawful) (h : s.Traffic codec)
    (ht : s.Taken s₁ m) (hstep : Server.step codec s.server m = some server) : (s₁.route server).Traffic codec := by
  have hyielding := h.yielding_step hcodec ht hstep
  have hs := (Server.step_cases hstep).2
  cases hs with
  | badHandshake client payload tag hfree hnew hparse =>
      obtain ⟨-, execFunFlags, hid, hverify, hserialize⟩ := h.greeted ht hnew
      obtain ⟨_, hsome, -⟩ := greeting_accepted hcodec hid hverify hserialize hparse
      cases hsome
  | accept client payload tag hfree hnew handshake hparse hverify =>
      refine h.route ht [] (by simp) (fun c => ?_) ?_ ?_ ?_ hyielding
      · by_cases hc : c = client
        · subst hc
          simpa using (h.greeted ht hnew).1
        · rw [Server.register_mClientExecCaps, Table.insert_of_ne _ hc]
          exact (h.up c).congr (ht.log c) (ht.other hc)
      · exact fun r hr => (List.not_mem_nil hr).elim
      · exact h.idle
      · exact h.busy
  | refuse client payload tag hfree hnew handshake hparse hrefuse =>
      obtain ⟨-, execFunFlags, hid, hverify, hserialize⟩ := h.greeted ht hnew
      obtain ⟨_, hsome, hok⟩ := greeting_accepted hcodec hid hverify hserialize hparse
      obtain rfl := Option.some.inj hsome
      simp [hrefuse] at hok
  | badRequest client payload tag hfree caps hcaps hparse =>
      exact h.reply ht hfree hcaps rfl
        (fun r hr => by simp [List.mem_singleton.mp hr]) rfl rfl rfl
  | answer client payload tag hfree caps hcaps request hparse response hhandle =>
      refine h.reply ht hfree hcaps (Server.reply_sent _ _ _ _ _) ?_
        (by simp) (by simp) (by simp)
      intro r hr
      obtain ⟨_, -, rfl⟩ := Option.map_eq_some_iff.mp (Option.mem_toList.mp hr)
      exact ⟨rfl, rfl⟩
  | run client payload tag hfree caps hcaps request hparse sreq hhandle pool hpool =>
      refine h.enter hcodec ht hcaps hparse ?_ hyielding
      obtain ⟨-, hp⟩ := Pool.step_cases hpool
      cases hp with
      | run => simp [CallerPc.req, (handleEnvelope_eq_run.mp hhandle).1]
  | get client payload tag hfree caps hcaps request hparse greq hhandle pool hpool =>
      refine h.enter hcodec ht hcaps hparse ?_ hyielding
      obtain ⟨-, hp⟩ := Pool.step_cases hpool
      cases hp with
      | get => simp [CallerPc.req, handleEnvelope_eq_get.mp hhandle]
  | think client tag choice hbusy pool hpool hran hgot =>
      rw [← hbusy]
      exact h.think (by simp) ht
        (fun hidle => absurd hidle (Pool.not_idle_of_caller_step hpool))
        (Pool.req_of_caller_step hpool hran hgot) hyielding
  | ran client tag choice hbusy pool hpool sreq response hran =>
      exact h.return (by simp) ht hbusy
        (Pool.idle_of_return (Or.inl ⟨sreq, response, hran⟩) hpool) (by simpa using hyielding) _
  | got client tag choice hbusy pool hpool greq response hgot =>
      exact h.return (by simp) ht hbusy
        (Pool.idle_of_return (Or.inr ⟨greq, response, hgot⟩) hpool) (by simpa using hyielding) _
  | worker i pool hpool =>
      refine h.think (by simp) ht (fun hidle => ?_)
        (Pool.req_of_worker_step hpool 0) hyielding
      obtain ⟨-, hp⟩ := Pool.step_cases hpool
      cases hp with
      | worker _ hw => cases hw <;> simp_all [CallerPc.notified]

end Route

theorem traffic_step (hcodec : codec.Lawful) (h : s.Traffic codec) {l : Label}
    (hs : Step codec s l s') : s'.Traffic codec := by
  cases hs with
  | init client execFunFlags hnew hid hverify payload hserialize =>
      refine h.client rfl rfl (by simp [hnew]) ?_ (by simp)
      have hup := h.up client
      rw [hnew] at hup
      -- the server cannot know a client that has sent nothing
      cases hknown : (s.server.mClientExecCaps client).isSome with
      | true =>
          rw [hknown] at hup
          cases hup with
          | known hne => exact absurd rfl hne
      | false =>
          exact .greeting (by simp) execFunFlags payload [] hid hverify hserialize rfl (by simp)
  | call client call taken hready hidle => exact traffic_startCall h call taken hready
  | timeout client ongoing hongoing =>
      exact h.client rfl rfl List.prefix_rfl ((h.up client).congr rfl rfl) fun p hp => hp
  | deliver client ongoing hongoing frame rest hdown =>
      refine h.client rfl rfl List.prefix_rfl ((h.up client).congr rfl rfl) fun p hp => ?_
      exact hdown ▸ List.mem_cons_of_mem frame hp
  | serve client frame rest hup server hserver =>
      exact traffic_server hcodec h (taken_serve hup) hserver
  | thread choice server hserver | worker i server hserver =>
      exact traffic_server hcodec h (taken_self (by simp)) hserver

end Network

end InterProcess
