import InterProcess.Server.Process
import InterProcess.Server.Rest

/-!
# What is known of the server process

In the loop the server is `Server.Up`, as if no reply had been lost: a step does the same
whatever was sent before, so `Attending` keeps beside what was sent the list that a server
without faults would have sent. From the call of `deinit` on it is `Server.Closing`. `Sound`
puts the two together along the points of the main thread. An exception or a refused frame can
lose replies: that to the last message, whose turn it ended the loop with, and those of
`sendBadResponse`; this is `Replied`.
-/

namespace InterProcess

open Transition

namespace Pool

variable {p p' : Pool} {c : ℕ}

theorem DeinitStep.idle_iff (h : p.DeinitStep c p') :
    p'.callers c = .idle ↔ p.callers c = .stopped := by
  cases h <;> simp_all

end Pool

namespace Server

/-- What is known of the server from the call of `deinit` on. -/
structure Closing (s : Server) : Prop where
  free : s.thread = .receive
  reached : ∃ n ks, run Pool.step (Pool.start n) ks = some s.mAlgoRunner
  stopping : ∃ jobs, s.mAlgoRunner.Stopping 0 jobs

variable {codec : Codec} {ms : List Message} {s s' : Server} {pool : Pool} {n : ℕ}

theorem Available.close (h : s.Available n) (hfree : s.thread = .receive)
    (hpool : s.mAlgoRunner.step (.deinit 0) = some pool) :
    (s.withRunner pool s.thread).Closing ∧ pool.callers 0 = .stopTest := by
  have hreached := Pool.reached_step h.attended.reached hpool
  obtain ⟨-, hs⟩ := Pool.step_cases hpool
  cases hs with
  | deinit =>
      refine ⟨⟨hfree, ⟨n, hreached⟩, _, fun d hd => ?_, ?_, rfl⟩, ?_⟩
      · rw [withRunner_mAlgoRunner, Pool.setCaller_callers, Function.update_of_ne hd]
        exact h.attended.alone d hd
      · rw [withRunner_mAlgoRunner, Pool.setCaller_callers, Function.update_self]
        exact h.attended.running
      · rw [Pool.setCaller_callers, Function.update_self]

theorem Available.congr (h : s.Available n) (hrunner : s'.mAlgoRunner = s.mAlgoRunner)
    (hthread : s'.thread = s.thread) : s'.Available n where
  ready := by
    obtain ⟨hsturdy, halone, hbusy⟩ := h.ready
    exact ⟨hrunner ▸ hsturdy, hrunner ▸ halone, by rwa [hrunner, hthread]⟩
  attended := hrunner ▸ h.attended
  idle := by
    rw [hrunner, hthread]
    exact h.idle

theorem Closing.idle_iff (h : s.Closing) {choice : Choice}
    (hpool : s.mAlgoRunner.step (.caller 0 choice) = some pool) :
    pool.callers 0 = .idle ↔ s.mAlgoRunner.callers 0 = .stopped := by
  obtain ⟨jobs, hstopping⟩ := h.stopping
  obtain ⟨-, hs⟩ := Pool.step_cases hpool
  cases hs with
  | caller _ _ hc => exact (hstopping.deinitStep hc).idle_iff

theorem closing_step {m : InterProcess.Label} (h : s.Closing) (hm : ¬ m.Starts)
    (hpool : s.mAlgoRunner.step m = some pool) : (s.withRunner pool s.thread).Closing where
  free := h.free
  reached := by
    obtain ⟨n, h⟩ := h.reached
    exact ⟨n, Pool.reached_step h hpool⟩
  stopping := by
    obtain ⟨jobs, hstopping⟩ := h.stopping
    exact ⟨jobs, Pool.stopping_step hstopping hm hpool⟩

/-! ### What was sent is never read -/

@[simps] def withSent (s : Server) (sent : List Sent) : Server := { s with sent }

theorem reply_withSent (s : Server) (client : Bytes) (tag : ℕ) (response : EnvelopeResp)
    (full : List Sent) :
    (s.withSent full).reply codec client tag response =
      (s.reply codec client tag response).withSent (full ++ replied codec client tag response) := by
  unfold reply replied
  cases codec.serializeResp response <;> simp [withSent]

/-- A step does the same whatever was sent before. -/
theorem step_withSent {l : Label} (hstep : step codec s l = some s') (full : List Sent) :
    ∃ more, s'.sent = s.sent ++ more ∧
      step codec (s.withSent full) l = some (s'.withSent (full ++ more)) := by
  obtain ⟨htrap, hs⟩ := step_cases hstep
  cases hs with
  | badHandshake client payload tag hfree hnew hparse =>
      exact ⟨_, rfl, by simp [step, htrap, recv, hfree, hnew, hparse, withSent, sendBadResponse]⟩
  | accept client payload tag hfree hnew handshake hparse hverify =>
      refine ⟨[], by simp, ?_⟩
      simp [step, htrap, recv, hfree, hnew, hparse, hverify, withSent, register]
  | refuse client payload tag hfree hnew handshake hparse hverify =>
      refine ⟨_, rfl, ?_⟩
      simp [step, htrap, recv, hfree, hnew, hparse, hverify, withSent, sendBadResponse, register]
  | badRequest client payload tag hfree caps hcaps hparse =>
      exact ⟨_, rfl, by simp [step, htrap, recv, hfree, hcaps, hparse, withSent, sendBadResponse]⟩
  | answer client payload tag hfree caps hcaps request hparse response hhandle =>
      refine ⟨_, reply_sent .., ?_⟩
      simp [step, htrap, recv, hfree, hcaps, hparse, hhandle, reply_withSent]
  | run client payload tag hfree caps hcaps request hparse sreq hhandle pool hpool =>
      refine ⟨[], by simp, ?_⟩
      simp [step, htrap, recv, hfree, hcaps, hparse, hhandle, hpool, withSent, withRunner]
  | get client payload tag hfree caps hcaps request hparse greq hhandle pool hpool =>
      refine ⟨[], by simp, ?_⟩
      simp [step, htrap, recv, hfree, hcaps, hparse, hhandle, hpool, withSent, withRunner]
  | think client tag choice hbusy pool hpool hran hgot =>
      refine ⟨[], by simp, ?_⟩
      simp only [step, htrap, advance, hbusy, hpool, withSent_mAlgoRunner, withSent_thread,
        Bool.false_eq_true, if_false, Option.map_some, Option.some.injEq]
      simp [withSent, withRunner]
  | ran client tag choice hbusy pool hpool sreq response hran =>
      refine ⟨_, by rw [reply_sent, withRunner_sent], ?_⟩
      simp only [step, htrap, advance, hbusy, hpool, hran, withSent_mAlgoRunner, withSent_thread,
        Bool.false_eq_true, if_false, Option.map_some, ← reply_withSent]
      rfl
  | got client tag choice hbusy pool hpool greq response hgot =>
      refine ⟨_, by rw [reply_sent, withRunner_sent], ?_⟩
      simp only [step, htrap, advance, hbusy, hpool, hgot, withSent_mAlgoRunner, withSent_thread,
        Bool.false_eq_true, if_false, Option.map_some, ← reply_withSent]
      rfl
  | worker i pool hpool =>
      refine ⟨[], by simp, ?_⟩
      simp [step, htrap, hpool, withSent, withRunner]

theorem Up.withSent_step (hcodec : codec.Lawful) {full : List Sent} {l : Label}
    (h : (s.withSent full).Up codec ms) (hstep : step codec s l = some s') :
    ∃ more, s'.sent = s.sent ++ more ∧
      (s'.withSent (full ++ more)).Up codec (ms ++ l.message.toList) := by
  obtain ⟨more, hmore, hstep'⟩ := step_withSent hstep full
  exact ⟨more, hmore, up_step hcodec h hstep'⟩

theorem busy_of_thread {choice : Choice} (hstep : step codec s (.thread choice) = some s') :
    s.thread ≠ .receive := by
  cases (step_cases hstep).2 with
  | think _ _ _ hbusy | ran _ _ _ hbusy | got _ _ _ hbusy => simp [hbusy]

theorem request_of_busy {client payload : Bytes} {tag : ℕ}
    (hstep : step codec s (.recv client payload tag) = some s') (hbusy : s'.thread ≠ .receive) :
    ∃ caps request, s.mClientExecCaps client = some caps ∧ codec.parseReq payload = some request ∧
      s'.sent = s.sent ∧ s'.thread = .handle client tag := by
  cases (step_cases hstep).2 with
  | badHandshake _ _ _ hfree | accept _ _ _ hfree | refuse _ _ _ hfree | badRequest _ _ _ hfree =>
      exact absurd hfree hbusy
  | answer _ _ _ hfree =>
      rw [reply_thread] at hbusy
      exact absurd hfree hbusy
  | run _ _ _ _ caps hcaps request hparse | get _ _ _ _ caps hcaps request hparse =>
      exact ⟨caps, request, hcaps, hparse, rfl, rfl⟩

theorem reply_of_free {client payload : Bytes} {tag : ℕ} {caps : UInt8} {request : EnvelopeReq}
    (hstep : step codec s (.recv client payload tag) = some s') (hfree : s'.thread = .receive)
    (hcaps : s.mClientExecCaps client = some caps) (hparse : codec.parseReq payload = some request) :
    ∃ response, handleEnvelope request caps = .reply response ∧
      s.answer codec (.recv client payload tag) = some response := by
  cases (step_cases hstep).2 with
  | badHandshake _ _ _ _ hnew | accept _ _ _ _ hnew | refuse _ _ _ _ hnew =>
      rw [hcaps] at hnew
      cases hnew
  | badRequest _ _ _ _ _ _ hnone =>
      rw [hparse] at hnone
      cases hnone
  | answer _ _ _ _ caps' hcaps' request' hparse' response hhandle =>
      obtain rfl := Option.some.inj (hcaps.symm.trans hcaps')
      obtain rfl := Option.some.inj (hparse.symm.trans hparse')
      exact ⟨response, hhandle, by simp [answer, hcaps, hparse, hhandle]⟩
  | run | get => cases hfree

theorem free_of_answer {choice : Choice} {response : EnvelopeResp}
    (hstep : step codec s (.thread choice) = some s')
    (hanswer : s.answer codec (.thread choice) = some response) :
    s'.thread = .receive ∧ s'.mClientExecCaps = s.mClientExecCaps := by
  cases (step_cases hstep).2 with
  | think _ _ _ _ _ _ hran hgot =>
      simp only [answer] at hanswer
      cases hanswer
  | ran | got => exact ⟨reply_thread .., reply_mClientExecCaps ..⟩

/-- What a message adds to the replies is what was owed for it. -/
theorem Served.pays {m : Message} (h : Served codec (ms ++ [m]) s) (hfree : s.thread = .receive)
    {full more : List Sent} (hsent : s.sent = full ++ more)
    (hfull : List.Forall₂ (Due.Met codec) (dues codec [] ms) full) :
    List.Forall₂ (Due.Met codec) (m.due codec ms).toList more := by
  have hall := h.settled hfree
  rw [dues_concat, hsent] at hall
  have hmore := List.forall₂_drop_append _ _ _ hall
  rwa [← hfull.length_eq, List.drop_left] at hmore

end Server

namespace Process

open Exits

variable {codec : Codec} {p p' q : Process} {l : Label} {ls : List Label}

/-- What was sent after the messages `as`: the replies of the turns that send one. Only the last
turn can have lost the reply to a request. -/
structure Replied (codec : Codec) (as : List Arrival) (sent : List Sent) : Prop where
  sent : List.Forall₂ (Due.Met codec) (owed codec [] as) sent
  spared : Spared codec [] as.dropLast

/-- What is known in the loop after the messages `as`. Those in `before` are dealt with; `full`
is what the server would have sent if no reply had been lost. -/
structure Attending (codec : Codec) (as before : List Arrival) (full : List Sent)
    (turn : Serving.Turn) (s : Server) : Prop where
  up : (s.withSent full).Up codec (as.map Prod.fst)
  paid : List.Forall₂ (Due.Met codec) (dues codec [] (before.map Prod.fst)) full
  sent : List.Forall₂ (Due.Met codec) (owed codec [] before) s.sent
  spared : Spared codec [] before
  free : s.thread = .receive → as = before
  busy : s.thread ≠ .receive → ∃ m : Message, as = before ++ [(m, turn)] ∧ turn.enters = true ∧
    Registered codec (before.map Prod.fst) m.client ∧ codec.parseReq m.payload ≠ none

variable {as before : List Arrival} {full : List Sent} {turn : Serving.Turn} {s s' : Server}
  {a : Arrival}

theorem attending_start (codec : Codec) (n : ℕ) (turn : Serving.Turn) :
    Attending codec [] [] [] turn (Server.start n) where
  up := Server.up_start codec n
  paid := .nil
  sent := .nil
  spared := trivial
  free _ := rfl
  busy h := absurd rfl h

theorem Attending.available (h : Attending codec as before full turn s) : ∃ n, s.Available n := by
  obtain ⟨n, hav⟩ := h.up.available
  exact ⟨n, hav.congr rfl rfl⟩

theorem Attending.replied (h : Attending codec as before full turn s)
    (hfree : s.thread = .receive) : Replied codec as s.sent := by
  obtain rfl := h.free hfree
  exact ⟨h.sent, h.spared.dropLast⟩

theorem Attending.move (hcodec : codec.Lawful) (h : Attending codec as before full turn s)
    {l : Server.Label} (hl : l.message = none) (hstep : s.step codec l = some s')
    (hsent : s'.sent = s.sent) (hthread : s'.thread = s.thread) :
    Attending codec as before full turn s' := by
  obtain ⟨more, hmore, hup⟩ := h.up.withSent_step hcodec hstep
  obtain rfl : more = [] := List.append_right_eq_self.mp (hmore.symm.trans hsent)
  rw [hl, Option.toList_none, List.append_nil, List.append_nil] at hup
  exact ⟨hup, h.paid, hsent ▸ h.sent, h.spared, hthread ▸ h.free, hthread ▸ h.busy⟩

theorem Attending.enter (hcodec : codec.Lawful) (h : Attending codec as before full turn s)
    (hfree : s.thread = .receive) {turn' : Serving.Turn} (henters : turn'.enters = true)
    {client payload : Bytes} {tag : ℕ} (hstep : s.step codec (.recv client payload tag) = some s')
    (hbusy : s'.thread ≠ .receive) :
    Attending codec (as ++ [(⟨client, payload, tag⟩, turn')]) before full turn' s' := by
  obtain ⟨caps, request, hcaps, hparse, hsent, -⟩ := Server.request_of_busy hstep hbusy
  obtain ⟨more, hmore, hup⟩ := h.up.withSent_step hcodec hstep
  obtain rfl : more = [] := List.append_right_eq_self.mp (hmore.symm.trans hsent)
  rw [List.append_nil] at hup
  refine ⟨by simpa [Server.Label.message] using hup, h.paid, hsent ▸ h.sent, h.spared, fun h => absurd h hbusy, fun _ => ?_⟩
  have hregistered := (h.up.served.registered client).mp (by simp [hcaps])
  obtain rfl := h.free hfree
  exact ⟨_, rfl, henters, hregistered, by simp [hparse]⟩

theorem sent_conclude {m : Message} (h : List.Forall₂ (Due.Met codec) (owed codec [] before) s.sent)
    {more : List Sent}
    (hpays : List.Forall₂ (Due.Met codec) (m.due codec (before.map Prod.fst)).toList more)
    (hsent : s'.sent = s.sent ++ more) {sends : Bool}
    (hsends : sends = turn.delivers codec (Registered codec (before.map Prod.fst) m.client) m.payload) :
    List.Forall₂ (Due.Met codec) (owed codec [] (before ++ [(m, turn)]))
      (if sends then s'.sent else s.sent) := by
  rw [owed_concat, List.nil_append, Arrival.owed, hsends]
  split
  · rw [hsent]
    exact List.rel_append h hpays
  · rwa [List.append_nil]

/-- What is known of the process after the messages `as`. -/
inductive Sound (codec : Codec) (as : List Arrival) (p : Process) : Prop
  | starting (hmain : p.main = .init) (has : as = []) (hcons : p.app.Consistent)
      (hoff : p.app.mInitialized = false)
  | serving (hmain : p.main = .loopTest ∨ p.main = .body)
      (hcons : p.app.Consistent) (hon : p.app.mInitialized = true) (before : List Arrival)
      (full : List Sent) (hat : Attending codec as before full p.turn p.server)
      (hbusy : p.server.thread ≠ .receive → p.main = .body)
  | leaving (hmain : p.main = .deinit) (hcons : p.app.Consistent)
      (hon : p.app.mInitialized = true) (hav : ∃ n, p.server.Available n)
      (hfree : p.server.thread = .receive) (hreplied : Replied codec as p.server.sent)
  | unbound (hmain : p.main = .deinit ∨ p.main = .returned ecSuccess) (has : as = [])
      (hoff : p.app.mInitialized = false) (himpl : p.app.mAlgoRunner.outImpl ≠ none)
  | closing (hmain : p.main = .join) (hcons : p.app.Consistent) (hon : p.app.mInitialized = true)
      (hclosing : p.server.Closing) (hin : p.server.mAlgoRunner.callers 0 ≠ .idle)
      (hreplied : Replied codec as p.server.sent)
  | closed (hmain : p.main = .returned ecSuccess) (hcons : p.app.Consistent)
      (hoff : p.app.mInitialized = false) (hclosing : p.server.Closing)
      (hout : p.server.mAlgoRunner.callers 0 = .idle) (hreplied : Replied codec as p.server.sent)
  | terminated (hmain : p.main = .terminated) (has : as = [])

theorem sound_start (codec : Codec) (threads : Int32) : (start threads).Sound codec [] :=
  .starting rfl rfl (Lifecycle.consistent_create threads) rfl

theorem sound_init (hcons : p.app.Consistent) (hoff : p.app.mInitialized = false) (binds : Bool)
    (creates : ℕ → Bool) : (p.init binds creates).Sound codec [] := by
  obtain ⟨hnone, hzero⟩ := hcons.off hoff
  unfold init
  split
  · exact .terminated rfl rfl
  · next code app hinit =>
      have hstep : p.app.step (.init binds creates) = some app := by
        simp [Lifecycle.step, Lifecycle.call, hinit]
      simp only [Lifecycle.init, hoff, Bool.false_eq_true, if_false,
        Option.map_eq_some_iff] at hinit
      obtain ⟨runner, hrunner, heq⟩ := hinit
      cases binds with
      | true =>
          obtain ⟨rfl, rfl⟩ := Prod.mk.inj heq
          have hcons' := Lifecycle.consistent_step _ _ _ hcons (fun _ h => by cases h) hstep
          exact .serving (Or.inl (by simp)) hcons' rfl [] [] (attending_start codec _ _)
            fun hbusy => absurd rfl hbusy
      | false =>
          obtain ⟨rfl, rfl⟩ := Prod.mk.inj heq
          obtain ⟨impl, himpl, -⟩ := Lifecycle.init_runner_cases hnone hzero hrunner
          have hfails : ecFailure ≠ ecSuccess := by decide
          exact .unbound (Or.inl (by simp [hfails])) rfl rfl (by simp [himpl])

theorem Sound.signal (h : p.Sound codec as) : Sound codec as { p with sigStop := true } := by
  cases h with
  | starting hmain has hcons hoff => exact .starting hmain has hcons hoff
  | serving hmain hcons hon before full hat hbusy =>
      exact .serving hmain hcons hon before full hat hbusy
  | leaving hmain hcons hon hav hfree hreplied => exact .leaving hmain hcons hon hav hfree hreplied
  | unbound hmain has hoff himpl => exact .unbound hmain has hoff himpl
  | closing hmain hcons hon hclosing hin hreplied =>
      exact .closing hmain hcons hon hclosing hin hreplied
  | closed hmain hcons hoff hclosing hout hreplied =>
      exact .closed hmain hcons hoff hclosing hout hreplied
  | terminated hmain has => exact .terminated hmain has

theorem Sound.of_loop (h : p.Sound codec as) (hmain : p.main = .loopTest ∨ p.main = .body) :
    p.app.Consistent ∧ p.app.mInitialized = true ∧
      (∃ before full, Attending codec as before full p.turn p.server) ∧
      (p.server.thread ≠ .receive → p.main = .body) := by
  cases h with
  | serving _ hcons hon before full hat hbusy => exact ⟨hcons, hon, ⟨before, full, hat⟩, hbusy⟩
  | starting hmain' | leaving hmain' | closing hmain' | closed hmain' | terminated hmain' =>
      simp [hmain'] at hmain
  | unbound hmain' => rcases hmain' with hmain' | hmain' <;> simp [hmain'] at hmain

theorem Sound.free (h : p.Sound codec as) (hmain : p.main = .loopTest) :
    p.server.thread = .receive := by
  by_contra hbusy
  have hbody := (h.of_loop (Or.inl hmain)).2.2.2 hbusy
  rw [hmain] at hbody
  cases hbody

theorem Sound.worker (hcodec : codec.Lawful) (h : p.Sound codec as) (halive : p.main.alive = true)
    {i : ℕ} {pool : Pool} (hpool : p.server.mAlgoRunner.step (.worker i) = some pool) :
    (p.withRunner pool p.main).Sound codec as := by
  have hserver : p.server.step codec (.worker i) = _ := Server.step_worker hpool
  cases h with
  | starting hmain has hcons hoff => exact .starting hmain has hcons hoff
  | serving hmain hcons hon before full hat hbusy =>
      exact .serving hmain hcons hon before full (hat.move hcodec rfl hserver rfl rfl) hbusy
  | leaving hmain hcons hon hav hfree hreplied =>
      obtain ⟨n, hav⟩ := hav
      exact .leaving hmain hcons hon ⟨n, Server.available_step _ _ _ hav hserver⟩ hfree hreplied
  | unbound hmain has hoff himpl => exact .unbound hmain has hoff himpl
  | closing hmain hcons hon hclosing hin hreplied =>
      exact .closing hmain hcons hon (Server.closing_step hclosing id hpool)
        (fun hidle => hin ((Pool.idle_of_worker_step hpool).mp hidle)) hreplied
  | closed hmain | terminated hmain =>
      rw [hmain] at halive
      cases halive

theorem Sound.of_join (h : p.Sound codec as) (hmain : p.main = .join) :
    p.app.Consistent ∧ p.app.mInitialized = true ∧ p.server.Closing ∧
      p.server.mAlgoRunner.callers 0 ≠ .idle ∧ Replied codec as p.server.sent := by
  cases h with
  | closing _ hcons hon hclosing hin hreplied => exact ⟨hcons, hon, hclosing, hin, hreplied⟩
  | starting hat | leaving hat | closed hat | terminated hat => simp [hmain] at hat
  | serving hat => simp [hmain] at hat
  | unbound hat => simp [hmain] at hat

theorem Sound.of_deinit (h : p.Sound codec as) (hmain : p.main = .deinit)
    (hon : p.app.mInitialized = true) :
    p.app.Consistent ∧ (∃ n, p.server.Available n) ∧ p.server.thread = .receive ∧
      Replied codec as p.server.sent := by
  cases h with
  | leaving _ hcons _ hav hfree hreplied => exact ⟨hcons, hav, hfree, hreplied⟩
  | unbound _ _ hoff =>
      rw [hon] at hoff
      cases hoff
  | starting hat | closing hat | closed hat | terminated hat => simp [hmain] at hat
  | serving hat => simp [hmain] at hat

/-! ### The end of a turn -/

theorem sound_conclude (hcons : p.app.Consistent) (hon : p.app.mInitialized = true)
    {server : Server} {sends : Bool} {exit : Except Serving.Exit Unit × Serving.Loop}
    (hfree : server.thread = .receive) (hav : ∃ n, server.Available n)
    (hreplied : Replied codec as (if sends then server.sent else p.server.sent))
    (full : List Sent) (hok : exit.1.isOk = true → Attending codec as as full p.turn
      (p.conclude server sends exit).server) :
    (p.conclude server sends exit).Sound codec as := by
  cases hexit : exit.1.isOk with
  | true =>
      refine .serving (Or.inl ?_) hcons hon as full (hok hexit) fun hbusy => absurd hfree hbusy
      rw [conclude_main, hexit, if_pos rfl]
  | false =>
      obtain ⟨n, hav⟩ := hav
      refine .leaving ?_ hcons hon ⟨n, hav.congr rfl rfl⟩ hfree hreplied
      simp [hexit]

/-- The end of the turn that has received `m`. -/
theorem sound_dealt (hcons : p.app.Consistent) (hon : p.app.mInitialized = true)
    (hat : Attending codec as before full p.turn p.server) {m : Message} {more : List Sent}
    (hup : (s'.withSent (full ++ more)).Up codec (before.map Prod.fst ++ [m]))
    (hmore : s'.sent = p.server.sent ++ more) (hfree : s'.thread = .receive) {sends : Bool}
    (hsends : sends = turn.delivers codec (Registered codec (before.map Prod.fst) m.client) m.payload)
    {exit : Except Serving.Exit Unit × Serving.Loop}
    (hok : exit.1.isOk = true → exit.2.mClientExecCaps = s'.mClientExecCaps ∧
      Arrival.Spared codec (before.map Prod.fst) (m, turn)) :
    (p.conclude s' sends exit).Sound codec (before ++ [(m, turn)]) := by
  have hpays : List.Forall₂ (Due.Met codec) (m.due codec (before.map Prod.fst)).toList more :=
    hup.served.pays hfree rfl hat.paid
  have hsent := sent_conclude hat.sent hpays hmore hsends
  obtain ⟨n, hav⟩ := hup.available
  refine sound_conclude hcons hon hfree ⟨n, hav.congr rfl rfl⟩
    ⟨hsent, by simpa using hat.spared⟩ (full ++ more) fun hexit => ?_
  obtain ⟨hcaps, hspared⟩ := hok hexit
  refine ⟨?_, ?_, hsent, spared_concat.mpr ⟨hat.spared, hspared⟩, fun _ => rfl,
    fun hbusy => absurd hfree hbusy⟩
  · rw [List.map_append, conclude_server, hcaps]
    exact hup
  · rw [List.map_append, List.map_singleton, dues_concat, List.nil_append]
    exact List.rel_append hat.paid hpays

theorem Attending.isSome (h : Attending codec as before full turn s) (hfree : s.thread = .receive)
    (client : Bytes) :
    (s.mClientExecCaps client).isSome = decide (Registered codec (before.map Prod.fst) client) := by
  obtain rfl := h.free hfree
  rw [Bool.eq_iff_iff, Option.isSome_iff_ne_none, decide_eq_true_eq]
  exact h.up.served.registered client

theorem sound_missed (hcons : p.app.Consistent) (hon : p.app.mInitialized = true)
    (hat : Attending codec as before full p.turn p.server) (hfree : p.server.thread = .receive)
    (htakes : turn.takes = none) :
    (p.conclude p.server false ((turn.body codec).run.run p.loop)).Sound codec as := by
  have hsame := hat.free hfree
  subst hsame
  refine sound_conclude hcons hon hfree hat.available (hat.replied hfree) full fun hok => ?_
  obtain ⟨-, hpasses⟩ := of_wp_isOk (turn.wp_passes codec p.loop) hok
  obtain ⟨-, hregisters⟩ := of_wp_isOk (turn.wp_body codec p.loop) hok
  have hnothing : turn.received = none := by rwa [Serving.Turn.takes, hpasses, if_pos rfl] at htakes
  rw [Serving.Turn.registers, hnothing] at hregisters
  rw [conclude_server, hregisters]
  exact hat

theorem sound_handled (hcodec : codec.Lawful) (hcons : p.app.Consistent)
    (hon : p.app.mInitialized = true) (hat : Attending codec as before full p.turn p.server)
    (hfree : p.server.thread = .receive) {tag : ℕ} {client payload : Bytes}
    (htakes : turn.takes = some (client, payload))
    (hserver : p.server.step codec (.recv client payload tag) = some s')
    (hdone : s'.thread = .receive) :
    (p.conclude s' (turn.delivers codec (p.server.mClientExecCaps client).isSome payload)
      ((turn.body codec).run.run p.loop)).Sound codec (as ++ [(⟨client, payload, tag⟩, turn)]) := by
  have hsame := hat.free hfree
  subst hsame
  obtain ⟨-, hreceived⟩ := Serving.Turn.received_of_takes htakes
  obtain ⟨more, hmore, hup⟩ := hat.up.withSent_step hcodec hserver
  refine sound_dealt hcons hon hat hup hmore hdone (by rw [hat.isSome hfree]) fun hok => ⟨?_, ?_⟩
  · obtain ⟨-, hregisters⟩ := of_wp_isOk (turn.wp_body codec p.loop) hok
    rw [hregisters, Serving.Turn.registers, hreceived]
    exact (Serving.registered_of_recv (Server.recv_of_step hserver)).symm
  · intro hregistered hparse
    obtain ⟨caps, hcaps⟩ :=
      Option.ne_none_iff_exists'.mp ((hat.up.served.registered client).mpr hregistered)
    obtain ⟨request, hrequest⟩ := Option.ne_none_iff_exists'.mp hparse
    obtain ⟨response, hhandle, hanswer⟩ := Server.reply_of_free hserver hdone hcaps hrequest
    have hserial : codec.serializeResp response ≠ none :=
      Server.serialises_of_lawful (s := p.server) hcodec hat.up.yielding _ response hanswer
    obtain ⟨-, henters, hreplies⟩ :=
      of_wp_isOk (turn.wp_request p.loop hreceived hcaps hrequest) hok
    rw [Serving.Turn.delivers_of_request hparse henters]
    refine hreplies ?_
    rwa [Serving.Turn.handleEnvelope, hhandle]

theorem sound_dropped (hcons : p.app.Consistent) (hon : p.app.mInitialized = true)
    (hat : Attending codec as before full p.turn p.server) (hfree : p.server.thread = .receive)
    {tag : ℕ} {client payload : Bytes} (htakes : turn.takes = some (client, payload))
    (hserver : p.server.step codec (.recv client payload tag) = some s')
    (hbusy : s'.thread ≠ .receive) (henters : turn.enters = false) :
    (p.conclude p.server false ((turn.body codec).run.run p.loop)).Sound codec
      (as ++ [(⟨client, payload, tag⟩, turn)]) := by
  have hsame := hat.free hfree
  subst hsame
  obtain ⟨caps, request, hcaps, hparse, -⟩ := Server.request_of_busy hserver hbusy
  obtain ⟨-, hreceived⟩ := Serving.Turn.received_of_takes htakes
  have hregistered : Registered codec (as.map Prod.fst) client :=
    (hat.up.served.registered client).mp (by simp [hcaps])
  refine sound_conclude hcons hon hfree hat.available ⟨?_, by simpa using hat.spared⟩
    full fun hok => ?_
  · rw [owed_concat, List.nil_append, Arrival.owed, if_neg]
    · simpa using hat.sent
    · simp [hregistered, Serving.Turn.delivers, hparse, henters]
  · obtain ⟨-, hentered, -⟩ :=
      of_wp_isOk (turn.wp_request p.loop hreceived hcaps hparse) hok
    rw [henters] at hentered
    cases hentered

theorem sound_answered (hcodec : codec.Lawful) (hcons : p.app.Consistent)
    (hon : p.app.mInitialized = true) (hat : Attending codec as before full p.turn p.server)
    {choice : Choice} (hserver : p.server.step codec (.thread choice) = some s')
    {response : EnvelopeResp} (hanswer : p.server.answer codec (.thread choice) = some response) :
    (p.conclude s' p.turn.replies ((p.turn.reply codec response).run.run p.loop)).Sound codec as := by
  obtain ⟨hdone, hcaps⟩ := Server.free_of_answer hserver hanswer
  obtain ⟨m, rfl, henters, hregistered, hparse⟩ := hat.busy (Server.busy_of_thread hserver)
  obtain ⟨more, hmore, hup⟩ := hat.up.withSent_step hcodec hserver
  rw [show (Server.Label.thread choice).message = none from rfl, Option.toList_none,
    List.append_nil, List.map_append] at hup
  have hdelivers : p.turn.delivers codec true m.payload = p.turn.replies :=
    Serving.Turn.delivers_of_request hparse henters
  refine sound_dealt hcons hon hat hup hmore hdone (by simp [hregistered, hdelivers])
    fun hok => ⟨?_, fun _ _ => ?_⟩
  · have hwp : wp (p.turn.reply codec response)
        (fun _ loop => loop.mClientExecCaps = p.server.mClientExecCaps) Serving.Fails p.loop :=
      p.turn.wp_reply response rfl
    obtain ⟨-, hloop⟩ := of_wp_isOk hwp hok
    exact hloop.trans hcaps.symm
  · have hserial : codec.serializeResp response ≠ none :=
      Server.serialises_of_lawful (s := p.server) hcodec hat.up.yielding _ response hanswer
    obtain ⟨-, hreplies⟩ := of_wp_isOk
      (p.turn.wp_replies (Q := fun _ _ => p.turn.replies = true) p.loop hserial id) hok
    rw [hdelivers, hreplies]

theorem consistent_deinit {app : Lifecycle} (hcons : app.Consistent)
    (hon : app.mInitialized = true) :
    app.deinit.2.Consistent ∧ app.deinit.2.mInitialized = false := by
  refine ⟨Lifecycle.consistent_step app .deinit _ hcons (fun _ h => by cases h) rfl, ?_⟩
  simp [Lifecycle.deinit, hon]

theorem sound_step (hcodec : codec.Lawful) (h : p.Sound codec as)
    (hstep : step codec p l = some p') : p'.Sound codec (as ++ l.arrival.toList) := by
  have hquiet : l.arrival = none → p'.Sound codec as → p'.Sound codec (as ++ l.arrival.toList) := by
    intro hnone h'
    rwa [hnone, Option.toList_none, List.append_nil]
  obtain ⟨-, halive, hs⟩ := step_cases hstep
  cases hs with
  | init hmain binds creates =>
      refine hquiet rfl ?_
      cases h with
      | starting _ has hcons hoff => exact has ▸ sound_init hcons hoff binds creates
      | serving hat | leaving hat | unbound hat | closing hat | closed hat | terminated hat =>
          simp [hmain] at hat
  | signal => exact hquiet rfl h.signal
  | enter hmain =>
      obtain ⟨hcons, hon, ⟨before, full, hat⟩, -⟩ := h.of_loop (Or.inl hmain)
      exact hquiet rfl (.serving (Or.inr rfl) hcons hon before full hat fun _ => rfl)
  | leave hmain =>
      obtain ⟨hcons, hon, ⟨before, full, hat⟩, -⟩ := h.of_loop (Or.inl hmain)
      have hfree := h.free hmain
      exact hquiet rfl (.leaving rfl hcons hon hat.available hfree (hat.replied hfree))
  | missed hmain hfree tag turn htakes =>
      obtain ⟨hcons, hon, ⟨before, full, hat⟩, -⟩ := h.of_loop (Or.inr hmain)
      exact hquiet (arrival_missed htakes) (sound_missed hcons hon hat hfree htakes)
  | handled hmain hfree tag turn client payload htakes server hserver hdone =>
      obtain ⟨hcons, hon, ⟨before, full, hat⟩, -⟩ := h.of_loop (Or.inr hmain)
      rw [arrival_recv htakes]
      exact sound_handled hcodec hcons hon hat hfree htakes hserver hdone
  | entered hmain hfree tag turn client payload htakes server hserver hbusy henters =>
      obtain ⟨hcons, hon, ⟨before, full, hat⟩, -⟩ := h.of_loop (Or.inr hmain)
      rw [arrival_recv htakes]
      exact .serving (Or.inr hmain) hcons hon before full
        (hat.enter hcodec hfree henters hserver hbusy) fun _ => hmain
  | dropped hmain hfree tag turn client payload htakes server hserver hbusy henters =>
      obtain ⟨hcons, hon, ⟨before, full, hat⟩, -⟩ := h.of_loop (Or.inr hmain)
      rw [arrival_recv htakes]
      exact sound_dropped hcons hon hat hfree htakes hserver hbusy henters
  | think hmain choice server hserver hanswer =>
      obtain ⟨hcons, hon, ⟨before, full, hat⟩, -⟩ := h.of_loop (Or.inr hmain)
      obtain ⟨hthread, -, hsent⟩ := Server.busy_of_think hserver hanswer
      exact hquiet rfl (.serving (Or.inr hmain) hcons hon before full
        (hat.move hcodec rfl hserver hsent hthread) fun _ => hmain)
  | answered hmain choice server hserver response hanswer =>
      obtain ⟨hcons, hon, ⟨before, full, hat⟩, -⟩ := h.of_loop (Or.inr hmain)
      exact hquiet rfl (sound_answered hcodec hcons hon hat hserver hanswer)
  | join hmain choice pool hpool hpc =>
      obtain ⟨hcons, hon, hclosing, -, hreplied⟩ := h.of_join hmain
      exact hquiet rfl (.closing rfl hcons hon (Server.closing_step hclosing id hpool)
        ((hclosing.idle_iff hpool).not.mpr hpc) hreplied)
  | joined hmain choice pool hpool hpc =>
      obtain ⟨hcons, hon, hclosing, -, hreplied⟩ := h.of_join hmain
      obtain ⟨hcons', hoff⟩ := consistent_deinit hcons hon
      exact hquiet rfl (.closed rfl hcons' hoff (Server.closing_step hclosing id hpool)
        ((hclosing.idle_iff hpool).mpr hpc) hreplied)
  | deinit hmain hon pool hpool =>
      obtain ⟨hcons, ⟨n, hav⟩, hfree, hreplied⟩ := h.of_deinit hmain hon
      obtain ⟨hclosing, hpc⟩ := hav.close hfree hpool
      exact hquiet rfl (.closing rfl hcons hon hclosing (by simp [hpc]) hreplied)
  | refused hmain hoff =>
      have hsame : p.app.deinit = (ecFailure, p.app) := by simp [Lifecycle.deinit, hoff]
      cases h with
      | leaving _ _ hon =>
          rw [hon] at hoff
          cases hoff
      | unbound _ has _ himpl =>
          refine hquiet rfl (.unbound (Or.inr rfl) has ?_ ?_)
          · rw [hsame]
            exact hoff
          · rw [hsame]
            exact himpl
      | starting hat | serving hat | closing hat | closed hat | terminated hat => simp [hmain] at hat
  | worker i pool hpool => exact hquiet rfl (h.worker hcodec halive hpool)

theorem sound_run (hcodec : codec.Lawful) (h : p.Sound codec as)
    (hrun : run (step codec) p ls = some q) :
    q.Sound codec (as ++ ls.filterMap Label.arrival) := by
  induction ls generalizing p as with
  | nil =>
      obtain rfl := Option.some.inj hrun
      simpa using h
  | cons l ls ih =>
      obtain ⟨p', hp', hrest⟩ := run_cons_eq_some.mp hrun
      have h' := ih (sound_step hcodec h hp') hrest
      rwa [filterMap_arrival_cons, ← List.append_assoc]

end Process

end InterProcess
