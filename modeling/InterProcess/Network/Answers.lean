import InterProcess.Network.History
import InterProcess.Server.Answers

/-!
# What the clients are answered

Under any clock: the mask that the server keeps of a client is the one that the client was
started with, and a call to submit that took its own reply was answered as that mask and
the request say.
-/

namespace InterProcess

open Transition Wire

namespace Network

variable {codec : Codec} {s s' : Network} {ls : List Label} {ms : List Message}

/-- Every client is started once, and the server keeps the mask that it was started with. -/
structure Marked (ls : List Label) (s : Network) : Prop where
  masks : ∀ client caps, s.server.mClientExecCaps client = some caps → .init client caps ∈ ls
  started : ∀ client execFunFlags, .init client execFunFlags ∈ ls → (s.link client).log ≠ []
  once : ∀ client a b, .init client a ∈ ls → .init client b ∈ ls → a = b

theorem marked_start (n : ℕ) : Marked [] (start n) where
  masks client caps h := by cases h
  started client execFunFlags h := (List.not_mem_nil h).elim
  once client a b h := (List.not_mem_nil h).elim

theorem Marked.masks_server (hcodec : codec.Lawful) (h : Marked ls s) (hheard : Heard codec ls s ms)
    (htraffic : s.Traffic codec) {s₁ : Network} {m : Server.Label} {server : Server}
    (ht : s.Taken s₁ m) (hs : Server.Step codec s.server m server) (client : Bytes) (caps : UInt8)
    (hcaps : server.mClientExecCaps client = some caps) : .init client caps ∈ ls := by
  cases hs with
  | badHandshake | badRequest | run | get | think | worker => exact h.masks client caps hcaps
  | answer | ran | got =>
      rw [Server.reply_mClientExecCaps] at hcaps
      exact h.masks client caps hcaps
  | accept other payload tag hfree hnew handshake hparse =>
      by_cases hc : client = other
      · subst hc
        obtain ⟨errand, hrecord, -, hpayload⟩ :=
          hheard.greeting client ⟨tag, payload⟩ _ hnew ht.head
        cases hrecord with
        | call _ _ hnumber => exact absurd rfl hnumber
        | greet execFunFlags hlabel hid =>
            have htext : IsText (firstHandshake client execFunFlags).clientName :=
              isText_of_identity hid.2
            rw [hcodec.handshake _ _ hpayload, if_pos htext] at hparse
            obtain rfl := Option.some.inj hparse
            obtain rfl : execFunFlags = caps := by simpa [firstHandshake] using hcaps
            exact hlabel
      · rw [Server.register_mClientExecCaps, Table.insert_of_ne _ hc] at hcaps
        exact h.masks client caps hcaps
  | refuse other payload tag hfree hnew handshake hparse hrefuse =>
      obtain ⟨-, execFunFlags, hid, hverify, hserialize⟩ := htraffic.greeted ht hnew
      obtain ⟨_, hsome, hok⟩ := greeting_accepted hcodec hid hverify hserialize hparse
      obtain rfl := Option.some.inj hsome
      simp [hrefuse] at hok

theorem Marked.same (h : Marked ls s) {l : Label} (hl : ∀ client flags, l ≠ .init client flags)
    (hmasks : ∀ client caps, s'.server.mClientExecCaps client = some caps → .init client caps ∈ ls)
    (hlog : ∀ client, (s.link client).log <+: (s'.link client).log) : Marked (ls ++ [l]) s' := by
  have hold : ∀ {client flags}, .init client flags ∈ ls ++ [l] → .init client flags ∈ ls := by
    intro client flags hin
    rcases List.mem_append.mp hin with hin | hin
    · exact hin
    · exact absurd (List.mem_singleton.mp hin).symm (hl client flags)
  refine ⟨fun client caps hcaps => List.mem_append_left _ (hmasks client caps hcaps),
    fun client flags hin hnil => ?_, fun client a b ha hb => h.once client a b (hold ha) (hold hb)⟩
  exact h.started client flags (hold hin) (List.prefix_nil.mp (hnil ▸ hlog client))

theorem marked_step (hcodec : codec.Lawful) (h : Marked ls s) (hheard : Heard codec ls s ms)
    (htraffic : s.Traffic codec) {l : Label} (hs : Step codec s l s') : Marked (ls ++ [l]) s' := by
  have hlog := log_step hs
  cases hs with
  | init client execFunFlags hnew hid hverify payload =>
      have hfirst : ∀ flags, .init client flags ∉ ls := fun flags hin =>
        h.started client flags hin (by rw [hnew])
      refine ⟨fun c caps hcaps => List.mem_append_left _ (h.masks c caps hcaps),
        fun c flags hin hnil => ?_, fun c a b ha hb => ?_⟩
      · rcases List.mem_append.mp hin with hin | hin
        · exact h.started c flags hin (List.prefix_nil.mp (hnil ▸ hlog c))
        · obtain ⟨rfl, -⟩ := Label.init.inj (List.mem_singleton.mp hin)
          simp at hnil
      · have hcases : ∀ {flags}, .init c flags ∈ ls ++ [.init client execFunFlags] →
            .init c flags ∈ ls ∨ (c = client ∧ flags = execFunFlags) := fun hin =>
          (List.mem_append.mp hin).imp id fun hin => Label.init.inj (List.mem_singleton.mp hin)
        rcases hcases ha with hin | ⟨rfl, rfl⟩
        · rcases hcases hb with hin' | ⟨rfl, -⟩
          · exact h.once c a b hin hin'
          · exact absurd hin (hfirst a)
        · rcases hcases hb with hin | ⟨-, rfl⟩
          · exact absurd hin (hfirst b)
          · rfl
  | call client call taken =>
      refine h.same (by simp) (fun c caps hcaps => h.masks c caps ?_) hlog
      rwa [startCall_server] at hcaps
  | timeout client ongoing | deliver client ongoing => exact h.same (by simp) h.masks hlog
  | serve client frame rest hup server hserver =>
      exact h.same (by simp) (h.masks_server hcodec hheard htraffic (taken_serve hup)
        (Server.step_cases hserver).2) hlog
  | thread choice server hserver | worker i server hserver =>
      exact h.same (by simp) (h.masks_server hcodec hheard htraffic (taken_self (by simp))
        (Server.step_cases hserver).2) hlog

/-- What is known in every run, whatever the clock shows. -/
structure Known (codec : Codec) (ls : List Label) (s : Network) (ms : List Message) : Prop where
  traffic : s.Traffic codec
  heard : Heard codec ls s ms
  marked : Marked ls s
  answering : Server.Answering codec ms s.server

theorem known_of_run (hcodec : codec.Lawful) {n : ℕ} (hrun : run (step codec) (start n) ls = some s) :
    ∃ ms, Known codec ls s ms := by
  refine run_history (P := fun ls s => ∃ ms, Known codec ls s ms) ?_ ?_ hrun
  · rintro ls s l s' - ⟨ms, h⟩ hstep
    have hs := step_cases hstep
    obtain ⟨new, hheard, hserver⟩ := heard_step hcodec h.heard h.traffic hs
    refine ⟨ms ++ new, traffic_step hcodec h.traffic hs, hheard,
      marked_step hcodec h.marked h.heard h.traffic hs, ?_⟩
    rcases hserver with ⟨rfl, hsame⟩ | ⟨m, hm, rfl⟩
    · rw [List.append_nil, hsame]
      exact h.answering
    · exact Server.answering_step hcodec h.answering hm
  · exact ⟨[], traffic_start codec n, heard_start codec n, marked_start n,
      Server.answering_start codec n⟩

/-- A call to submit that took its own reply was answered as the mask of its client says. -/
theorem Known.answered (hcodec : codec.Lawful) (h : Known codec ls s ms) {c : Completed}
    (hpaired : c.Paired codec s) {sreq : SubmitRequest} {out : SubmitResponse}
    (hreq : c.ongoing.call.envelope.req = some (.submit sreq)) (hresult : c.result = .submit true out) :
    ∃ execFunFlags, (∀ flags, .init c.client flags ∈ ls ↔ flags = execFunFlags) ∧
      sreq.AnsweredBy execFunFlags out := by
  have hok : c.result.ok = true := by
    rw [hresult]
    rfl
  obtain ⟨bytes, hsent, hfinish⟩ := hpaired.sent
  obtain ⟨payload, response, hm, hserialize, hanswers⟩ := h.answering.sent _ hsent
  rw [hfinish] at hok
  rw [hfinish, Call.finish_eq_outcome hcodec hserialize hok] at hresult
  have hresp : response.resp = some (.submit out) := by
    rcases response with ⟨_ | (out' | out')⟩
    · cases hcall : c.ongoing.call <;> simp [Call.outcome, Call.failed, hcall] at hresult
    · cases hcall : c.ongoing.call <;> simp_all [Call.outcome, Call.failed]
    · cases hcall : c.ongoing.call <;> simp [Call.outcome, Call.failed, hcall] at hresult
  obtain ⟨errand, hrecord, hpayload⟩ := h.heard.origin _ hm
  have hparse : codec.parseReq payload = some c.ongoing.call.envelope := by
    cases hrecord with
    | greet _ _ _ _ hlog => simp [hpaired.message] at hlog
    | call call hlog =>
        obtain rfl := Option.some.inj (Option.some.inj (hpaired.message.symm.trans hlog))
        have hparse := hcodec.req _ _ hpayload
        split at hparse
        · exact hparse
        · obtain rfl := hanswers.bad hparse
          cases hresp
  obtain ⟨caps, hcaps, hanswered⟩ := hanswers.right _ sreq out hparse hreq hresp
  have hlabel := h.marked.masks _ _ hcaps
  refine ⟨caps, fun flags => ⟨fun hin => h.marked.once _ _ _ hin hlabel, ?_⟩, hanswered⟩
  rintro rfl
  exact hlabel

/-- Every client has been started with one mask, and a call to submit that took its own reply was
answered as this mask and its request say. -/
theorem submits_answered (codec : Codec) (hcodec : codec.Lawful) (n : ℕ) (ls : List Label)
    (s : Network) (hrun : run (step codec) (start n) ls = some s) :
    ∀ c ∈ s.completed, c.ongoing.clean = true → ∀ sreq out,
      c.ongoing.call.envelope.req = some (.submit sreq) → c.result = .submit true out →
        ∃ execFunFlags, (∀ flags, .init c.client flags ∈ ls ↔ flags = execFunFlags) ∧
          sreq.AnsweredBy execFunFlags out := by
  intro c hc hclean sreq out hreq hresult
  obtain ⟨ms, h⟩ := known_of_run hcodec hrun
  have horderly := run_invariant orderly_step (orderly_start codec n) hrun
  exact h.answered hcodec (horderly.own c hc (by rw [hresult]; rfl) hclean) hreq hresult

def mulRequest (a b : Int32) : SubmitRequest := { payload := some (.math ⟨.mathMul, a, b⟩) }

def refused : List Label :=
  joined ++ [.call (List.replicate 8 65) (.submitBlocking (mulRequest 2 3)) true,
    .serve (List.replicate 8 65), .deliver (List.replicate 8 65)]

theorem submits_answered_refused :
    ∃ s c execFunFlags, run (step wireCodec) (start 1) refused = some s ∧ c ∈ s.completed ∧
      (∀ flags, .init c.client flags ∈ refused ↔ flags = execFunFlags) ∧
        (mulRequest 2 3).AnsweredBy execFunFlags { status := .stErrorInvalidInput } := by
  obtain ⟨s, hs, htest⟩ := exists_of_run_any (step wireCodec) (start 1) refused
    (fun s => s.completed.any fun c => c.ongoing = ⟨.submitBlocking (mulRequest 2 3), 1, true⟩ ∧
      c.result = .submit true { status := .stErrorInvalidInput }) (by decide)
  simp only [decide_eq_true_eq, List.any_eq_true] at htest
  obtain ⟨c, hc, hongoing, hresult⟩ := htest
  obtain ⟨execFunFlags, hflags, hanswered⟩ := submits_answered wireCodec wireCodec_lawful 1 refused s
    hs c hc (by rw [hongoing]) (mulRequest 2 3) _ (by rw [hongoing]; rfl) hresult
  exact ⟨s, c, execFunFlags, hs, hc, hflags, hanswered⟩

end Network

end InterProcess
