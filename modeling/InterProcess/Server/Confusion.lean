import InterProcess.Client.Application
import InterProcess.Server.Handshake

/-!
# Handshakes and requests on one socket

A handshake and a request are not marked as such; the server takes a message for the
one or the other by what it knows of its sender. A request that is taken for a
handshake has no capabilities. A handshake of a client of this repository that is
taken for a request submits nothing: the eight characters of its name are the bytes
of the submission, and no character can be the length of an operation among them.
-/

namespace InterProcess

open Transition Wire

theorem parse_eq {M : Type} {step : M → Field → Option M} {empty : M} {fs : List Field}
    {bytes : Bytes} (hlegal : ∀ f ∈ fs, f.Legal) (h : serialize fs = some bytes) :
    parse step empty bytes = fs.foldlM step empty := by
  unfold serialize at h
  split at h
  · next hlength =>
      obtain rfl : encode fs = bytes := Option.some.inj h
      rw [parse, if_pos hlength, merge_encode_eq _ hlegal hlength]
  · cases h

theorem execFunctions_of_request {request : EnvelopeReq} {bytes : Bytes}
    {handshake : FirstHandshake} (hserialize : wireCodec.serializeReq request = some bytes)
    (hparse : wireCodec.parseHandshake bytes = some handshake) : handshake.execFunctions = 0 := by
  have hfold : request.fields.foldlM FirstHandshake.step {} = some handshake :=
    (parse_eq request.legal hserialize).symm.trans hparse
  refine foldlM_invariant (P := fun h : FirstHandshake => h.execFunctions = 0) ?_ rfl hfold
  intro f hf m m' hm hstep
  obtain ⟨number, value, rfl⟩ : ∃ number value, f = ⟨number, .bytes value⟩ := by
    unfold EnvelopeReq.fields at hf
    split at hf
    · cases hf
    · exact ⟨1, _, List.mem_singleton.mp hf⟩
    · exact ⟨2, _, List.mem_singleton.mp hf⟩
  unfold FirstHandshake.step at hstep
  split at hstep
  · split at hstep
    · cases hstep
      exact hm
    · cases hstep
  · next heq => cases heq
  · cases hstep
    exact hm

theorem noLength_of_identity {identity : Bytes} (h : IsIdentity identity) : NoLength identity := by
  intro b hb
  have hchar := List.all_eq_true.mp h.2 b hb
  simp only [identityChar, Bool.or_eq_true, Bool.and_eq_true, decide_eq_true_eq,
    UInt8.le_iff_toNat_le] at hchar
  rw [h.1]
  constructor <;> rcases hchar with (⟨hle, hlt⟩ | ⟨hle, hlt⟩) | ⟨hle, hlt⟩ <;>
    simp at hle hlt <;> omega

/-- Bytes without lengths submit no operation. -/
theorem payload_of_noLength {limit depth : ℕ} {bs : Bytes} {request : SubmitRequest}
    (h : NoLength bs)
    (hmerge : merge (SubmitRequest.step depth) limit {} bs = some request) :
    request.payload = none := by
  refine merge_invariant (P := fun r : SubmitRequest => r.payload = none) ?_ rfl hmerge
  intro fs hfs f hf m m' hm hstep
  unfold SubmitRequest.step at hstep
  split at hstep
  · cases hstep
    exact hm
  · exact absurd hf (h.fields hfs _ _)
  · exact absurd hf (h.fields hfs _ _)
  · cases hstep
    exact hm

/-- A handshake that is taken for a request is a submission without an operation. -/
theorem submit_of_handshake {identity bytes : Bytes} {execFunFlags : UInt8}
    {request : EnvelopeReq} (hid : IsIdentity identity)
    (hserialize : wireCodec.serializeHandshake (firstHandshake identity execFunFlags) = some bytes)
    (hparse : wireCodec.parseReq bytes = some request) :
    ∃ sreq, request.req = some (.submit sreq) ∧ sreq.payload = none := by
  have hname : identity ≠ [] := by
    rintro rfl
    exact absurd hid.1 (by decide)
  have hfold := (parse_eq (FirstHandshake.legal _) hserialize).symm.trans hparse
  rw [FirstHandshake.fields, List.foldlM_append, firstHandshake, text, if_neg hname] at hfold
  obtain ⟨request', hfirst, hrest⟩ := Option.bind_eq_some_iff.mp hfold
  -- the name is the submission
  obtain ⟨sreq, hmerge, rfl⟩ : ∃ sreq, merge (SubmitRequest.step (recursionLimit - 1))
      (recursionLimit - 1) {} identity = some sreq ∧
        { req := some (.submit sreq) } = request' := by
    simpa [EnvelopeReq.step, ReqCase.submitRequest] using hfirst
  -- and the mask is no message
  have hmask : request = { req := some (.submit sreq) } := by
    unfold uint at hrest
    split at hrest
    · exact (Option.some.inj hrest).symm
    · simpa [EnvelopeReq.step] using hrest.symm
  exact ⟨sreq, by rw [hmask], payload_of_noLength (noLength_of_identity hid) hmerge⟩

namespace Server

/-- A submission without an operation is answered, and nothing else happens. -/
theorem step_of_no_payload {codec : Codec} {s s' : Server} {client payload : Bytes} {tag : ℕ}
    {caps : UInt8} (h : step codec s (.recv client payload tag) = some s')
    (hcaps : s.mClientExecCaps client = some caps)
    (hparse : ∀ request, codec.parseReq payload = some request →
      ∃ sreq, request.req = some (.submit sreq) ∧ sreq.payload = none) :
    ∃ more, s' = { s with sent := s.sent ++ more } := by
  obtain ⟨-, hs⟩ := step_cases h
  cases hs with
  | badHandshake _ _ _ _ hnew | accept _ _ _ _ hnew | refuse _ _ _ _ hnew =>
      rw [hcaps] at hnew
      cases hnew
  | badRequest => exact ⟨_, rfl⟩
  | answer _ _ _ _ _ _ _ _ response =>
      refine ⟨replied codec client tag response, ?_⟩
      unfold reply replied
      cases codec.serializeResp response <;> simp
  | run _ _ _ _ _ _ request hrequest sreq hhandle =>
      obtain ⟨hreq, hcapability⟩ := handleEnvelope_eq_run.mp hhandle
      obtain ⟨sreq', hreq', hpayload⟩ := hparse request hrequest
      rw [hreq] at hreq'
      cases hreq'
      exact absurd hpayload (payload_ne_none_of_capability hcapability)
  | get _ _ _ _ _ _ request hrequest greq hhandle =>
      obtain ⟨sreq, hreq, -⟩ := hparse request hrequest
      rw [handleEnvelope_eq_get.mp hhandle] at hreq
      cases hreq

/-- A request is refused as a handshake, with a mask of zero if it parses as one; and
a handshake of a client of this repository that arrives from a registered identity
submits no operation and changes nothing. -/
theorem encodings_apart :
    (∀ request bytes, wireCodec.serializeReq request = some bytes →
      RefusedFirst wireCodec bytes ∧
        ∀ handshake, wireCodec.parseHandshake bytes = some handshake →
          handshake.execFunctions = 0) ∧
    ∀ identity execFunFlags bytes, IsIdentity identity → verifyExecCaps execFunFlags = true →
      wireCodec.serializeHandshake (firstHandshake identity execFunFlags) = some bytes →
        (∀ request, wireCodec.parseReq bytes = some request →
          ∃ sreq, request.req = some (.submit sreq) ∧ sreq.payload = none) ∧
        ∀ s s' client caps tag, s.mClientExecCaps client = some caps →
          step wireCodec s (.recv client bytes tag) = some s' →
            ∃ more, s' = { s with sent := s.sent ++ more } := by
  refine ⟨fun request bytes hserialize => ⟨?_, fun handshake hparse =>
    execFunctions_of_request hserialize hparse⟩, ?_⟩
  · rcases hparse : wireCodec.parseHandshake bytes with _ | handshake
    · exact Or.inl hparse
    · refine Or.inr ⟨handshake, hparse, ?_⟩
      rw [execFunctions_of_request hserialize hparse]
      decide
  · intro identity execFunFlags bytes hid _ hserialize
    have hsubmit : ∀ request, wireCodec.parseReq bytes = some request →
        ∃ sreq, request.req = some (.submit sreq) ∧ sreq.payload = none :=
      fun request hparse => submit_of_handshake hid hserialize hparse
    exact ⟨hsubmit, fun s s' client caps tag hcaps hstep =>
      step_of_no_payload hstep hcaps hsubmit⟩

/-- The handshake of a client called `xxxxxxxx` parses as a submission. -/
theorem encodings_apart_x :
    ∃ bytes, wireCodec.serializeHandshake (firstHandshake (List.replicate 8 120) 1) = some bytes ∧
      (wireCodec.parseReq bytes).isSome = true ∧
      ∀ request, wireCodec.parseReq bytes = some request →
        ∃ sreq, request.req = some (.submit sreq) ∧ sreq.payload = none :=
  ⟨_, rfl, by decide, (encodings_apart.2 (List.replicate 8 120) 1 _ (by decide) (by decide)
    rfl).1⟩

end Server

end InterProcess
