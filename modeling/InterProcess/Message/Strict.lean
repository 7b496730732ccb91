import InterProcess.Message.Wire

/-!
# The strings of a request that is accepted

The parser refuses a string that is not UTF-8, in whichever field it is, and however often
the fields and submessages of the request are repeated and merged. So a request that is
accepted has well-formed strings only, whatever the bytes were that it came in.
-/

namespace InterProcess

open Wire

/-- The strings of every request that is parsed are well formed. -/
def Codec.Strict (codec : Codec) : Prop :=
  ∀ bytes request, codec.parseReq bytes = some request → ∀ s ∈ request.texts, IsText s

namespace StrArgs

/-- The strings of the arguments are well formed. -/
def Texts (args : StrArgs) : Prop := IsText args.s1 ∧ IsText args.s2

theorem texts_step {args args' : StrArgs} {f : Field} (h : args.Texts) (hs : args.step f = some args') :
    args'.Texts := by
  unfold step at hs
  split at hs
  · cases hs
    exact h
  · split at hs
    · next htext =>
        cases hs
        exact ⟨htext, h.2⟩
    · cases hs
  · split at hs
    · next htext =>
        cases hs
        exact ⟨h.1, htext⟩
    · cases hs
  · cases hs
    exact h

end StrArgs

namespace SubmitRequest

theorem texts_strArgs {request : SubmitRequest} (h : ∀ s ∈ request.texts, IsText s) :
    (Payload.strArgs request.payload).Texts := by
  rcases hpayload : request.payload with _ | (args | args)
  · exact ⟨isText_nil, isText_nil⟩
  · exact ⟨isText_nil, isText_nil⟩
  · have htexts : request.texts = [args.s1, args.s2] := by simp [texts, hpayload]
    rw [htexts] at h
    exact ⟨h args.s1 (by simp), h args.s2 (by simp)⟩

theorem texts_step {limit : ℕ} {request request' : SubmitRequest} {f : Field}
    (h : ∀ s ∈ request.texts, IsText s) (hs : request.step limit f = some request') :
    ∀ s ∈ request'.texts, IsText s := by
  unfold step at hs
  split at hs
  · cases hs
    exact h
  · obtain ⟨args, -, rfl⟩ := Option.map_eq_some_iff.mp hs
    simp [texts]
  · obtain ⟨args, hmerge, rfl⟩ := Option.map_eq_some_iff.mp hs
    have hargs : args.Texts := merge_invariant (P := StrArgs.Texts)
      (fun _ _ _ _ _ _ ht hstep => StrArgs.texts_step ht hstep) (texts_strArgs h) hmerge
    simpa [texts, StrArgs.Texts] using hargs
  · cases hs
    exact h

end SubmitRequest

namespace EnvelopeReq

theorem texts_submitRequest {request : EnvelopeReq} (h : ∀ s ∈ request.texts, IsText s) :
    ∀ s ∈ (ReqCase.submitRequest request.req).texts, IsText s := by
  rcases hreq : request.req with _ | (submit | get)
  · simp [ReqCase.submitRequest, SubmitRequest.texts]
  · have htexts : request.texts = submit.texts := by simp [texts, hreq]
    exact htexts ▸ h
  · simp [ReqCase.submitRequest, SubmitRequest.texts]

theorem texts_step {limit : ℕ} {request request' : EnvelopeReq} {f : Field}
    (h : ∀ s ∈ request.texts, IsText s) (hs : request.step limit f = some request') :
    ∀ s ∈ request'.texts, IsText s := by
  unfold step at hs
  split at hs
  · obtain ⟨submit, hmerge, rfl⟩ := Option.map_eq_some_iff.mp hs
    exact merge_invariant (P := fun submit : SubmitRequest => ∀ s ∈ submit.texts, IsText s)
      (fun _ _ _ _ _ _ ht hstep => SubmitRequest.texts_step ht hstep) (texts_submitRequest h) hmerge
  · obtain ⟨get, -, rfl⟩ := Option.map_eq_some_iff.mp hs
    simp [texts]
  · cases hs
    exact h

end EnvelopeReq

theorem wireCodec_strict : wireCodec.Strict := by
  intro bytes request hparse
  change parse (EnvelopeReq.step recursionLimit) {} bytes = some request at hparse
  unfold parse at hparse
  split at hparse
  · exact merge_invariant (P := fun request : EnvelopeReq => ∀ s ∈ request.texts, IsText s)
      (fun _ _ _ _ _ _ ht hstep => EnvelopeReq.texts_step ht hstep)
      (by simp [EnvelopeReq.texts]) hparse
  · cases hparse

end InterProcess
