import InterProcess.Server.Enforcement

/-!
# Refused handshakes

The first message of a client is refused if it does not parse as a handshake or if
its mask is not valid. The first of the two exits of the branch leaves the server as
it was. The other one registers the client, and whatever that client sends next is
no handshake any more.
-/

namespace InterProcess

open Transition

namespace Server

/-- A first message with this payload is answered with an error. -/
def RefusedFirst (codec : Codec) (payload : Bytes) : Prop :=
  codec.parseHandshake payload = none ∨
    ∃ handshake, codec.parseHandshake payload = some handshake ∧
      verifyExecCaps handshake.execFunctions.toUInt8 = false

/-- If the message is one of the client, all that it does is to be answered. -/
def LeavesState (codec : Codec) (client : Bytes) (s : Server) (l : Label) : Prop :=
  ∀ payload tag s', l = .recv client payload tag → step codec s l = some s' →
    s' = s.sendBadResponse codec client tag

/-- A handshake of the client with a valid mask that arrives now is not answered, and
the client is registered with its mask. -/
def AcceptsHandshake (codec : Codec) (client : Bytes) (s : Server) : Prop :=
  ∀ payload tag handshake, codec.parseHandshake payload = some handshake →
    verifyExecCaps handshake.execFunctions.toUInt8 = true →
      s.thread = .receive → s.mAlgoRunner.trapped = false →
        step codec s (.recv client payload tag) =
          some (s.register client handshake.execFunctions.toUInt8)

theorem acceptsHandshake_of_new {codec : Codec} {client : Bytes} {s : Server}
    (hnew : s.mClientExecCaps client = none) : s.AcceptsHandshake codec client := by
  intro payload tag handshake hparse hverify hfree htrap
  simp [step, htrap, hfree, recv, hnew, hparse, hverify]

/-- Only a message of the client itself registers it. -/
theorem new_step {codec : Codec} {s s' : Server} {l : Label} {client : Bytes}
    (h : step codec s l = some s') (hnew : s.mClientExecCaps client = none)
    (hother : ∀ payload tag, l ≠ .recv client payload tag) :
    s'.mClientExecCaps client = none := by
  obtain ⟨-, hs⟩ := step_cases h
  cases hs with
  | accept client' payload tag | refuse client' payload tag =>
      have hne : client ≠ client' := by
        rintro rfl
        exact hother payload tag rfl
      simpa [Table.insert_of_ne _ hne] using hnew
  | answer | ran | got => simpa using hnew
  | _ => exact hnew

/-- A message that does not parse as a handshake is answered, and that is all. -/
theorem step_of_unparseable {codec : Codec} {s s' : Server} {client payload : Bytes} {tag : ℕ}
    (h : step codec s (.recv client payload tag) = some s')
    (hnew : s.mClientExecCaps client = none) (hparse : codec.parseHandshake payload = none) :
    s' = s.sendBadResponse codec client tag := by
  obtain ⟨-, hs⟩ := step_cases h
  cases hs <;> simp_all

/-- A handshake with a mask that is not valid registers the client. -/
theorem step_of_refused {codec : Codec} {s s' : Server} {client payload : Bytes} {tag : ℕ}
    {handshake : FirstHandshake} (h : step codec s (.recv client payload tag) = some s')
    (hnew : s.mClientExecCaps client = none)
    (hparse : codec.parseHandshake payload = some handshake) :
    s'.mClientExecCaps client = some handshake.execFunctions.toUInt8 := by
  obtain ⟨-, hs⟩ := step_cases h
  cases hs with
  | accept _ _ _ _ _ handshake' hparse' | refuse _ _ _ _ _ handshake' hparse' =>
      obtain rfl : handshake' = handshake := Option.some.inj (hparse'.symm.trans hparse)
      simp
  | _ => simp_all

/-- The refused messages of a client that is not registered change nothing, and a
handshake that follows them is accepted, exactly when none of them parses as a
handshake; whatever else happens between them. -/
theorem refused_first_iff (codec : Codec) (client : Bytes) (ls : List Label) (s t : Server)
    (hrun : run (step codec) s ls = some t) (hnew : s.mClientExecCaps client = none)
    (hrefused : ∀ payload tag, .recv client payload tag ∈ ls → RefusedFirst codec payload) :
    (Guarded (step codec) (LeavesState codec client) s ls ∧ t.AcceptsHandshake codec client) ↔
      ∀ payload tag, .recv client payload tag ∈ ls → codec.parseHandshake payload = none := by
  induction ls generalizing s with
  | nil =>
      obtain rfl := Option.some.inj hrun
      refine iff_of_true ⟨trivial, acceptsHandshake_of_new hnew⟩ ?_
      rintro payload tag ⟨⟩
  | cons l ls ih =>
      obtain ⟨u, hu, hut⟩ := run_cons_eq_some.mp hrun
      have hrest : ∀ payload tag, .recv client payload tag ∈ ls → RefusedFirst codec payload :=
        fun payload tag hmem => hrefused payload tag (List.mem_cons_of_mem l hmem)
      have hguard : Guarded (step codec) (LeavesState codec client) s (l :: ls) ↔
          LeavesState codec client s l ∧
            Guarded (step codec) (LeavesState codec client) u ls := by
        rw [guarded_cons]
        exact and_congr_right fun _ =>
          ⟨fun h => h u hu, fun h t ht => Option.some.inj (hu.symm.trans ht) ▸ h⟩
      rw [hguard, and_assoc]
      by_cases hown : ∃ payload tag, l = .recv client payload tag
      · obtain ⟨payload, tag, rfl⟩ := hown
        rcases hrefused payload tag List.mem_cons_self with hparse | ⟨handshake, hparse, -⟩
        · -- the message is answered, and the client is as new as before
          have hu' := step_of_unparseable hu hnew hparse
          have hleaves : LeavesState codec client s (.recv client payload tag) := by
            rintro payload' tag' s' ⟨⟩ hs'
            exact (Option.some.inj (hs'.symm.trans hu)).trans hu'
          rw [and_iff_right hleaves, ih u hut (by rw [hu']; exact hnew) hrest]
          refine ⟨fun h payload' tag' hmem => ?_,
            fun h payload' tag' hmem => h payload' tag' (List.mem_cons_of_mem _ hmem)⟩
          rcases List.mem_cons.mp hmem with heq | hmem'
          · cases heq
            exact hparse
          · exact h payload' tag' hmem'
        · -- the message registers the client
          refine iff_of_false ?_ fun h => ?_
          · rintro ⟨hleaves, -⟩
            have hmask := step_of_refused hu hnew hparse
            rw [hleaves payload tag u rfl hu, sendBadResponse_mClientExecCaps, hnew] at hmask
            cases hmask
          · rw [h payload tag List.mem_cons_self] at hparse
            cases hparse
      · have hother : ∀ payload tag, l ≠ .recv client payload tag :=
          fun payload tag heq => hown ⟨payload, tag, heq⟩
        have hleaves : LeavesState codec client s l :=
          fun payload tag s' heq => absurd heq (hother payload tag)
        rw [and_iff_right hleaves, ih u hut (new_step hu hnew hother) hrest]
        refine ⟨fun h payload tag hmem => ?_,
          fun h payload tag hmem => h payload tag (List.mem_cons_of_mem _ hmem)⟩
        rcases List.mem_cons.mp hmem with heq | hmem'
        · exact absurd heq.symm (hother payload tag)
        · exact h payload tag hmem'

/-- A byte that is no message is refused, and the handshake after it is accepted. -/
theorem refused_first_byte :
    Guarded (step wireCodec) (LeavesState wireCodec [65]) (start 1) [.recv [65] [0xFF] 0] ∧
      AcceptsHandshake wireCodec [65] ((start 1).sendBadResponse wireCodec [65] 0) := by
  refine (refused_first_iff wireCodec [65] [.recv [65] [0xFF] 0] (start 1) _ rfl rfl ?_).mpr ?_
  · rintro payload tag hmem
    obtain ⟨-, rfl, -⟩ : [65] = [65] ∧ payload = [0xFF] ∧ tag = 0 := by simpa using hmem
    exact Or.inl (by decide)
  · rintro payload tag hmem
    obtain ⟨-, rfl, -⟩ : [65] = [65] ∧ payload = [0xFF] ∧ tag = 0 := by simpa using hmem
    decide

/-- A mask with two bits that are no flags is refused, and so is a request. After
either of them the server does not accept the client's handshake any more: it keeps the
mask it has stored, and answers the handshake. -/
theorem refused_first_registers :
    RefusedFirst wireCodec (sentHandshake 0xFF) ∧
    RefusedFirst wireCodec (sentSubmit (addBlocking 2 3)) ∧
    ((run (step wireCodec) (start 1) [.recv [65] (sentHandshake 0xFF) 0]).any fun s =>
      s.mClientExecCaps [65] = some 0xFF ∧
        (step wireCodec s (.recv [65] (sentHandshake 1) 1)).any fun s' =>
          s'.mClientExecCaps [65] = some 0xFF ∧ s'.sent.map Sent.tag = [0, 1]) = true ∧
    ((run (step wireCodec) (start 1) [.recv [65] (sentSubmit (addBlocking 2 3)) 0]).any fun s =>
      s.mClientExecCaps [65] = some 0 ∧
        (step wireCodec s (.recv [65] (sentHandshake 1) 1)).any fun s' =>
          s'.mClientExecCaps [65] = some 0 ∧ s'.sent.map Sent.tag = [0, 1]) = true := by
  refine ⟨Or.inr ⟨_, rfl, by decide⟩, Or.inr ⟨_, rfl, by decide⟩, by decide, by decide⟩

end Server

end InterProcess
