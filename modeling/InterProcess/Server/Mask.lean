import InterProcess.Library.Narrow
import InterProcess.Server.Handshake

/-!
# Declared masks

The mask of a handshake has 32 bits, the check of it and the table of the clients have
8. The server casts before it checks, so it judges the low byte: a mask with higher bits
passes with what is left of it.
-/

namespace InterProcess

open Transition

theorem verifyExecCaps_iff {execFunFlags : UInt8} :
    verifyExecCaps execFunFlags = true ↔ 0 < execFunFlags.toNat ∧ execFunFlags.toNat < 2 ^ 6 := by
  have hmask : (~~~ExecFunFlags.all).toNat = 2 ^ 8 - 2 ^ 6 := by decide
  have hhigh := Narrow.and_high_eq_zero (m := execFunFlags.toNat) (k := 6) (w := 8) (by omega)
    execFunFlags.toNat_lt
  rw [← hhigh, ← hmask, ← UInt8.toNat_and]
  simp [verifyExecCaps, ← UInt8.toNat_inj, UInt8.lt_iff_toNat_lt, and_comm]

/-- The mask is not zero and has no bit outside of `ExecFunFlags`. -/
def ValidMask (execFunctions : UInt32) : Prop :=
  execFunctions ≠ 0 ∧ execFunctions &&& ~~~ExecFunFlags.all.toUInt32 = 0

instance (execFunctions : UInt32) : Decidable (ValidMask execFunctions) :=
  inferInstanceAs (Decidable (_ ∧ _))

theorem validMask_iff {execFunctions : UInt32} :
    ValidMask execFunctions ↔ 0 < execFunctions.toNat ∧ execFunctions.toNat < 2 ^ 6 := by
  have hmask : (~~~ExecFunFlags.all.toUInt32).toNat = 2 ^ 32 - 2 ^ 6 := by decide
  have hhigh := Narrow.and_high_eq_zero (m := execFunctions.toNat) (k := 6) (w := 32) (by omega)
    execFunctions.toNat_lt
  rw [← hhigh, ← hmask, ← UInt32.toNat_and]
  simp [ValidMask, ← UInt32.toNat_inj, Nat.pos_iff_ne_zero]

namespace Server

/-- The handshake with this mask is accepted exactly if the mask is valid, and then the
mask is stored as it was declared. -/
structure JudgedAsDeclared (s s' : Server) (client : Bytes) (execFunctions : UInt32) : Prop where
  accepted : s'.sent = s.sent ↔ ValidMask execFunctions
  stored : s'.sent = s.sent →
    ∃ caps, s'.mClientExecCaps client = some caps ∧ caps.toUInt32 = execFunctions

/-- What the server does with a handshake. -/
theorem handshake_step {codec : Codec} {s s' : Server} {client payload : Bytes} {tag : ℕ}
    {handshake : FirstHandshake} (hnew : s.mClientExecCaps client = none)
    (hparse : codec.parseHandshake payload = some handshake)
    (hs : step codec s (.recv client payload tag) = some s') :
    s'.mClientExecCaps client = some handshake.execFunctions.toUInt8 ∧
      (s'.sent = s.sent ↔ verifyExecCaps handshake.execFunctions.toUInt8 = true) := by
  refine ⟨step_of_refused hs hnew hparse, ?_⟩
  cases (step_cases hs).2 with
  | badHandshake _ _ _ _ _ hbad => simp [hparse] at hbad
  | accept _ _ _ _ _ handshake' hparse' hverify =>
      obtain rfl := Option.some.inj (hparse.symm.trans hparse')
      exact iff_of_true (by simp) hverify
  | refuse _ _ _ _ _ handshake' hparse' hrefuse =>
      obtain rfl := Option.some.inj (hparse.symm.trans hparse')
      exact iff_of_false (by simp) (by simp [hrefuse])
  | badRequest _ _ _ _ caps hcaps | answer _ _ _ _ caps hcaps | run _ _ _ _ caps hcaps
  | get _ _ _ _ caps hcaps => simp [hnew] at hcaps

/-- A handshake is judged by the mask that it declares exactly if the mask is a byte, or
its low byte is refused. -/
theorem handshake_judged_iff (codec : Codec) (s s' : Server) (client payload : Bytes) (tag : ℕ)
    (handshake : FirstHandshake) (hnew : s.mClientExecCaps client = none)
    (hparse : codec.parseHandshake payload = some handshake)
    (hs : step codec s (.recv client payload tag) = some s') :
    s.JudgedAsDeclared s' client handshake.execFunctions ↔
      handshake.execFunctions < 256 ∨
        verifyExecCaps handshake.execFunctions.toUInt8 = false := by
  obtain ⟨hstored, haccepted⟩ := handshake_step hnew hparse hs
  have hlow : handshake.execFunctions.toUInt8.toNat = handshake.execFunctions.toNat % 256 :=
    UInt32.toNat_toUInt8 _
  have hsame : handshake.execFunctions.toUInt8.toUInt32 = handshake.execFunctions ↔
      handshake.execFunctions < 256 := by
    rw [← UInt32.toNat_inj, UInt8.toNat_toUInt32, hlow, UInt32.lt_iff_toNat_lt]
    exact Nat.mod_eq_iff_lt (by decide)
  constructor
  · intro h
    cases hverify : verifyExecCaps handshake.execFunctions.toUInt8 with
    | false => exact Or.inr rfl
    | true =>
        obtain ⟨caps, hcaps, hmask⟩ := h.stored (haccepted.mpr hverify)
        obtain rfl := Option.some.inj (hstored.symm.trans hcaps)
        exact Or.inl (hsame.mp hmask)
  · intro h
    have hvalid : verifyExecCaps handshake.execFunctions.toUInt8 = true ↔
        ValidMask handshake.execFunctions := by
      rw [verifyExecCaps_iff, validMask_iff, hlow]
      rcases h with hbyte | hrefuse
      · have hlt : handshake.execFunctions.toNat < 256 := UInt32.lt_iff_toNat_lt.mp hbyte
        rw [Nat.mod_eq_of_lt hlt]
      · have hnot : ¬ (0 < handshake.execFunctions.toNat % 256 ∧
            handshake.execFunctions.toNat % 256 < 2 ^ 6) := by
          rw [← hlow, ← verifyExecCaps_iff, hrefuse]
          simp
        omega
    refine ⟨haccepted.trans hvalid, fun hsent => ⟨_, hstored, ?_⟩⟩
    have hbyte := (validMask_iff.mp (hvalid.mp (haccepted.mp hsent))).2
    rw [hsame, UInt32.lt_iff_toNat_lt]
    exact Nat.lt_trans hbyte (by decide)

/-- A mask with the six flags is judged as it was declared. -/
theorem handshake_judged_all :
    JudgedAsDeclared (start 1) ((start 1).register [65] 63) [65] 63 :=
  (handshake_judged_iff wireCodec (start 1) _ [65] (sentHandshake 63) 0
    { clientName := [65], execFunctions := 63 } rfl (by decide) rfl).mpr (by decide)

/-- A mask with a bit beyond the first byte is accepted, and stored without that bit. -/
theorem handshake_judged_low_byte :
    ∃ s, step wireCodec (start 1) (.recv [65] (sentHandshake 257) 0) = some s ∧
      s.sent = [] ∧ s.mClientExecCaps [65] = some 1 ∧ ¬ ValidMask 257 ∧
      ¬ JudgedAsDeclared (start 1) s [65] 257 := by
  refine ⟨(start 1).register [65] 1, rfl, rfl, rfl, by decide, fun h => ?_⟩
  exact absurd (h.accepted.mp rfl) (by decide)

end Server

end InterProcess
