import InterProcess.Library.Checked

/-!
# The deadline of a bounded wait

`addMsToTimespec` moves a point of time by the timeout of a request. It adds in
nanoseconds, and splits the sum into seconds and the rest. The arithmetic is that of
`std::chrono`, on signed counts of 64 bits, with `none` for an overflow.
-/

namespace InterProcess

open Checked

/-- `timespec` of a 64-bit system. -/
structure Timespec where
  tvSec : Int64
  tvNsec : Int64
  deriving DecidableEq, Repr

def nanosPerSecond : Int64 := 1000000000

def nanosPerMilli : Int64 := 1000000

def addMsToTimespec (ts : Timespec) (ms : UInt32) : Option Timespec := do
  let sec ← mul ts.tvSec nanosPerSecond
  let current ← add sec ts.tvNsec
  let added ← mul (.ofNat ms.toNat) nanosPerMilli
  let total ← add current added
  some { tvSec := total / nanosPerSecond, tvNsec := total % nanosPerSecond }

namespace Timespec

/-- What `pthread_cond_timedwait` takes for a point of time. -/
structure Valid (ts : Timespec) : Prop where
  sec : 0 ≤ ts.tvSec.toInt
  nonneg : 0 ≤ ts.tvNsec.toInt
  lt : ts.tvNsec.toInt < 10 ^ 9

def nanos (ts : Timespec) : ℤ := ts.tvSec.toInt * 10 ^ 9 + ts.tvNsec.toInt

/-- The point of time comes before the other one, or is the same. -/
def NotAfter (ts ts' : Timespec) : Prop :=
  ts.tvSec < ts'.tvSec ∨ ts.tvSec = ts'.tvSec ∧ ts.tvNsec ≤ ts'.tvNsec

variable {ts ts' : Timespec}

theorem notAfter_of_nanos (h : ts.Valid) (h' : ts'.Valid) (hle : ts.nanos ≤ ts'.nanos) :
    ts.NotAfter ts' := by
  unfold NotAfter nanos at *
  rw [Int64.lt_iff_toInt_lt, Int64.le_iff_toInt_le, ← Int64.toInt_inj]
  have := h.nonneg
  have := h.lt
  have := h'.nonneg
  have := h'.lt
  omega

/-- The sum is exact, and what is left of it after the seconds is less than a second. -/
theorem addMs_of_fits (h : ts.Valid) {ms : UInt32}
    (hfits : ts.nanos + ms.toNat * 10 ^ 6 < 2 ^ 63) :
    ∃ ts', addMsToTimespec ts ms = some ts' ∧ ts'.Valid ∧
      ts'.nanos = ts.nanos + ms.toNat * 10 ^ 6 := by
  unfold nanos at hfits
  have hsecond : nanosPerSecond.toInt = 10 ^ 9 := by decide
  have hmilli : nanosPerMilli.toInt = 10 ^ 6 := by decide
  have hms : (Int64.ofNat ms.toNat).toInt = ms.toNat :=
    Int64.toInt_ofNat_of_lt (Nat.lt_trans ms.toNat_lt (by decide))
  have hsec := h.sec
  have hnonneg := h.nonneg
  have hlt := h.lt
  obtain ⟨sec, hsec', hsecval⟩ := mul_of_fits (a := ts.tvSec) (b := nanosPerSecond)
    (by rw [hsecond]; unfold Fits; omega)
  rw [hsecond] at hsecval
  obtain ⟨current, hcurrent, hcurrentval⟩ := add_of_fits (a := sec) (b := ts.tvNsec)
    (by rw [hsecval]; unfold Fits; omega)
  obtain ⟨added, hadded, haddedval⟩ := mul_of_fits (a := .ofNat ms.toNat) (b := nanosPerMilli)
    (by rw [hms, hmilli]; unfold Fits; omega)
  rw [hms, hmilli] at haddedval
  obtain ⟨total, htotal, htotalval⟩ := add_of_fits (a := current) (b := added)
    (by rw [hcurrentval, hsecval, haddedval]; unfold Fits; omega)
  have hpos : 0 ≤ total.toInt := by omega
  have hquot : (total / nanosPerSecond).toInt = total.toInt / 10 ^ 9 := by
    rw [toInt_div_of_nonneg hpos, hsecond]
  have hrest : (total % nanosPerSecond).toInt = total.toInt % 10 ^ 9 := by
    rw [toInt_mod_of_nonneg hpos, hsecond]
  refine ⟨⟨total / nanosPerSecond, total % nanosPerSecond⟩, ?_, ⟨?_, ?_, ?_⟩, ?_⟩
  · simp [addMsToTimespec, hsec', hcurrent, hadded, htotal]
  · rw [hquot]
    omega
  · rw [hrest]
    omega
  · rw [hrest]
    omega
  · simp only [nanos, hquot, hrest]
    omega

/-- A deadline whose nanoseconds fit is computed without overflow, is valid and exact, and
a shorter timeout gives no later one. -/
theorem addMs_exact (ts : Timespec) (ms : UInt32) (hsec : 0 ≤ ts.tvSec.toInt)
    (hnonneg : 0 ≤ ts.tvNsec.toInt) (hlt : ts.tvNsec.toInt < 10 ^ 9)
    (hfits : ts.tvSec.toInt * 10 ^ 9 + ts.tvNsec.toInt + ms.toNat * 10 ^ 6 < 2 ^ 63) :
    ∃ ts', addMsToTimespec ts ms = some ts' ∧ ts'.Valid ∧
      ts'.tvSec.toInt * 10 ^ 9 + ts'.tvNsec.toInt =
        ts.tvSec.toInt * 10 ^ 9 + ts.tvNsec.toInt + ms.toNat * 10 ^ 6 ∧
      ∀ ms' ≤ ms, ∃ ts'', addMsToTimespec ts ms' = some ts'' ∧ ts''.Valid ∧ ts''.NotAfter ts' := by
  have h : ts.Valid := ⟨hsec, hnonneg, hlt⟩
  obtain ⟨ts', hts', hvalid, hnanos⟩ := addMs_of_fits h hfits
  refine ⟨ts', hts', hvalid, hnanos, fun ms' hms => ?_⟩
  have hle : (ms'.toNat : ℤ) * 10 ^ 6 ≤ ms.toNat * 10 ^ 6 := by
    have := UInt32.le_iff_toNat_le.mp hms
    omega
  have hfits' : ts.nanos + ms'.toNat * 10 ^ 6 < 2 ^ 63 := by
    unfold nanos
    omega
  obtain ⟨ts'', hts'', hvalid', hnanos'⟩ := addMs_of_fits h hfits'
  refine ⟨ts'', hts'', hvalid', notAfter_of_nanos hvalid' hvalid ?_⟩
  omega

/-- A carry: 0.9 seconds and 250 milliseconds are 1.15 seconds. -/
theorem addMs_exact_carry :
    addMsToTimespec ⟨0, 900000000⟩ 250 = some ⟨1, 150000000⟩ ∧ Valid ⟨1, 150000000⟩ := by
  have hadd : addMsToTimespec ⟨0, 900000000⟩ 250 = some ⟨1, 150000000⟩ := by decide
  obtain ⟨ts', hts', hvalid, -⟩ :=
    addMs_exact ⟨0, 900000000⟩ 250 (by decide) (by decide) (by decide) (by decide)
  exact ⟨hadd, Option.some.inj (hadd.symm.trans hts') ▸ hvalid⟩

end Timespec

end InterProcess
