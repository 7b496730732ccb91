import Mathlib.Data.List.Basic
import Mathlib.Data.List.Count
import Mathlib.Data.Nat.Bitwise

/-!
# Ticket numbers

`enqueue` packs a reading of the steady clock, shifted left by sixteen bits,
with the low sixteen bits of a running counter. The shift drops the top sixteen
bits of the reading, so two enqueues get the same number exactly when their
readings agree modulo `2 ^ 48` and their counters agree modulo `2 ^ 16`.

`SteadyClock` is the condition on the readings of a run under which no two of
its enqueues get the same number.
-/

namespace InterProcess

/-- The id that `AlgoRunnerIpml::enqueue` computes from the clock reading `ts`
and the value `seq` that `fetch_add` returned. -/
def ticketId (ts seq : UInt64) : UInt64 := (ts <<< 16) ||| (seq &&& 0xFFFF)

theorem ticketId_toNat (ts seq : UInt64) :
    (ticketId ts seq).toNat = ts.toNat % 2 ^ 48 * 2 ^ 16 + seq.toNat % 2 ^ 16 := by
  have hlow : (seq &&& 0xFFFF).toNat = seq.toNat % 2 ^ 16 := by
    rw [UInt64.toNat_and]
    exact Nat.and_two_pow_sub_one_eq_mod seq.toNat 16
  have hhigh : (ts <<< 16).toNat = ts.toNat % 2 ^ 48 * 2 ^ 16 := by
    rw [UInt64.toNat_shiftLeft, Nat.shiftLeft_eq]
    change ts.toNat * 2 ^ 16 % 2 ^ 64 = _
    omega
  rw [ticketId, UInt64.toNat_or, hlow, hhigh, Nat.mul_comm,
    Nat.two_pow_add_eq_or_of_lt (Nat.mod_lt _ (by decide))]

/-- Two enqueues get the same number exactly when the kept bits of their
readings and of their counters agree. -/
theorem ticketId_eq_iff (ts seq ts' seq' : UInt64) :
    ticketId ts seq = ticketId ts' seq' ↔
      ts.toNat % 2 ^ 48 = ts'.toNat % 2 ^ 48 ∧
        seq.toNat % 2 ^ 16 = seq'.toNat % 2 ^ 16 := by
  rw [← UInt64.toNat_inj, ticketId_toNat, ticketId_toNat]
  omega

/-- The number of the `i`-th enqueue of a run, when its reading is `ts`: the
counter starts at zero and every enqueue takes the next value. -/
def ticketAt (ts : UInt64) (i : ℕ) : UInt64 := ticketId ts (UInt64.ofNat i)

theorem ticketAt_eq_iff (ts ts' : UInt64) (i j : ℕ) :
    ticketAt ts i = ticketAt ts' j ↔
      ts.toNat % 2 ^ 48 = ts'.toNat % 2 ^ 48 ∧ i % 2 ^ 16 = j % 2 ^ 16 := by
  rw [ticketAt, ticketAt, ticketId_eq_iff, UInt64.toNat_ofNat', UInt64.toNat_ofNat']
  omega

/-- Steady-clock readings, in the order of the enqueues that took them, that do
not decrease, span less than `2 ^ 48` nanoseconds and are each shared by at most
`65536` enqueues. -/
structure SteadyClock (readings : List UInt64) : Prop where
  mono : readings.Pairwise (· ≤ ·)
  span : ∀ a ∈ readings, ∀ b ∈ readings, b.toNat < a.toNat + 2 ^ 48
  shared : ∀ a, readings.count a ≤ 65536

namespace SteadyClock

variable {readings : List UInt64}

theorem sub_lt_of_eq (h : SteadyClock readings) {i j : ℕ} {a : UInt64} (hij : i < j)
    (hi : readings[i]? = some a) (hj : readings[j]? = some a) : j - i < 65536 := by
  obtain ⟨hjlt, hja⟩ := List.getElem?_eq_some_iff.mp hj
  obtain ⟨hilt, hia⟩ := List.getElem?_eq_some_iff.mp hi
  have hmono := List.pairwise_iff_getElem.mp h.mono
  have hconst : (readings.drop i).take (j - i + 1) = List.replicate (j - i + 1) a := by
    apply List.ext_getElem
    · simp
      omega
    · intro k hk _
      have hklt : i + k < readings.length := by simp at hk; omega
      have hkj : i + k ≤ j := by simp at hk; omega
      have hlow : a ≤ readings[i + k] := by
        rcases Nat.eq_zero_or_pos k with rfl | hpos
        · exact hia ▸ UInt64.le_refl _
        · exact hia ▸ hmono i (i + k) hilt hklt (by omega)
      have hhigh : readings[i + k] ≤ a := by
        rcases Nat.eq_or_lt_of_le hkj with heq | hlt
        · simp only [heq, hja, UInt64.le_refl]
        · exact hja ▸ hmono (i + k) j hklt hjlt hlt
      simp only [List.getElem_take, List.getElem_drop, List.getElem_replicate]
      exact UInt64.le_antisymm hhigh hlow
  have hcount : j - i + 1 ≤ readings.count a := by
    have hsub : ((readings.drop i).take (j - i + 1)).Sublist readings :=
      (List.take_sublist _ _).trans (List.drop_sublist _ _)
    have hle := hsub.count_le a
    rwa [hconst, List.count_replicate_self] at hle
  have := h.shared a
  omega

/-- Under a steady clock no two enqueues of a run get the same number. -/
theorem ticketAt_ne (h : SteadyClock readings) {i j : ℕ} {a b : UInt64} (hij : i < j)
    (hi : readings[i]? = some a) (hj : readings[j]? = some b) :
    ticketAt a i ≠ ticketAt b j := by
  rw [Ne, ticketAt_eq_iff]
  rintro ⟨hts, hseq⟩
  obtain ⟨hjlt, hjb⟩ := List.getElem?_eq_some_iff.mp hj
  obtain ⟨hilt, hia⟩ := List.getElem?_eq_some_iff.mp hi
  have hle : a.toNat ≤ b.toNat := by
    have := List.pairwise_iff_getElem.mp h.mono i j hilt hjlt hij
    rw [hia, hjb] at this
    exact UInt64.le_iff_toNat_le.mp this
  have hspan := h.span a (hia ▸ List.getElem_mem hilt) b (hjb ▸ List.getElem_mem hjlt)
  have heq : a = b := UInt64.toNat_inj.mp (by omega)
  subst heq
  have := h.sub_lt_of_eq hij hi hj
  omega

end SteadyClock

end InterProcess
