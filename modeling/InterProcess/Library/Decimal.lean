import InterProcess.Library.Scan
import Mathlib.Data.List.Induction

/-!
# Printed numbers

The decimal digits that `%llu` and `%d` of `printf` print. They are a numeral of the number
that was printed, so the scans read back what was printed.
-/

namespace Scan

/-- The decimal digits of a number. -/
def decimal (n : ℕ) : List UInt8 := (Nat.toDigits 10 n).map fun c => UInt8.ofNat c.toNat

theorem isDigit_ofNat {c : Char} (h : c.isDigit = true) :
    isDigit (UInt8.ofNat c.toNat) = true ∧ (UInt8.ofNat c.toNat).toNat = c.toNat := by
  have hrange : 48 ≤ c.toNat ∧ c.toNat ≤ 57 := by
    simpa [Char.isDigit, UInt32.le_iff_toNat_le] using h
  have hbyte : (UInt8.ofNat c.toNat).toNat = c.toNat := by
    rw [UInt8.toNat_ofNat']
    omega
  refine ⟨?_, hbyte⟩
  simp only [isDigit, Bool.and_eq_true, decide_eq_true_eq, UInt8.le_iff_toNat_le, hbyte]
  exact hrange

theorem magnitude_append_singleton (digits : List UInt8) (d : UInt8) :
    magnitude (digits ++ [d]) = 10 * magnitude digits + (d.toNat - 48) := by
  simp [magnitude]

theorem magnitude_map {cs : List Char} (h : ∀ c ∈ cs, c.isDigit = true) :
    magnitude (cs.map fun c => UInt8.ofNat c.toNat) = Nat.ofDigitChars 10 cs 0 := by
  induction cs using List.reverseRecOn with
  | nil => rfl
  | append_singleton cs c ih =>
      have hlast := (isDigit_ofNat (h c (by simp))).2
      rw [List.map_append, List.map_singleton, magnitude_append_singleton,
        ih fun d hd => h d (List.mem_append_left _ hd), hlast, Nat.ofDigitChars_append,
        Nat.ofDigitChars_cons, Nat.ofDigitChars_nil]
      rfl

theorem isDigit_decimal (n : ℕ) : ∀ b ∈ decimal n, isDigit b = true := by
  intro b hb
  obtain ⟨c, hc, rfl⟩ := List.mem_map.mp hb
  exact (isDigit_ofNat (Nat.isDigit_of_mem_toDigits (by decide) (by decide) hc)).1

@[simp] theorem magnitude_decimal (n : ℕ) : magnitude (decimal n) = n := by
  rw [decimal, magnitude_map fun c => Nat.isDigit_of_mem_toDigits (by decide) (by decide),
    Nat.ofDigitChars_ten_toDigits]

theorem decimal_injective : Function.Injective decimal :=
  Function.LeftInverse.injective magnitude_decimal

theorem length_decimal_le {n k : ℕ} (hk : 0 < k) (h : n < 10 ^ k) : (decimal n).length ≤ k := by
  rw [decimal, List.length_map]
  exact (Nat.length_toDigits_le_iff (by decide) hk).mpr h

/-- `%d`. -/
def signedDecimal (z : ℤ) : List UInt8 := if z < 0 then 45 :: decimal z.natAbs else decimal z.natAbs

end Scan
