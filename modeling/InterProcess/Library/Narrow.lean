import Mathlib.Algebra.Order.Ring.Int
import Mathlib.Tactic.NormNum

/-!
# Integers in 32 bits

An `int32` holds the integers of `Narrow.Fits`. An operation that is computed
modulo `2 ^ 32` gives the integer that was meant exactly when that integer fits.
A mask without a bit above the first `k` is a number of `k` bits.
-/

namespace Narrow

/-- The integer is the value of some `int32`. -/
def Fits (z : ℤ) : Prop := -2 ^ 31 ≤ z ∧ z < 2 ^ 31

instance (z : ℤ) : Decidable (Fits z) := inferInstanceAs (Decidable (_ ∧ _))

theorem fits_toInt (a : Int32) : Fits a.toInt := ⟨a.le_toInt, a.toInt_lt⟩

theorem bmod_eq_iff (z : ℤ) : z.bmod (2 ^ 32) = z ↔ Fits z := by
  constructor
  · intro h
    have hle := Int.le_bmod (x := z) (m := 2 ^ 32) (by decide)
    have hlt := Int.bmod_lt (x := z) (m := 2 ^ 32) (by decide)
    rw [h] at hle hlt
    exact ⟨by omega, by omega⟩
  · rintro ⟨hle, hlt⟩
    exact Int.bmod_eq_of_le (by omega) (by omega)

theorem toInt_ofInt_iff {z : ℤ} : (Int32.ofInt z).toInt = z ↔ Fits z := by
  rw [Int32.toInt_ofInt]
  exact bmod_eq_iff z

theorem toInt_add_iff {a b : Int32} :
    (a + b).toInt = a.toInt + b.toInt ↔ Fits (a.toInt + b.toInt) := by
  rw [Int32.toInt_add]
  exact bmod_eq_iff _

theorem toInt_sub_iff {a b : Int32} :
    (a - b).toInt = a.toInt - b.toInt ↔ Fits (a.toInt - b.toInt) := by
  rw [Int32.toInt_sub]
  exact bmod_eq_iff _

theorem toInt_mul_iff {a b : Int32} :
    (a * b).toInt = a.toInt * b.toInt ↔ Fits (a.toInt * b.toInt) := by
  rw [Int32.toInt_mul]
  exact bmod_eq_iff _

/-- The quotient truncates toward zero, and only one of them does not fit. -/
theorem toInt_div {a b : Int32} (h : ¬ (a = Int32.minValue ∧ b = -1)) :
    (a / b).toInt = a.toInt.tdiv b.toInt := by
  by_cases ha : a = Int32.minValue
  · exact Int32.toInt_div_of_ne_right a b fun hb => h ⟨ha, hb⟩
  · exact Int32.toInt_div_of_ne_left a b ha

theorem and_high_eq_zero {m k w : ℕ} (hk : k ≤ w) (hm : m < 2 ^ w) :
    m &&& (2 ^ w - 2 ^ k) = 0 ↔ m < 2 ^ k := by
  have hbit : ∀ i, (2 ^ w - 2 ^ k).testBit i = (decide (i < w) && !decide (i < k)) := by
    intro i
    have hpos : 0 < 2 ^ k := Nat.two_pow_pos k
    have hlt : 2 ^ k - 1 < 2 ^ w := Nat.lt_of_lt_of_le (by omega) (Nat.pow_le_pow_right (by omega) hk)
    have hsucc : 2 ^ w - 2 ^ k = 2 ^ w - ((2 ^ k - 1) + 1) := by omega
    rw [hsucc, Nat.testBit_two_pow_sub_succ hlt, Nat.testBit_two_pow_sub_one]
  constructor
  · intro hzero
    by_contra hge
    obtain ⟨i, hi, hset⟩ := Nat.exists_ge_and_testBit_of_ge_two_pow (Nat.not_lt.mp hge)
    have hiw : i < w := by
      by_contra hout
      rw [Nat.testBit_lt_two_pow (Nat.lt_of_lt_of_le hm (Nat.pow_le_pow_right (by omega)
        (Nat.not_lt.mp hout)))] at hset
      cases hset
    have hand : (m &&& (2 ^ w - 2 ^ k)).testBit i = true := by
      rw [Nat.testBit_and, hset, hbit]
      simp [hiw, hi]
    rw [hzero, Nat.zero_testBit] at hand
    cases hand
  · intro hlt
    apply Nat.eq_of_testBit_eq
    intro i
    rw [Nat.testBit_and, hbit, Nat.zero_testBit]
    by_cases hi : i < k
    · simp [hi]
    · rw [Nat.testBit_lt_two_pow (Nat.lt_of_lt_of_le hlt (Nat.pow_le_pow_right (by omega)
        (Nat.not_lt.mp hi)))]
      rfl

end Narrow
