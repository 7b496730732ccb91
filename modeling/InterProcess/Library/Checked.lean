import Mathlib.Algebra.Order.Ring.Int

/-!
# Checked arithmetic on 64 bits

Signed arithmetic that is undefined on overflow, as an `Option` whose `none` is the
overflow. An operation whose exact result fits gives that result.
-/

namespace Checked

/-- The integer is the value of some `int64`. -/
def Fits (z : ℤ) : Prop := -2 ^ 63 ≤ z ∧ z < 2 ^ 63

instance (z : ℤ) : Decidable (Fits z) := inferInstanceAs (Decidable (_ ∧ _))

/-- The `int64` with this value. -/
def int64 (z : ℤ) : Option Int64 := if Fits z then some (.ofInt z) else none

def add (a b : Int64) : Option Int64 := int64 (a.toInt + b.toInt)

def mul (a b : Int64) : Option Int64 := int64 (a.toInt * b.toInt)

theorem int64_of_fits {z : ℤ} (h : Fits z) : ∃ n, int64 z = some n ∧ n.toInt = z :=
  ⟨.ofInt z, if_pos h, Int64.toInt_ofInt_of_le h.1 h.2⟩

theorem add_of_fits {a b : Int64} (h : Fits (a.toInt + b.toInt)) :
    ∃ n, add a b = some n ∧ n.toInt = a.toInt + b.toInt :=
  int64_of_fits h

theorem mul_of_fits {a b : Int64} (h : Fits (a.toInt * b.toInt)) :
    ∃ n, mul a b = some n ∧ n.toInt = a.toInt * b.toInt :=
  int64_of_fits h

theorem toInt_div_of_nonneg {a b : Int64} (ha : 0 ≤ a.toInt) :
    (a / b).toInt = a.toInt / b.toInt := by
  have hne : a ≠ Int64.minValue := by
    rintro rfl
    simp at ha
  rw [Int64.toInt_div_of_ne_left a b hne, Int.tdiv_eq_ediv_of_nonneg ha]

theorem toInt_mod_of_nonneg {a b : Int64} (ha : 0 ≤ a.toInt) :
    (a % b).toInt = a.toInt % b.toInt := by
  rw [Int64.toInt_mod, Int.tmod_eq_emod_of_nonneg ha]

end Checked
