import InterProcess.Library.Narrow
import InterProcess.Runner.Operations

/-!
# Exact results

`MathOp.exact` is the operation over the integers. `runMath` answers a zero
divisor with an error, but it does not look at the size of a sum, a difference or
a product: one that is no `int32` is answered with `ST_SUCCESS` and the number
that is left of it. These are the only requests that are not answered exactly.
-/

namespace InterProcess

open Narrow

/-- The operation over the integers, where it is defined. -/
def MathOp.exact (op : MathOp) (a b : ℤ) : Option ℤ :=
  match op with
  | .mathAdd => some (a + b)
  | .mathSub => some (a - b)
  | .mathMul => some (a * b)
  | .mathDiv => if b = 0 then none else some (a.tdiv b)
  | .unrecognized _ _ => none

namespace MathArgs

/-- The integer that the request asks for exists and is an `int32`. -/
def HasResult (args : MathArgs) (z : ℤ) : Prop :=
  args.op.exact args.a.toInt args.b.toInt = some z ∧ Fits z

/-- The answer is the exact result, or an error if there is none. -/
def AnsweredExactly (args : MathArgs) : Prop :=
  ∃ status result, runMath args {} = some (status, result) ∧
    (status = .stSuccess ↔ ∃ z, args.HasResult z) ∧
    (∀ z, args.HasResult z → ∃ value : Int32, result = { value := some (.intResult value) } ∧
      value.toInt = z) ∧
    (status ≠ .stSuccess → result = {})

theorem answeredExactly_of_success {args : MathArgs} {value : Int32} {z : ℤ}
    (hrun : runMath args {} = some (.stSuccess, { value := some (.intResult value) }))
    (hexact : args.op.exact args.a.toInt args.b.toInt = some z)
    (hvalue : value.toInt = z ↔ Fits z) : args.AnsweredExactly ↔ Fits z := by
  constructor
  · rintro ⟨status, result, hanswer, hstatus, -, -⟩
    rw [hrun, Option.some.injEq, Prod.mk.injEq] at hanswer
    obtain ⟨y, hy, hfits⟩ := hstatus.mp hanswer.1.symm
    rw [hexact, Option.some.injEq] at hy
    exact hy ▸ hfits
  · intro hfits
    refine ⟨_, _, hrun, ⟨fun _ => ⟨z, hexact, hfits⟩, fun _ => rfl⟩, ?_, fun h => absurd rfl h⟩
    rintro y ⟨hy, -⟩
    rw [hexact, Option.some.injEq] at hy
    exact ⟨value, rfl, hy ▸ hvalue.mpr hfits⟩

theorem answeredExactly_of_error {args : MathArgs} {status : Status}
    (hrun : runMath args {} = some (status, {})) (hstatus : status ≠ .stSuccess)
    (hexact : args.op.exact args.a.toInt args.b.toInt = none) : args.AnsweredExactly := by
  have hnone : ∀ z, ¬ args.HasResult z := fun z hz => by simp [HasResult, hexact] at hz
  refine ⟨status, {}, hrun, ⟨fun h => absurd h hstatus, ?_⟩, fun z hz => absurd hz (hnone z),
    fun _ => rfl⟩
  rintro ⟨z, hz⟩
  exact absurd hz (hnone z)

theorem answeredExactly_div {args : MathArgs} (hop : args.op = .mathDiv)
    (htrap : ¬ (args.a = Int32.minValue ∧ args.b = -1)) : args.AnsweredExactly := by
  by_cases hb : args.b = 0
  · have hrun : runMath args {} = some (.stErrorDivByZero, {}) := by simp [runMath, hop, hb]
    exact answeredExactly_of_error hrun (by simp) (by simp [MathOp.exact, hop, hb])
  · have hdefined : ¬ DivUndefined args.a args.b := by
      rintro (h | h)
      · exact hb h
      · exact htrap h
    have hb' : args.b.toInt ≠ 0 := fun h => hb (Int32.toInt_inj.mp h)
    have hvalue : (args.a / args.b).toInt = args.a.toInt.tdiv args.b.toInt := toInt_div htrap
    have hfits : Fits (args.a.toInt.tdiv args.b.toInt) := hvalue ▸ fits_toInt _
    have hrun : runMath args {} =
        some (.stSuccess, { value := some (.intResult (args.a / args.b)) }) := by
      simp [runMath, hop, hb, intDiv, hdefined]
    have hexact : args.op.exact args.a.toInt args.b.toInt =
        some (args.a.toInt.tdiv args.b.toInt) := by
      simp [MathOp.exact, hop, hb']
    exact (answeredExactly_of_success hrun hexact (iff_of_true hvalue hfits)).mpr hfits

/-- A request for one of the four operations is answered exactly when the integer
that it asks for, if there is one, is an `int32`. -/
theorem answeredExactly_iff (args : MathArgs)
    (hop : ∀ number h, args.op ≠ .unrecognized number h)
    (htrap : ¬ (args.op = .mathDiv ∧ args.a = Int32.minValue ∧ args.b = -1)) :
    args.AnsweredExactly ↔
      ∀ z, args.op.exact args.a.toInt args.b.toInt = some z → Fits z := by
  cases h : args.op with
  | mathAdd =>
      rw [answeredExactly_of_success (by rw [runMath, h]) (by rw [h]; rfl) toInt_add_iff]
      simp [MathOp.exact]
  | mathSub =>
      rw [answeredExactly_of_success (by rw [runMath, h]) (by rw [h]; rfl) toInt_sub_iff]
      simp [MathOp.exact]
  | mathMul =>
      rw [answeredExactly_of_success (by rw [runMath, h]) (by rw [h]; rfl) toInt_mul_iff]
      simp [MathOp.exact]
  | mathDiv =>
      have hquot : ¬ (args.a = Int32.minValue ∧ args.b = -1) := fun hpair => htrap ⟨h, hpair⟩
      refine iff_of_true (answeredExactly_div h hquot) fun z hz => ?_
      have hb : args.b.toInt ≠ 0 := by
        intro hzero
        simp [MathOp.exact, hzero] at hz
      rw [MathOp.exact, if_neg hb, Option.some.injEq, ← toInt_div hquot] at hz
      exact hz ▸ fits_toInt _
  | unrecognized number hnumber => exact absurd h (hop number hnumber)

/-- Seven divided by minus two is minus three. -/
theorem answeredExactly_seven :
    AnsweredExactly { op := .mathDiv, a := 7, b := -2 } := by
  refine (answeredExactly_iff _ (by simp) (by decide)).mpr fun z hz => ?_
  obtain rfl : -3 = z := Option.some.inj hz
  decide

/-- The greatest `int32` plus one is answered with `ST_SUCCESS` and the least
`int32`. -/
theorem not_answeredExactly_overflow :
    runMath { op := .mathAdd, a := Int32.maxValue, b := 1 } {} =
      some (.stSuccess, { value := some (.intResult Int32.minValue) }) ∧
    ¬ AnsweredExactly { op := .mathAdd, a := Int32.maxValue, b := 1 } := by
  have hrun : runMath { op := .mathAdd, a := Int32.maxValue, b := 1 } {} =
      some (.stSuccess, { value := some (.intResult Int32.minValue) }) := by decide
  refine ⟨hrun, ?_⟩
  rintro ⟨status, result, hanswer, hstatus, -, -⟩
  rw [hrun, Option.some.injEq, Prod.mk.injEq] at hanswer
  obtain ⟨z, hz, hfits⟩ := hstatus.mp hanswer.1.symm
  obtain rfl : 2147483648 = z := Option.some.inj
    ((show MathOp.exact .mathAdd Int32.maxValue.toInt (1 : Int32).toInt = some 2147483648 by
      decide).symm.trans hz)
  exact absurd hfits (by decide)

end MathArgs

end InterProcess
