import InterProcess.Message.Basic

/-!
# The operations of the algorithm runner

`runMath` and `runStr` as `AlgoRunnerIpml` computes them. Both take the result
message they write to and return it with the status. An `int32` division that
C++ leaves undefined raises a signal that kills the process, so the quotient and
everything computed from it is an `Option` whose `none` is that trap.

`evaluate` is the dispatch of `workerLoop` on a queued request and
`runBlocking` the inline evaluation of `run` in mode `BLOCKING`. They are two
separate paths of the source; `runBlocking_eq` says that they agree.
-/

namespace InterProcess

/-- The operands for which an `int32` division is undefined. -/
def DivUndefined (a b : Int32) : Prop := b = 0 ∨ (a = Int32.minValue ∧ b = -1)

instance (a b : Int32) : Decidable (DivUndefined a b) :=
  inferInstanceAs (Decidable (_ ∨ _))

/-- `a / b` on `int32`; `none` when the division is undefined. -/
def intDiv (a b : Int32) : Option Int32 :=
  if DivUndefined a b then none else some (a / b)

/-- `AlgoRunnerIpml::runMath`. Sums, differences and products wrap. -/
def runMath (request : MathArgs) (response : Result) : Option (Status × Result) :=
  match request.op with
  | .mathAdd =>
      some (.stSuccess, { response with value := some (.intResult (request.a + request.b)) })
  | .mathSub =>
      some (.stSuccess, { response with value := some (.intResult (request.a - request.b)) })
  | .mathMul =>
      some (.stSuccess, { response with value := some (.intResult (request.a * request.b)) })
  | .mathDiv =>
      if request.b = 0 then some (.stErrorDivByZero, response)
      else (intDiv request.a request.b).map fun q =>
        (.stSuccess, { response with value := some (.intResult q) })
  | .unrecognized _ _ => some (.stErrorInvalidInput, response)

/-- `std::string::find`: the first index at which `needle` occurs. -/
def stringFind (needle : Bytes) : Bytes → Option Nat
  | [] => if needle = [] then some 0 else none
  | c :: hay =>
      if needle.isPrefixOf (c :: hay) then some 0
      else (stringFind needle hay).map (· + 1)

def runStr (request : StrArgs) (response : Result) : Status × Result :=
  match request.op with
  | .strConcat =>
      if (request.s1 ++ request.s2).length > 32 then (.stErrorStringTooLong, response)
      else (.stSuccess, { response with value := some (.strResult (request.s1 ++ request.s2)) })
  | .strFindStart =>
      match stringFind request.s2 request.s1 with
      | none => (.stErrorSubstrNotFound, response)
      | some pos =>
          (.stSuccess, { response with value := some (.position (Int32.ofNat pos)) })
  | .unrecognized _ _ => (.stErrorInvalidInput, response)

/-- What a worker computes for a queued request: the dispatch of
`AlgoRunnerIpml::workerLoop` on the payload. -/
def evaluate (request : SubmitRequest) : Option (Status × Result) :=
  match request.payload with
  | some (.math args) => runMath args {}
  | some (.str args) => some (runStr args {})
  | none => some (.stErrorInvalidInput, {})

/-- `AlgoRunnerIpml::run` in mode `BLOCKING`, on the fresh response its caller
passes. The result message is created before the payload is looked at. -/
def runBlocking (request : SubmitRequest) : Option SubmitResponse :=
  let out : Result := {}
  match request.payload with
  | some (.math args) =>
      (runMath args out).map fun (status, out) => { status := status, result := some out }
  | some (.str args) =>
      let (status, out) := runStr args out
      some { status := status, result := some out }
  | none => some { status := .stErrorInvalidInput, result := some out }

/-- The inline path and the worker's path compute the same status and the same
result, and one traps exactly when the other does. -/
theorem runBlocking_eq (request : SubmitRequest) :
    runBlocking request =
      (evaluate request).map fun p => { status := p.1, result := some p.2 } := by
  unfold runBlocking evaluate
  rcases request.payload with _ | (args | args) <;> rfl

/-- A division traps only for one pair of operands, because a zero divisor is
answered before the division. -/
theorem runMath_eq_none_iff (request : MathArgs) (response : Result) :
    runMath request response = none ↔
      request.op = .mathDiv ∧ request.a = Int32.minValue ∧ request.b = -1 := by
  unfold runMath
  cases hop : request.op with
  | mathDiv =>
      by_cases hb : request.b = 0
      · have hne : ¬ (0 : Int32) = -1 := by decide
        simp [hb, hne]
      · simp [hb, intDiv, DivUndefined]
  | mathAdd | mathSub | mathMul | unrecognized => simp

def SubmitRequest.Traps (request : SubmitRequest) : Prop :=
  ∃ args, request.payload = some (.math args) ∧
    args.op = .mathDiv ∧ args.a = Int32.minValue ∧ args.b = -1

theorem evaluate_eq_none_iff (request : SubmitRequest) :
    evaluate request = none ↔ request.Traps := by
  unfold evaluate SubmitRequest.Traps
  rcases request.payload with _ | (args | args)
  · simp
  · simp [runMath_eq_none_iff]
  · simp

theorem runBlocking_eq_none_iff (request : SubmitRequest) :
    runBlocking request = none ↔ request.Traps := by
  rw [runBlocking_eq, Option.map_eq_none_iff, evaluate_eq_none_iff]

instance : DecidablePred SubmitRequest.Traps := fun request =>
  decidable_of_iff _ (evaluate_eq_none_iff request)

/-- A request that `run` evaluates or enqueues asks for a trapping division. -/
def SubmitRequest.Kills (request : SubmitRequest) : Prop :=
  (request.mode = .blocking ∨ request.mode = .nonblocking) ∧ request.Traps

instance : DecidablePred SubmitRequest.Kills := fun _ => inferInstanceAs (Decidable (_ ∧ _))

theorem runMath_status {request : MathArgs} {response result : Result} {status : Status}
    (h : runMath request response = some (status, result)) :
    status = .stSuccess ∨ status = .stErrorDivByZero ∨
      status = .stErrorInvalidInput := by
  unfold runMath at h
  cases hop : request.op with
  | mathDiv =>
      by_cases hb : request.b = 0
      · simp only [hop, hb, if_true, Option.some.injEq, Prod.mk.injEq] at h
        exact Or.inr (Or.inl h.1.symm)
      · simp only [hop, hb, if_false, Option.map_eq_some_iff, Prod.mk.injEq] at h
        obtain ⟨q, -, hstatus, -⟩ := h
        exact Or.inl hstatus.symm
  | mathAdd | mathSub | mathMul =>
      simp only [hop, Option.some.injEq, Prod.mk.injEq] at h
      exact Or.inl h.1.symm
  | unrecognized =>
      simp only [hop, Option.some.injEq, Prod.mk.injEq] at h
      exact Or.inr (Or.inr h.1.symm)

theorem runStr_status (request : StrArgs) (response : Result) :
    (runStr request response).1 = .stSuccess ∨
      (runStr request response).1 = .stErrorStringTooLong ∨
      (runStr request response).1 = .stErrorSubstrNotFound ∨
      (runStr request response).1 = .stErrorInvalidInput := by
  unfold runStr
  cases request.op with
  | strConcat => dsimp only; split <;> simp
  | strFindStart => dsimp only; split <;> simp
  | unrecognized => simp

/-- No operation ever answers `ST_NOT_FINISHED`, so a finished job is never
mistaken for an unfinished one. -/
theorem evaluate_status_ne_notFinished {request : SubmitRequest} {status : Status}
    {result : Result} (h : evaluate request = some (status, result)) :
    status ≠ .stNotFinished := by
  unfold evaluate at h
  rcases hpayload : request.payload with _ | (args | args)
  · simp only [hpayload, Option.some.injEq, Prod.mk.injEq] at h
    simp [← h.1]
  · simp only [hpayload] at h
    rcases runMath_status h with rfl | rfl | rfl <;> simp
  · simp only [hpayload, Option.some.injEq] at h
    have hstatus := runStr_status args {}
    rw [h] at hstatus
    rcases hstatus with rfl | rfl | rfl | rfl <;> simp

theorem runMath_success {request : MathArgs} {response result : Result}
    (h : runMath request response = some (.stSuccess, result)) :
    ∃ value, result.value = some value := by
  unfold runMath at h
  cases hop : request.op with
  | mathDiv =>
      by_cases hb : request.b = 0
      · simp [hop, hb] at h
      · simp only [hop, hb, if_false, Option.map_eq_some_iff, Prod.mk.injEq, true_and] at h
        obtain ⟨q, -, rfl⟩ := h
        exact ⟨.intResult q, rfl⟩
  | mathAdd | mathSub | mathMul =>
      simp only [hop, Option.some.injEq, Prod.mk.injEq, true_and] at h
      obtain rfl := h
      exact ⟨_, rfl⟩
  | unrecognized => simp [hop] at h

theorem runStr_success {request : StrArgs} {response result : Result}
    (h : runStr request response = (.stSuccess, result)) : ∃ value, result.value = some value := by
  unfold runStr at h
  cases hop : request.op with
  | strConcat =>
      simp only [hop] at h
      split at h
      · simp at h
      · obtain ⟨-, rfl⟩ := Prod.mk.inj h
        exact ⟨_, rfl⟩
  | strFindStart =>
      simp only [hop] at h
      split at h
      · simp at h
      · obtain ⟨-, rfl⟩ := Prod.mk.inj h
        exact ⟨_, rfl⟩
  | unrecognized => simp [hop] at h

theorem evaluate_success_value {request : SubmitRequest} {result : Result}
    (h : evaluate request = some (.stSuccess, result)) : ∃ value, result.value = some value := by
  unfold evaluate at h
  cases hpayload : request.payload with
  | none => simp [hpayload] at h
  | some payload =>
      cases payload with
      | math args =>
          rw [hpayload] at h
          exact runMath_success h
      | str args =>
          rw [hpayload] at h
          exact runStr_success (Option.some.inj h)

end InterProcess
