import InterProcess.Library.Occurrence
import InterProcess.Runner.Operations
import Mathlib.Algebra.Order.Ring.Int

/-!
# The string operations

What `runStr` answers for strings of any length: the concatenation if it has at most 32
bytes, and the first place at which the second string occurs in the first one. A string
field of a message has fewer than `2 ^ 31` bytes, so a place is an `int32`.
-/

namespace InterProcess

open Occurrence

/-- `std::string::find` gives the first place. -/
theorem stringFind_eq_some {needle hay : Bytes} {pos : ℕ} :
    stringFind needle hay = some pos ↔ FirstAt needle hay pos := by
  induction hay generalizing pos with
  | nil =>
      by_cases hneedle : needle = []
      · subst hneedle
        rw [firstAt_of_zero (occursAt_nil.mpr ⟨rfl, rfl⟩)]
        simp [stringFind, eq_comm]
      · have hnone : ∀ i, ¬ OccursAt needle [] i := fun i hi => hneedle (occursAt_nil.mp hi).1
        simp only [stringFind, if_neg hneedle]
        exact iff_of_false (by simp) fun hfirst => hnone pos hfirst.1
  | cons c hay ih =>
      rw [stringFind]
      split
      · next hfront =>
          rw [firstAt_of_zero (occursAt_zero.mpr (List.isPrefixOf_iff_prefix.mp hfront))]
          simp [eq_comm]
      · next hfront =>
          have hzero : ¬ OccursAt needle (c :: hay) 0 := fun hzero =>
            hfront (List.isPrefixOf_iff_prefix.mpr (occursAt_zero.mp hzero))
          cases pos with
          | zero => exact iff_of_false (by simp) fun hfirst => hzero hfirst.1
          | succ pos =>
              rw [firstAt_succ hzero, ← ih]
              simp

theorem stringFind_eq_none {needle hay : Bytes} :
    stringFind needle hay = none ↔ ∀ i, ¬ OccursAt needle hay i := by
  induction hay with
  | nil => simp [stringFind, occursAt_nil]
  | cons c hay ih =>
      rw [stringFind]
      split
      · next hfront =>
          have hzero : OccursAt needle (c :: hay) 0 :=
            occursAt_zero.mpr (List.isPrefixOf_iff_prefix.mp hfront)
          exact iff_of_false (by simp) fun hnone => hnone 0 hzero
      · next hfront =>
          rw [Option.map_eq_none_iff, ih]
          constructor
          · rintro hnone (_ | i) hi
            · exact hfront (List.isPrefixOf_iff_prefix.mpr (occursAt_zero.mp hi))
            · exact hnone i (occursAt_succ.mp hi)
          · exact fun hnone i hi => hnone (i + 1) (occursAt_succ.mpr hi)

namespace StrArgs

/-- The status and the result are what the operation asks for. -/
structure Answered (args : StrArgs) (status : Status) (result : Result) : Prop where
  concat : args.op = .strConcat →
    (status = .stSuccess ∧ result.value = some (.strResult (args.s1 ++ args.s2)) ↔
      args.s1.length + args.s2.length ≤ 32) ∧
    (¬ args.s1.length + args.s2.length ≤ 32 → status = .stErrorStringTooLong)
  find : args.op = .strFindStart →
    (∀ p : ℕ, (status = .stSuccess ∧ ∃ pos : Int32, result.value = some (.position pos) ∧
      pos.toInt = p) ↔ FirstAt args.s2 args.s1 p) ∧
    (status = .stErrorSubstrNotFound ↔ ∀ i, ¬ OccursAt args.s2 args.s1 i)
  other : ∀ number h, args.op = .unrecognized number h → status = .stErrorInvalidInput
  value : result.value ≠ none ↔ status = .stSuccess

theorem answered_concat {args : StrArgs} (hop : args.op = .strConcat) :
    args.Answered (runStr args {}).1 (runStr args {}).2 := by
  have hlength : (args.s1 ++ args.s2).length = args.s1.length + args.s2.length :=
    List.length_append
  by_cases hfits : args.s1.length + args.s2.length ≤ 32
  · have hrun : runStr args {} = (.stSuccess, { value := some (.strResult (args.s1 ++ args.s2)) }) := by
      simp only [runStr, hop, hlength, if_neg (Nat.not_lt.mpr hfits)]
    rw [hrun]
    exact ⟨fun _ => ⟨by simp [hfits], fun hlong => absurd hfits hlong⟩, by simp [hop],
      by simp [hop], by simp⟩
  · have hrun : runStr args {} = (.stErrorStringTooLong, {}) := by
      simp only [runStr, hop, hlength, if_pos (Nat.not_le.mp hfits)]
    rw [hrun]
    exact ⟨fun _ => ⟨by simp [hfits], fun _ => rfl⟩, by simp [hop], by simp [hop], by simp⟩

theorem answered_find {args : StrArgs} (hop : args.op = .strFindStart)
    (hshort : args.s1.length < 2 ^ 31) : args.Answered (runStr args {}).1 (runStr args {}).2 := by
  cases hfind : stringFind args.s2 args.s1 with
  | none =>
      have hnone := stringFind_eq_none.mp hfind
      have hrun : runStr args {} = (.stErrorSubstrNotFound, {}) := by simp [runStr, hop, hfind]
      rw [hrun]
      refine ⟨by simp [hop], fun _ => ⟨fun p => ?_, iff_of_true rfl hnone⟩, by simp [hop], by simp⟩
      exact iff_of_false (by simp) fun hfirst => hnone p hfirst.1
  | some pos =>
      have hfirst := stringFind_eq_some.mp hfind
      have hpos : (Int32.ofNat pos).toInt = pos :=
        Int32.toInt_ofNat_of_lt (Nat.lt_of_le_of_lt hfirst.1.le hshort)
      have hrun : runStr args {} =
          (.stSuccess, { value := some (.position (Int32.ofNat pos)) }) := by
        simp [runStr, hop, hfind]
      rw [hrun]
      refine ⟨by simp [hop], fun _ => ⟨fun p => ?_, ?_⟩, by simp [hop], by simp⟩
      · constructor
        · rintro ⟨-, _, hvalue, hp⟩
          obtain rfl := ResultValue.position.inj (Option.some.inj hvalue)
          obtain rfl : pos = p := by omega
          exact hfirst
        · intro hp
          obtain rfl := hp.unique hfirst
          exact ⟨rfl, _, rfl, hpos⟩
      · exact iff_of_false (by simp) fun hnone => hnone pos hfirst.1

/-- Every request for a string operation is answered with what it asks for. -/
theorem runStr_answered (args : StrArgs) (hs1 : args.s1.length < 2 ^ 31) :
    args.Answered (runStr args {}).1 (runStr args {}).2 := by
  cases hop : args.op with
  | strConcat => exact answered_concat hop
  | strFindStart => exact answered_find hop hs1
  | unrecognized number h =>
      have hrun : runStr args {} = (.stErrorInvalidInput, {}) := by simp [runStr, hop]
      rw [hrun]
      exact ⟨by simp [hop], by simp [hop], fun _ _ _ => rfl, by simp⟩

/-- The first of two overlapping occurrences is found. -/
theorem runStr_answered_overlap :
    Answered { op := .strFindStart, s1 := [98, 97, 97, 97], s2 := [97, 97] } .stSuccess
      { value := some (.position 1) } :=
  runStr_answered { op := .strFindStart, s1 := [98, 97, 97, 97], s2 := [97, 97] } (by decide)

end StrArgs

end InterProcess
