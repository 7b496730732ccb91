import Mathlib.Data.List.Basic
import Mathlib.Data.Set.Card

/-!
# Counting positions that are updated

A pool of threads is a list of program points, or a function to program points, and a
step of a thread overwrites one position. These lemmas follow the number of threads
at points of a given kind through such an update.
-/

namespace Counting

variable {α : Type*}

theorem countP_set_add (q : α → Bool) {l : List α} {i : ℕ} {a : α} (b : α)
    (h : l[i]? = some a) :
    (l.set i b).countP q + (q a).toNat = l.countP q + (q b).toNat := by
  induction l generalizing i with
  | nil => simp at h
  | cons x l ih =>
      cases i with
      | zero =>
          obtain rfl : x = a := by simpa using h
          simp only [List.set_cons_zero, List.countP_cons]
          cases q x <;> cases q b <;> simp
      | succ i =>
          have := ih (i := i) (by simpa using h)
          simp only [List.set_cons_succ, List.countP_cons]
          omega

theorem countP_set_of_eq (q : α → Bool) {l : List α} {i : ℕ} {a b : α}
    (h : l[i]? = some a) (hq : q b = q a) : (l.set i b).countP q = l.countP q := by
  have := countP_set_add q b h
  rw [hq] at this
  omega

theorem countP_map_of_eq (q : α → Bool) {f : α → α} (hf : ∀ a, q (f a) = q a)
    (l : List α) : (l.map f).countP q = l.countP q := by
  rw [List.countP_map]
  exact List.countP_congr fun a _ => by simp [hf]

theorem countP_mapIdx_of_eq (q : α → Bool) {f : ℕ → α → α} (hf : ∀ i a, q (f i a) = q a)
    (l : List α) : (l.mapIdx f).countP q = l.countP q := by
  induction l generalizing f with
  | nil => rfl
  | cons a l ih =>
      rw [List.mapIdx_cons, List.countP_cons, List.countP_cons, hf,
        ih fun i => hf (i + 1)]

theorem countP_le_mapIdx (q : α → Bool) {f : ℕ → α → α}
    (hf : ∀ i a, q a = true → q (f i a) = true) (l : List α) :
    l.countP q ≤ (l.mapIdx f).countP q := by
  induction l generalizing f with
  | nil => exact Nat.le_refl 0
  | cons a l ih =>
      have hrest := ih fun i => hf (i + 1)
      rw [List.mapIdx_cons, List.countP_cons, List.countP_cons]
      have hhead := hf 0 a
      cases ha : q a with
      | false => simp only [Bool.false_eq_true, if_false]; omega
      | true => simp only [hhead ha, if_true]; omega

theorem countP_lt_mapIdx (q : α → Bool) {f : ℕ → α → α}
    (hf : ∀ i a, q a = true → q (f i a) = true) {l : List α} {i : ℕ} {a : α}
    (h : l[i]? = some a) (ha : q a = false) (hfa : q (f i a) = true) :
    l.countP q < (l.mapIdx f).countP q := by
  induction l generalizing f i with
  | nil => simp at h
  | cons b l ih =>
      rw [List.mapIdx_cons, List.countP_cons, List.countP_cons]
      cases i with
      | zero =>
          obtain rfl : b = a := by simpa using h
          have hrest := countP_le_mapIdx q (fun i => hf (i + 1)) l
          simp only [ha, hfa, Bool.false_eq_true, if_false, if_true]
          omega
      | succ i =>
          have hrest := ih (fun i => hf (i + 1)) (by simpa using h) hfa
          have hhead := hf 0 b
          cases hb : q b with
          | false => simp only [Bool.false_eq_true, if_false]; omega
          | true => simp only [hhead hb, if_true]; omega

theorem ncard_update_add {κ : Type*} [DecidableEq κ] (q : α → Bool) {f : κ → α}
    (hfin : {k | q (f k) = true}.Finite) (k : κ) (a : α) :
    {i | q (Function.update f k a i) = true}.ncard + (q (f k)).toNat =
      {i | q (f i) = true}.ncard + (q a).toNat := by
  have hset : {i | q (Function.update f k a i) = true} =
      if q a = true then insert k {i | q (f i) = true} else {i | q (f i) = true} \ {k} := by
    ext i
    by_cases hi : i = k
    · subst hi
      cases ha : q a <;> simp [ha]
    · cases ha : q a <;> simp [hi]
  rw [hset]
  cases ha : q a with
  | true =>
      rw [if_pos rfl]
      cases hk : q (f k) with
      | true => rw [Set.insert_eq_of_mem (by simpa using hk)]
      | false => simp [Set.ncard_insert_of_notMem (a := k) (by simp [hk]) hfin]
  | false =>
      rw [if_neg (by simp)]
      cases hk : q (f k) with
      | true => simpa using Set.ncard_sdiff_singleton_add_one (by simpa using hk) hfin
      | false => rw [Set.sdiff_singleton_eq_self (by simp [hk])]

end Counting
