import Mathlib.Logic.Function.Basic
import Mathlib.Data.Set.Insert

/-!
# Finite maps read by lookup

A `Table κ ν` is a key-value map seen through its lookup function, with
insertion that overwrites and erasure of an absent key doing nothing. That is
the interface of an unordered map as long as nobody iterates over it. `keys` is
the set of present keys.
-/

/-- A key-value map, given by its lookup. -/
abbrev Table (κ ν : Type*) := κ → Option ν

namespace Table

variable {κ ν : Type*} [DecidableEq κ]

/-- The table without entries. -/
def empty : Table κ ν := fun _ => none

/-- Store `v` under `k`, replacing what was there. -/
def insert (m : Table κ ν) (k : κ) (v : ν) : Table κ ν := Function.update m k (some v)

/-- Remove the entry of `k`, if there is one. -/
def erase (m : Table κ ν) (k : κ) : Table κ ν := Function.update m k none

/-- The keys that have an entry. -/
def keys (m : Table κ ν) : Set κ := {k | (m k).isSome}

omit [DecidableEq κ] in
@[simp] theorem empty_apply (k : κ) : (empty : Table κ ν) k = none := rfl

@[simp] theorem insert_self (m : Table κ ν) (k : κ) (v : ν) : m.insert k v k = some v := by
  simp [insert]

theorem insert_of_ne (m : Table κ ν) {k l : κ} (h : l ≠ k) (v : ν) :
    m.insert k v l = m l := by
  simp [insert, h]

theorem insert_apply (m : Table κ ν) (k l : κ) (v : ν) :
    m.insert k v l = if l = k then some v else m l := by
  simp [insert, Function.update_apply]

@[simp] theorem erase_self (m : Table κ ν) (k : κ) : m.erase k k = none := by
  simp [erase]

theorem erase_of_ne (m : Table κ ν) {k l : κ} (h : l ≠ k) : m.erase k l = m l := by
  simp [erase, h]

theorem erase_apply (m : Table κ ν) (k l : κ) :
    m.erase k l = if l = k then none else m l := by
  simp [erase, Function.update_apply]

omit [DecidableEq κ] in
@[simp] theorem mem_keys {m : Table κ ν} {k : κ} : k ∈ m.keys ↔ ∃ v, m k = some v := by
  simp [keys, Option.isSome_iff_exists]

omit [DecidableEq κ] in
@[simp] theorem keys_empty : (empty : Table κ ν).keys = ∅ := by
  ext k
  simp

theorem keys_insert (m : Table κ ν) (k : κ) (v : ν) :
    (m.insert k v).keys = Insert.insert k m.keys := by
  ext l
  by_cases h : l = k
  · simp [h]
  · simp [insert_of_ne, h]

theorem keys_erase (m : Table κ ν) (k : κ) : (m.erase k).keys = m.keys \ {k} := by
  ext l
  by_cases h : l = k
  · simp [h]
  · simp [erase_of_ne, h]

theorem of_erase_eq_some {m : Table κ ν} {k l : κ} {v : ν} (h : m.erase k l = some v) :
    l ≠ k ∧ m l = some v := by
  by_cases hl : l = k
  · simp [hl] at h
  · exact ⟨hl, by rwa [erase_of_ne m hl] at h⟩

end Table
