import Mathlib.Data.List.Nodup

/-! # Dictionaries with a capacity

An ordered dictionary that makes room for a new key by dropping its oldest one. -/

namespace LLM42.Library

variable {κ α : Type*} [DecidableEq κ]

structure CapacityDict (κ α : Type*) [DecidableEq κ] where
  capacity : ℕ
  /-- the oldest key first -/
  keys : List κ
  get? : κ → Option α
  capacity_pos : 0 < capacity
  nodup : keys.Nodup
  mem_keys : ∀ k, k ∈ keys ↔ (get? k).isSome

namespace CapacityDict

def empty (capacity : ℕ) (h : 0 < capacity) : CapacityDict κ α where
  capacity
  keys := []
  get? _ := none
  capacity_pos := h
  nodup := List.nodup_nil
  mem_keys _ := by simp

def pop (d : CapacityDict κ α) (k : κ) : CapacityDict κ α where
  capacity := d.capacity
  keys := d.keys.erase k
  get? := Function.update d.get? k none
  capacity_pos := d.capacity_pos
  nodup := d.nodup.erase k
  mem_keys k' := by
    by_cases hk : k' = k
    · subst hk
      simp [d.nodup.not_mem_erase]
    · rw [Function.update_of_ne hk, ← d.mem_keys, List.mem_erase_of_ne hk]

def popOldest (d : CapacityDict κ α) : CapacityDict κ α :=
  match d.keys with
  | [] => d
  | k :: _ => d.pop k

/-- Assignment without regard to the capacity; a key that is there keeps its place. -/
def assign (d : CapacityDict κ α) (k : κ) (v : α) : CapacityDict κ α where
  capacity := d.capacity
  keys := if k ∈ d.keys then d.keys else d.keys ++ [k]
  get? := Function.update d.get? k (some v)
  capacity_pos := d.capacity_pos
  nodup := by
    split_ifs with h
    · exact d.nodup
    · exact d.nodup.append (List.nodup_singleton k) (by simpa using h)
  mem_keys k' := by
    by_cases hk : k' = k
    · subst hk
      split_ifs with h
      · simp [h]
      · simp
    · rw [Function.update_of_ne hk, ← d.mem_keys]
      split_ifs with h
      · rfl
      · simp [hk]

def setItem (d : CapacityDict κ α) (k : κ) (v : α) : CapacityDict κ α :=
  (if d.capacity ≤ d.keys.length then d.popOldest else d).assign k v

variable (d : CapacityDict κ α) (k : κ) (v : α)

theorem length_assign_le : (d.assign k v).keys.length ≤ d.keys.length + 1 := by
  simp only [assign]
  split_ifs
  · omega
  · simp

end CapacityDict

end LLM42.Library
