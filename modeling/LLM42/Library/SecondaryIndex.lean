import Mathlib.Data.List.Nodup

/-! # Secondary indexes

A map from keys to lists, kept beside a table of current entries. `Lists` says that the index has
each current entry once, under its key, and nothing else. -/

namespace LLM42.Library

variable {κ α : Type*} [DecidableEq κ]

/-- A map from keys to lists; a key without a list counts as one with the empty list. -/
def Index (κ α : Type*) := κ → Option (List α)

namespace Index

def get (ix : Index κ α) (k : κ) : List α := (ix k).getD []

def push (ix : Index κ α) (k : κ) (a : α) : Index κ α :=
  fun j => if j = k then some (ix.get k ++ [a]) else ix j

def retain (ix : Index κ α) (k : κ) (p : α → Bool) : Index κ α :=
  fun j => if j = k then (ix k).map (List.filter p) else ix j

def empty : Index κ α := fun _ => none

theorem get_push (ix : Index κ α) (k : κ) (a : α) (j : κ) :
    (ix.push k a).get j = if j = k then ix.get k ++ [a] else ix.get j := by
  by_cases h : j = k
  · simp [push, get, h]
  · simp [push, get, h]

theorem get_retain (ix : Index κ α) (k : κ) (p : α → Bool) (j : κ) :
    (ix.retain k p).get j = if j = k then (ix.get k).filter p else ix.get j := by
  by_cases h : j = k
  · simp only [retain, get, h, if_true]
    cases ix k <;> rfl
  · simp [retain, get, h]

/-- Each entry is listed once under the key it currently has. -/
structure Lists (ix : Index κ α) (current : α → κ → Prop) : Prop where
  mem : ∀ k a, a ∈ ix.get k ↔ current a k
  nodup : ∀ k, (ix.get k).Nodup

variable {ix : Index κ α} {current current' : α → κ → Prop}

omit [DecidableEq κ] in
theorem Lists.empty (h : ∀ a k, ¬ current a k) : (empty : Index κ α).Lists current where
  mem k a := iff_of_false (by simp [Index.empty, get]) (h a k)
  nodup _ := by simp [Index.empty, get]

/-- Pushing lists one more pair. -/
theorem Lists.push (h : ix.Lists current) {k : κ} {a : α} (hnew : ∀ j, ¬ current a j)
    (hcurrent : ∀ b j, current' b j ↔ current b j ∨ (b = a ∧ j = k)) :
    (ix.push k a).Lists current' where
  mem j b := by
    rw [get_push, hcurrent, ← h.mem]
    split
    · next hj => simp [hj]
    · next hj => simp [hj]
  nodup j := by
    rw [get_push]
    split
    · have hnot : a ∉ ix.get k := fun ha => hnew k ((h.mem k a).mp ha)
      exact (h.nodup k).append (List.nodup_singleton a) (by simpa using hnot)
    · exact h.nodup j

/-- Retaining unlists what fails the test. -/
theorem Lists.retain (h : ix.Lists current) {k : κ} {p : α → Bool}
    (hkey : ∀ a j, current a j → p a = false → j = k)
    (hcurrent : ∀ a j, current' a j ↔ current a j ∧ p a = true) :
    (ix.retain k p).Lists current' where
  mem j a := by
    rw [get_retain, hcurrent, ← h.mem]
    split
    · next hj => simp [hj]
    · next hj =>
      refine ⟨fun ha => ⟨ha, ?_⟩, And.left⟩
      by_contra hp
      exact hj (hkey a j ((h.mem j a).mp ha) (by simpa using hp))
  nodup j := by
    rw [get_retain]
    split
    · exact (h.nodup k).filter _
    · exact h.nodup j

end Index

end LLM42.Library
