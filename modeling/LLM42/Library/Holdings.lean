import Mathlib.Data.List.Nodup

/-! # What a family of objects holds

Objects are numbered from zero; each holds a list of resources. Changing one object exchanges its
own list and nothing else. -/

namespace LLM42.Library

open List

variable {α : Type*} {n i : ℕ} {f g : ℕ → List α}

/-- Everything held by the first `n` objects. -/
def holdings (n : ℕ) (f : ℕ → List α) : List α := (range n).flatMap f

theorem mem_holdings {x : α} : x ∈ holdings n f ↔ ∃ i < n, x ∈ f i := by
  simp [holdings]

theorem holdings_succ : holdings (n + 1) f = holdings n f ++ f n := by
  simp [holdings, range_succ]

theorem holdings_congr (h : ∀ i < n, f i = g i) : holdings n f = holdings n g :=
  flatMap_congr fun i hi => h i (mem_range.mp hi)

theorem holdings_split (hi : i < n) :
    (holdings n f).Perm (f i ++ ((range n).erase i).flatMap f) := by
  have hperm := perm_cons_erase (mem_range.mpr hi)
  simpa [holdings] using hperm.flatMap_right f

theorem holdings_exchange (hi : i < n) (h : ∀ j < n, j ≠ i → f j = g j) :
    (f i ++ holdings n g).Perm (g i ++ holdings n f) := by
  have hrest : ((range n).erase i).flatMap f = ((range n).erase i).flatMap g := by
    refine flatMap_congr fun j hj => ?_
    obtain ⟨hne, hmem⟩ := (Nodup.mem_erase_iff nodup_range).mp hj
    exact h j (mem_range.mp hmem) hne
  have hf := (holdings_split (f := f) hi).append_left (g i)
  have hg := (holdings_split (f := g) hi).append_left (f i)
  rw [← hrest] at hg
  refine hg.trans (Perm.trans ?_ hf.symm)
  rw [← append_assoc, ← append_assoc]
  exact perm_append_comm.append_right _

/-- In a duplicate-free table no other object holds what object `i` holds. -/
theorem not_mem_of_nodup {j : ℕ} {x : α} (hnd : (holdings n f).Nodup) (hi : i < n) (hj : j < n)
    (hne : j ≠ i) (hx : x ∈ f i) : x ∉ f j := by
  intro hxj
  have hsplit := (holdings_split (f := f) hi).nodup_iff.mp hnd
  have hdisj := (nodup_append.mp hsplit).2.2
  refine hdisj x hx x (mem_flatMap.mpr ⟨j, ?_, hxj⟩) rfl
  exact (Nodup.mem_erase_iff nodup_range).mpr ⟨hne, mem_range.mpr hj⟩

end LLM42.Library
