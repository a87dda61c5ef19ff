import LLM42.Cache.RadixLocks
import Mathlib.Data.List.MinMax

/-! # Eviction

The heap of `evict` is a snapshot of the leaf set, and every turn changes both in the same way. So
a popped node is an unlocked leaf, and the loop stops early only when nothing unlocked is left. -/

namespace LLM42

open List
open Library (PathNode PathTree)

namespace RadixCache

variable {η β : Type*} {cfg : RadixConfig η β} {c c' : RadixCache η β}
  {e x : PathNode Page (RadixNode η)} {p q : List Page}

/-- Unlocked leaves taken out one after the other. -/
inductive Evicted (cfg : RadixConfig η β) :
    RadixCache η β → List (PathNode Page (RadixNode η)) → RadixCache η β → Prop
  | done {c : RadixCache η β} : Evicted cfg c [] c
  | next {c c' : RadixCache η β} {x : PathNode Page (RadixNode η)}
      {xs : List (PathNode Page (RadixNode η))} : x ∈ c.nodes → x.data.lockRef = 0 →
      c.nodes.Childless x.path → Evicted cfg ((c.deleteLeaf x).recordRemoveEvent cfg x) xs c' →
      Evicted cfg c (x :: xs) c'

def freedTokens (xs : List (PathNode Page (RadixNode η))) : ℕ :=
  (xs.map fun x => x.data.value.flatten.length).sum

section Frame

@[simp] theorem nodes_recordRemoveEvent : (c.recordRemoveEvent cfg x).nodes = c.nodes := by
  unfold recordRemoveEvent
  split <;> rfl

@[simp] theorem evictableLeaves_recordRemoveEvent :
    (c.recordRemoveEvent cfg x).evictableLeaves = c.evictableLeaves := by
  unfold recordRemoveEvent
  split <;> rfl

@[simp] theorem evictableSize_recordRemoveEvent :
    (c.recordRemoveEvent cfg x).evictableSize = c.evictableSize := by
  unfold recordRemoveEvent
  split <;> rfl

@[simp] theorem nodes_deleteLeaf : (c.deleteLeaf x).nodes = c.nodes.remove x.path := by
  simp [deleteLeaf]

@[simp] theorem evictableSize_deleteLeaf :
    (c.deleteLeaf x).evictableSize = c.evictableSize - tokenLen x.key := by
  simp [deleteLeaf]

variable {T : PathTree Page (RadixNode η)}

theorem Filled.length_flatten (hf : Filled T) (he : e ∈ T) :
    e.data.value.flatten.length = tokenLen e.key := by
  rw [List.length_flatten, hf e he, tokenLen]

theorem Filled.remove (hf : Filled T) : Filled (T.remove p) :=
  fun e he => hf e (PathTree.mem_remove.mp he).1

theorem becameLeaf_iff (hT : c.nodes.Shaped) : c.becameLeaf p ↔ IsLeaf c.nodes p := by
  unfold becameLeaf IsLeaf
  cases hn : c.nodes.node? p with
  | none =>
    simp only [Bool.false_eq_true, false_iff]
    rintro ⟨f, hf, rfl, -⟩
    rw [hT.node?_eq hf] at hn
    cases hn
  | some e =>
    obtain ⟨he, rfl⟩ := PathTree.mem_of_node? hn
    simp only [Bool.and_eq_true, decide_eq_true_eq]
    constructor
    · rintro ⟨hc, hl⟩
      exact ⟨e, he, rfl, hl, hc⟩
    · rintro ⟨f, hf, hp, hl, hc⟩
      rw [hT.eq_of_path hf he hp] at hl
      exact ⟨hc, hl⟩

end Frame

def LocksUp (T : PathTree Page (RadixNode η)) : Prop :=
  ∀ e ∈ T, ∀ f ∈ T, e.path <+: f.path → f.data.lockRef ≤ e.data.lockRef

theorem Accounts.evictableSize_eq_zero (h : Accounts c) (hup : LocksUp c.nodes)
    (hleaves : c.evictableLeaves = []) : c.evictableSize = 0 := by
  have hT := h.shaped
  have hlocked : ∀ e ∈ c.nodes, e.data.lockRef ≠ 0 := by
    intro e₀ he₀ hl₀
    obtain ⟨e, hmax⟩ : ∃ e, e ∈ (c.nodes.filter (·.data.lockRef = 0)).argmax (·.path.length) := by
      cases hm : (c.nodes.filter (·.data.lockRef = 0)).argmax (·.path.length) with
      | none =>
        rw [argmax_eq_none] at hm
        have : e₀ ∈ c.nodes.filter (·.data.lockRef = 0) := by simp [he₀, hl₀]
        simp [hm] at this
      | some e => exact ⟨e, rfl⟩
    obtain ⟨he, hl⟩ : e ∈ c.nodes ∧ e.data.lockRef = 0 := by
      simpa using argmax_mem hmax
    have hleaf : IsLeaf c.nodes e.path := by
      refine ⟨e, he, rfl, hl, fun f hf hfp => ?_⟩
      have hpre : e.path <+: f.path := by
        rw [← hfp]
        exact take_prefix _ _
      have hfl : f.data.lockRef = 0 := by
        have := hup e he f hf hpre
        omega
      have hle := le_of_mem_argmax (f := fun x : PathNode Page (RadixNode η) => x.path.length)
        (show f ∈ c.nodes.filter (·.data.lockRef = 0) by simp [hf, hfl]) hmax
      have hlen := hT.length_parent hf
      have hlt := hT.start_lt f hf
      rw [hfp] at hlen
      omega
    rw [← h.leaves, hleaves] at hleaf
    simp at hleaf
  rw [h.evictable]
  refine sum_eq_zero fun w hw => ?_
  obtain ⟨e, he, rfl⟩ := mem_map.mp hw
  simp [evictableLen, hlocked e he]

theorem Accounts.heap_perm (h : Accounts c) {heap : List (List Page)} (hx : x ∈ c.nodes)
    (hl : x.data.lockRef = 0) (hc : c.nodes.Childless x.path)
    (hheap : heap.Perm c.evictableLeaves) :
    (if (c.deleteLeaf x).becameLeaf x.parent then x.parent :: heap.erase x.path
      else heap.erase x.path).Perm (c.deleteLeaf x).evictableLeaves := by
  have h' := h.deleteLeaf hx hl hc
  have hnd : (heap.erase x.path).Nodup := (hheap.nodup_iff.mpr h.leaves_nodup).erase _
  have hnot : x.parent ∉ heap := by
    rw [hheap.mem_iff, h.leaves]
    rintro ⟨f, -, -, -, hcf⟩
    exact hcf x hx rfl
  have hmem : ∀ q, q ∈ (c.deleteLeaf x).evictableLeaves ↔
      (q = x.parent ∧ (c.deleteLeaf x).becameLeaf x.parent) ∨ q ∈ heap.erase x.path := by
    intro q
    rw [becameLeaf_iff h'.shaped, h'.leaves,
      (hheap.nodup_iff.mpr h.leaves_nodup).mem_erase_iff, hheap.mem_iff, h.leaves]
    by_cases hq : q = x.parent
    · subst hq
      have : ¬ IsLeaf c.nodes x.parent := by
        rintro ⟨f, -, -, -, hcf⟩
        exact hcf x hx rfl
      simp [this]
    · rw [← h.leaves, ← h.leaves_nodup.mem_erase_iff, ← h'.leaves, RadixCache.deleteLeaf]
      have hT' := h.shaped.remove hc
      rw [mem_updateLeafStatus (c := { c with
        nodes := c.nodes.remove x.path
        evictableSize := c.evictableSize - tokenLen x.key
        evictableLeaves := c.evictableLeaves.erase x.path }) hT' (h.leaves_nodup.erase _)]
      simp [hq]
  refine (perm_ext_iff_of_nodup ?_ h'.leaves_nodup).mpr fun q => ?_
  · split
    · exact nodup_cons.mpr ⟨fun hm => hnot (mem_of_mem_erase hm), hnd⟩
    · exact hnd
  · rw [hmem]
    split
    next hb => simp [hb]
    next hb => simp [hb]

/-- The loop takes out unlocked leaves until enough is freed or nothing unlocked is left. -/
theorem evictLoop_spec {pick : List (List Page) → ℕ} {numTokens fuel numEvicted : ℕ}
    {heap : List (List Page)} (h : Accounts c) (hf : Filled c.nodes) (hup : LocksUp c.nodes)
    (hheap : heap.Perm c.evictableLeaves) (hfuel : c.nodes.length ≤ fuel) :
    Evicted cfg c (evictLoop cfg pick numTokens fuel c numEvicted heap).1
        (evictLoop cfg pick numTokens fuel c numEvicted heap).2 ∧
      min ((numTokens : ℤ) - numEvicted) c.evictableSize ≤
        freedTokens (evictLoop cfg pick numTokens fuel c numEvicted heap).1 := by
  induction fuel generalizing c numEvicted heap with
  | zero =>
    have hnil : c.nodes = [] := length_eq_zero_iff.mp (by omega)
    have hev := h.evictable
    rw [hnil] at hev
    refine ⟨.done, ?_⟩
    simp only [evictLoop, freedTokens, map_nil, sum_nil] at hev ⊢
    omega
  | succ fuel ih =>
    unfold evictLoop
    split
    next hmore =>
      split
      next hnone =>
        refine ⟨.done, ?_⟩
        have hzero : c.evictableSize = 0 := by
          refine h.evictableSize_eq_zero hup ?_
          cases heap with
          | nil => exact hheap.symm.eq_nil
          | cons a heap =>
            obtain ⟨y, hy⟩ : ∃ y, (a :: heap)[pick (a :: heap) % (a :: heap).length]? = some y :=
              ⟨_, getElem?_eq_getElem (Nat.mod_lt _ (by simp))⟩
            have hmem := (hheap.mem_iff.mp (mem_of_getElem? hy))
            obtain ⟨f, hf', rfl, -⟩ := (h.leaves _).mp hmem
            rw [hy, Option.bind_some, h.shaped.node?_eq hf'] at hnone
            cases hnone
        simp only [freedTokens, map_nil, sum_nil, hzero]
        exact_mod_cast min_le_right _ _
      next x hsome =>
      obtain ⟨y, hy, hxy⟩ := Option.bind_eq_some_iff.mp hsome
      obtain ⟨hx, rfl⟩ := PathTree.mem_of_node? hxy
      obtain ⟨f, hf', hfp, hl, hc⟩ := (h.leaves _).mp (hheap.mem_iff.mp (mem_of_getElem? hy))
      obtain rfl := h.shaped.eq_of_path hf' hx hfp
      have hlen : (c.nodes.remove f.path).length < c.nodes.length := by
        have := ((c.nodes).perm_cons_filter_ne h.shaped hx).length_eq
        simp only [length_cons] at this
        rw [PathTree.remove]
        omega
      obtain ⟨hev, hmin⟩ := @ih ((c.deleteLeaf f).recordRemoveEvent cfg f)
        (numEvicted + f.data.value.flatten.length) _ (h.deleteLeaf hx hl hc).recordRemoveEvent
        (by simpa using hf.remove)
        (by
          simp only [nodes_recordRemoveEvent, nodes_deleteLeaf]
          exact fun a ha b hb => hup a (PathTree.mem_remove.mp ha).1 b (PathTree.mem_remove.mp hb).1)
        (by simpa using h.heap_perm hx hl hc hheap)
        (by simp only [nodes_recordRemoveEvent, nodes_deleteLeaf]; omega)
      refine ⟨.next hx hl hc hev, ?_⟩
      have hfl := hf.length_flatten hx
      simp only [evictableSize_recordRemoveEvent, evictableSize_deleteLeaf] at hmin
      simp only [freedTokens, map_cons, sum_cons] at hmin ⊢
      omega
    next hmore =>
    refine ⟨.done, ?_⟩
    omega

end RadixCache

end LLM42
