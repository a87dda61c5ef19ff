import LLM42.Serving.PageBatches
import LLM42.Serving.PrefillAdder
import Mathlib.Algebra.BigOperators.Ring.List
import Mathlib.Algebra.Order.BigOperators.Group.List

/-! # What the cache can supply

Free and evictable tokens come in whole pages, and an eviction turns evictable tokens into free
ones. Lookups and locks that are given back leave the sum as it was. -/

namespace LLM42

open List KVAllocator
open Library (PathNode PathTree)
open RadixCache (treePages nodePages freedTokens)
open RadixState (Paged)
open ServingState (Serves)

variable {η β : Type*} {cfg : RadixConfig η β}

section Pages

variable {c : RadixCache η β} {holders : List (List Page)}

section

variable (h : Paged cfg.pageSize (⟨c, holders⟩ : RadixState η β))

include h

theorem RadixState.Paged.length_value (hps : 0 < cfg.pageSize) {e : PathNode Page (RadixNode η)}
    (he : e ∈ c.nodes) :
    e.data.value.flatten.length = (nodePages cfg.pageSize e).length * cfg.pageSize := by
  rw [h.whole.flatten_value hps he, Library.length_laid]

theorem RadixState.Paged.dvd_evictableSize (hps : 0 < cfg.pageSize) :
    (cfg.pageSize : ℤ) ∣ c.evictableSize := by
  rw [h.accounts.evictable]
  refine dvd_sum fun x hx => ?_
  obtain ⟨e, he, rfl⟩ := mem_map.mp hx
  rw [RadixCache.evictableLen]
  split
  · rw [← h.filled.length_flatten he, h.length_value hps he, Nat.cast_mul]
    exact dvd_mul_left _ _
  · exact dvd_zero _

end

theorem RadixCache.nodes_decLockRef_incLockRef {p : List Page} (hT : c.nodes.Shaped)
    (hp : c.nodes.Holds p) : ((c.incLockRef p).decLockRef p).nodes = c.nodes := by
  have hinc := RadixCache.nodes_incLockRef hT hp
  rw [RadixCache.nodes_decLockRef (by rw [hinc]; exact hT.mapData)
    (by rw [hinc]; exact PathTree.holds_mapData.mpr hp), hinc]
  rw [PathTree.mapData, PathTree.mapData, map_map]
  refine (map_congr_left fun e _ => ?_).trans (map_id _)
  by_cases hpre : e.path <+: p <;> simp [hpre]

end Pages

namespace PagedMemory

variable {m : PagedMemory η β} {c : RadixCache η β} {holders : List (List Page)}

theorem freedTokens_eq (h : m.Caching cfg c holders) {xs : List (PathNode Page (RadixNode η))}
    (hmem : ∀ x ∈ xs, x ∈ c.nodes) :
    freedTokens xs = (xs.flatMap (nodePages cfg.pageSize)).length * cfg.pageSize := by
  induction xs with
  | nil => simp [freedTokens]
  | cons x xs ih =>
    have hx := h.paged.length_value h.pageSize_pos (hmem x mem_cons_self)
    have ih := ih fun y hy => hmem y (mem_cons_of_mem _ hy)
    rw [freedTokens] at ih ⊢
    rw [map_cons, sum_cons, hx, ih, flatMap_cons, length_append, Nat.add_mul]

theorem Caching.le_availableSize_evict (h : m.Caching cfg c holders)
    (hone : ∀ x, m.pageUses cfg c x ≤ 1) (hgroup : m.allocator.isNotInFreeGroup)
    (pick : List (List Page) → ℕ) (n : ℕ) :
    (m.allocator.availableSize : ℤ) + min (n : ℤ) c.evictableSize ≤
      (m.evict cfg pick n).allocator.availableSize := by
  obtain ⟨c', h', -, huses, hgroup'⟩ := h.evict hone pick n
  obtain ⟨-, hperm, hmem, -⟩ := h.paged.evict pick n
  have hc' : c' = (c.evict cfg pick n).2 := by
    have hcache := h'.cache
    rw [PagedMemory.evict, h.cache] at hcache
    cases hcache
    rfl
  have hlen : (m.evict cfg pick n).allocator.held.length =
      m.allocator.held.length + ((c.evict cfg pick n).1.flatMap (nodePages cfg.pageSize)).length := by
    have hp : ((m.evict cfg pick n).allocator.held ++ treePages cfg.pageSize c'.nodes).Perm
        (m.allocator.held ++ treePages cfg.pageSize c.nodes) := by
      rw [perm_iff_count]
      intro x
      rw [count_append, count_append]
      exact huses x
    have hp' := hp.length_eq
    have hq := hperm.length_eq
    rw [hc'] at hp'
    simp only [length_append] at hp' hq
    omega
  have hbound := (h.paged.toSound.evict cfg pick n).2
  have hfreed := freedTokens_eq h hmem
  dsimp only at hbound
  rw [availableSize_eq hgroup, availableSize_eq (hgroup'.trans hgroup),
    h.pageSize, h'.pageSize, hlen, Nat.add_mul, ← hfreed]
  omega

/-- What a scheduling pass needs of the memory: pages are counted once, and nothing waits in a free
group. -/
structure Stocked (cfg : RadixConfig η β) (m : PagedMemory η β) : Prop where
  serves : Serves cfg m.allocator
  settled : m.allocator.isNotInFreeGroup
  cache : (∃ c, m.cache = .radixCache true c) ∨ ∃ c holders, m.Caching cfg c holders ∧
    ∀ x, m.pageUses cfg c x ≤ 1

def Lockable (m : PagedMemory η β) (node : Option (List Page)) : Prop :=
  ∀ c p, m.cache = .radixCache false c → node = some p → c.nodes.Holds p

def incLockRef (m : PagedMemory η β) (node : Option (List Page)) : PagedMemory η β :=
  { m with cache := m.cache.incLockRef node }

def decLockRef (m : PagedMemory η β) (node : Option (List Page)) : PagedMemory η β :=
  { m with cache := m.cache.decLockRef node }

theorem incLockRef_of_disabled (hc : m.cache = .radixCache true c) (node : Option (List Page)) :
    m.incLockRef node = m := by
  obtain ⟨allocator, rows, cache⟩ := m
  obtain rfl : cache = _ := hc
  rfl

theorem decLockRef_of_disabled (hc : m.cache = .radixCache true c) (node : Option (List Page)) :
    m.decLockRef node = m := by
  obtain ⟨allocator, rows, cache⟩ := m
  obtain rfl : cache = _ := hc
  rfl

@[simp] theorem incLockRef_none : m.incLockRef none = m := by
  obtain ⟨allocator, rows, cache⟩ := m
  rcases cache with _ | ⟨_ | _, c⟩ <;> rfl

@[simp] theorem decLockRef_none : m.decLockRef none = m := by
  obtain ⟨allocator, rows, cache⟩ := m
  rcases cache with _ | ⟨_ | _, c⟩ <;> rfl

namespace Stocked

variable (h : m.Stocked cfg)
include h

theorem pageSize_pos : 0 < cfg.pageSize := h.serves.2 ▸ h.serves.1.pageSize_pos

theorem dvd_availableAndEvictable : (cfg.pageSize : ℤ) ∣ m.availableAndEvictable := by
  refine dvd_add ?_ ?_
  · rw [availableSize_eq h.settled, h.serves.2, Nat.cast_mul]
    exact dvd_mul_left _ _
  · rcases h.cache with ⟨c, hc⟩ | ⟨c, holders, hc, -⟩
    · rw [hc]
      exact dvd_zero _
    · rw [hc.cache]
      exact hc.paged.dvd_evictableSize hc.pageSize_pos

theorem availableAndEvictable_nonneg : 0 ≤ m.availableAndEvictable := by
  refine add_nonneg (Int.natCast_nonneg _) ?_
  rcases h.cache with ⟨c, hc⟩ | ⟨c, holders, hc, -⟩
  · rw [hc]
    exact le_rfl
  · rw [hc.cache]
    change 0 ≤ c.evictableSize
    rw [hc.paged.accounts.evictable]
    refine sum_nonneg fun x hx => ?_
    obtain ⟨e, -, rfl⟩ := mem_map.mp hx
    rw [RadixCache.evictableLen]
    split
    · exact Int.natCast_nonneg _
    · exact le_rfl

theorem evictFromTreeCache (pick : List (List Page) → ℕ) (n : ℕ) :
    Serves cfg (m.evictFromTreeCache cfg pick n).allocator ∧ min m.availableAndEvictable n ≤
        ((m.evictFromTreeCache cfg pick n).allocator.availableSize : ℤ) := by
  refine ⟨(evictFromTreeCache_preserves (P := Serves cfg) (fun _ slots ha => ha.free slots)
    h.serves n).2, ?_⟩
  rcases h.cache with ⟨c, hc⟩ | ⟨c, holders, hc, hone⟩
  · have hsame : m.evictFromTreeCache cfg pick n = m := by
      simp [PagedMemory.evictFromTreeCache, PagedMemory.evict, hc]
    have hzero : m.cache.evictableSize = 0 := by rw [hc]; rfl
    rw [hsame, availableAndEvictable, hzero]
    omega
  · have hev := hc.le_availableSize_evict hone h.settled pick n
    rw [PagedMemory.evictFromTreeCache, hc.cache, availableAndEvictable, hc.cache,
      PrefixCache.evictableSize]
    dsimp only
    split
    · omega
    · omega

theorem incLockRef {node : Option (List Page)} (hl : m.Lockable node) :
    (m.incLockRef node).Stocked cfg ∧ (m.incLockRef node).Lockable node := by
  rcases h.cache with ⟨c, hc⟩ | ⟨c, holders, hc, hone⟩
  · rw [incLockRef_of_disabled hc]
    exact ⟨h, hl⟩
  · cases node with
    | none =>
      rw [incLockRef_none]
      exact ⟨h, hl⟩
    | some p =>
      have hp := hl c p hc.cache rfl
      obtain ⟨hm, htree, -⟩ := hc.incLockRef hp
      refine ⟨⟨h.serves, h.settled, .inr ⟨_, _, hm, fun x => ?_⟩⟩, ?_⟩
      · rw [pageUses, htree]
        exact hone x
      · rintro c' p' hc' ⟨⟩
        rw [PagedMemory.incLockRef, hm.cache] at hc'
        cases hc'
        exact hm.paged.locked.holds p mem_cons_self

theorem decLockRef_incLockRef {node : Option (List Page)} (hl : m.Lockable node) :
    ((m.incLockRef node).decLockRef node).Stocked cfg ∧
      ((m.incLockRef node).decLockRef node).availableAndEvictable = m.availableAndEvictable := by
  rcases h.cache with ⟨c, hc⟩ | ⟨c, holders, hc, hone⟩
  · rw [incLockRef_of_disabled hc, decLockRef_of_disabled hc]
    exact ⟨h, rfl⟩
  · cases node with
    | none =>
      rw [incLockRef_none, decLockRef_none]
      exact ⟨h, rfl⟩
    | some p =>
      have hp := hl c p hc.cache rfl
      obtain ⟨hm, htree, -⟩ := hc.incLockRef hp
      obtain ⟨hm', htree', -⟩ := hm.decLockRef (p := p) mem_cons_self
      refine ⟨⟨h.serves, h.settled, .inr ⟨_, _, hm', fun x => ?_⟩⟩, ?_⟩
      · rw [pageUses, htree', htree]
        exact hone x
      · have hsize : ((c.incLockRef p).decLockRef p).evictableSize = c.evictableSize := by
          rw [hm'.paged.accounts.evictable, hc.paged.accounts.evictable,
            RadixCache.nodes_decLockRef_incLockRef hc.paged.accounts.shaped hp]
        have hcache : ((m.incLockRef (some p)).decLockRef (some p)).cache =
            .radixCache false ((c.incLockRef p).decLockRef p) := hm'.cache
        rw [availableAndEvictable, availableAndEvictable, hcache, hc.cache,
          PrefixCache.evictableSize, PrefixCache.evictableSize, hsize]
        rfl

/-- A lookup: whole cached pages of the request, and a last node that can be locked. -/
theorem initNextRoundInput {r r' : MemReq} {m' : PagedMemory η β}
    (hok : m.initNextRoundInput cfg r = (r', m')) : m'.Stocked cfg ∧
      m'.availableAndEvictable = m.availableAndEvictable ∧ m'.Lockable r'.lastNode ∧
      m'.cache.disable = m.cache.disable ∧
      ∃ prefixIndices lastNode, cfg.pageSize ∣ prefixIndices.length ∧
        prefixIndices.length ≤ r.tokens.length - 1 ∧ r' = { r with
          fillIds := r.tokens
          prefixIndices
          lastNode
          cacheProtectedLen := prefixIndices.length
          extendInputLen := r.tokens.length - prefixIndices.length } := by
  rcases h.cache with ⟨c, hc⟩ | ⟨c, holders, hc, hone⟩
  · have heq : m.initNextRoundInput cfg r = ({ r with
          fillIds := r.tokens
          prefixIndices := []
          lastNode := some []
          cacheProtectedLen := 0
          extendInputLen := r.tokens.length }, m) := by
      obtain ⟨allocator, rows, cache⟩ := m
      obtain rfl : cache = _ := hc
      rfl
    rw [heq] at hok
    cases hok
    refine ⟨h, rfl, fun c' p hc' => ?_, rfl, [], some [], dvd_zero _, Nat.zero_le _, rfl⟩
    rw [hc] at hc'
    cases hc'
  · set key := r.radixKey (r.tokens.take r.maxPrefixLen) with hkey
    have hps := hc.pageSize_pos
    obtain ⟨P, hPle, hidx, -, -⟩ := hc.paged.found hps key
    obtain ⟨hpaged, htree, -, hholds⟩ := hc.paged.matchPrefix key
    have heq : m.initNextRoundInput cfg r = ({ r with
          fillIds := r.tokens
          prefixIndices := (c.matchPrefix cfg.pageSize key).1
          lastNode := some (c.matchPrefix cfg.pageSize key).2.1
          cacheProtectedLen := (c.matchPrefix cfg.pageSize key).1.length
          extendInputLen := r.tokens.length - (c.matchPrefix cfg.pageSize key).1.length },
        { m with cache := .radixCache false (c.matchPrefix cfg.pageSize key).2.2 }) := by
      rw [PagedMemory.initNextRoundInput, hc.cache]
      rfl
    have hlen : (c.matchPrefix cfg.pageSize key).1.length ≤ r.tokens.length - 1 := by
      have hpages : ((key.pageAligned cfg.pageSize).pages cfg.pageSize).length =
          r.maxPrefixLen / cfg.pageSize := by
        rw [RadixKey.length_pages hps]
        rw [RadixKey.pageAligned, hkey, MemReq.radixKey]
        rw [length_take, length_take, Nat.min_eq_left r.maxPrefixLen_le]
        exact Nat.min_eq_left (Nat.div_mul_le_self _ _)
      have hle := Nat.mul_le_mul_right cfg.pageSize (hpages ▸ hPle)
      have hmax : r.maxPrefixLen ≤ r.tokens.length - 1 := Nat.min_le_left _ _
      have hdiv := Nat.div_mul_le_self r.maxPrefixLen cfg.pageSize
      rw [hidx, Library.length_laid]
      omega
    rw [heq] at hok
    cases hok
    refine ⟨⟨h.serves, h.settled, .inr ⟨_, _, hc.setTree hpaged, fun x => ?_⟩⟩, ?_, ?_, ?_, _, _,
      ?_, hlen, rfl⟩
    · rw [pageUses, htree.count_eq]
      exact hone x
    · rw [availableAndEvictable, availableAndEvictable, hc.cache]
      rfl
    · rintro c' p ⟨⟩ ⟨⟩
      exact hholds
    · rw [hc.cache]
      rfl
    · rw [hidx, Library.length_laid]
      exact Nat.dvd_mul_left _ _

end Stocked

theorem stocked_of_settled {s : ServingState η β} {N : ℕ} (h : s.Settled cfg N) :
    s.memory.Stocked cfg := by
  obtain ⟨⟨c, table, hown⟩, hgroup⟩ := h
  exact ⟨hown.base.serves, hgroup, .inr ⟨c, _, hown.caching, hown.memory_uses_le⟩⟩

end PagedMemory

section Uncached

variable {s t : ServingState η β} {flag : Bool}

/-- A memory whose radix cache is off. -/
structure PagedMemory.Uncached (m : PagedMemory η β) (flag : Bool) : Prop where
  cache : ∃ c, m.cache = .radixCache true c
  group : m.allocator.isNotInFreeGroup = flag

namespace PagedMemory.Uncached

variable {m : PagedMemory η β} (h : m.Uncached flag)
include h

theorem free (slots : List ℕ) : (m.free slots).Uncached flag :=
  ⟨h.cache, (m.allocator.isNotInFreeGroup_free slots).trans h.group⟩

theorem evict (pick : List (List Page) → ℕ) (n : ℕ) :
    m.evict cfg pick n = m ∧ m.evictFromTreeCache cfg pick n = m := by
  obtain ⟨c, hc⟩ := h.cache
  simp [PagedMemory.evictFromTreeCache, PagedMemory.evict, hc]

theorem release {r r' : MemReq} {isInsert : Bool} {m' : PagedMemory η β}
    (hrel : m.releaseKvCache cfg r isInsert = .ok (r', m')) : m'.Uncached flag := by
  obtain ⟨idx, -, -, rfl⟩ := releaseKvCache_ok hrel
  obtain ⟨c, hc⟩ := h.cache
  have heq : m.cacheFinishedReq cfg r idx isInsert =
      m.free (m.rows.slice idx 0 r.kvCommittedLen) := by
    rw [cacheFinishedReq, hc]
  have hfree := h.free (m.rows.slice idx 0 r.kvCommittedLen)
  rw [heq]
  exact ⟨hfree.cache, hfree.group⟩

end PagedMemory.Uncached

namespace ServingState

theorem uncached_applyResult {op : ResultOp} (h : s.memory.Uncached flag)
    (hstep : s.applyResult cfg op = .ok t) : t.memory.Uncached flag := by
  obtain ⟨c, hc⟩ := h.cache
  cases op with
  | sample id token =>
    cases hstep
    exact h
  | cacheUnfinished id =>
    simp only [applyResult, PagedMemory.cacheUnfinishedReq, hc] at hstep
    split at hstep
    · cases hstep
    · cases hstep
      exact h
  | finish id isInsert =>
    simp only [applyResult] at hstep
    split at hstep
    · cases hstep
    next r m hrel =>
      cases hstep
      exact h.release hrel
  | rollback id outputIds =>
    simp only [applyResult] at hstep
    split at hstep
    · cases hstep
    · cases hstep
      exact h.free _

/-- A radix cache that is off stays off, and frees are grouped only inside a step. -/
theorem uncached_step {P : ServingState η β → ResultOp → Prop} {op : ServingOp}
    (h : s.memory.Uncached true) (hop : s.Allowed cfg P op) (hstep : s.step cfg op = .ok t) :
    t.memory.Uncached true := by
  obtain ⟨c, hc⟩ := h.cache
  cases op with
  | receive r =>
    cases hstep
    exact h
  | lookup key =>
    cases hstep
    refine ⟨⟨c, ?_⟩, h.group⟩
    rw [hc]
    rfl
  | admitReq id truncLen =>
    cases hstep
    refine ⟨⟨c, ?_⟩, h.group⟩
    simp only [hc]
    rfl
  | nextChunk id truncLen =>
    cases hstep
    exact h
  | extend ids pick =>
    simp only [step] at hstep
    split at hstep
    · cases hstep
    next rs m hext =>
    cases hstep
    obtain ⟨row, out, hext, -⟩ := PagedMemory.prepareForExtend_ok hop.1 hext
    obtain ⟨n, hcache, halloc⟩ := hext.evicted
    rw [(h.evict pick n).2] at hcache halloc
    refine ⟨⟨c, hcache.trans hc⟩, ?_⟩
    have hgroup := isNotInFreeGroup_allocExtend s.memory.allocator
    rw [← h.group, ← hgroup, halloc]
  | decode ids pick =>
    simp only [step] at hstep
    split at hstep
    · cases hstep
    next rs m hdec =>
    cases hstep
    obtain ⟨-, out, hdec⟩ := PagedMemory.prepareForDecode_ok hdec
    obtain ⟨n, hcache, halloc⟩ := hdec.evicted
    rw [(h.evict pick n).2] at hcache halloc
    refine ⟨⟨c, hcache.trans hc⟩, ?_⟩
    have hgroup := isNotInFreeGroup_allocDecode s.memory.allocator
    rw [← h.group, ← hgroup, halloc]
  | results grouped ops =>
    simp only [step] at hstep
    cases grouped with
    | false =>
      exact applyResults_invariant (fun _ _ _ h _ hstep => uncached_applyResult h hstep) hop h hstep
    | true =>
      cases hres : s.freeGroupBegin.applyResults cfg ops with
      | error e =>
        rw [hres] at hstep
        cases hstep
      | ok u =>
        rw [hres] at hstep
        cases hstep
        have hbegin : s.freeGroupBegin.memory.Uncached false :=
          ⟨h.cache, isNotInFreeGroup_freeGroupBegin _⟩
        have hu : u.memory.Uncached false := applyResults_invariant
          (fun _ _ _ h _ hstep => uncached_applyResult h hstep) hop hbegin hres
        exact ⟨hu.cache, isNotInFreeGroup_freeGroupEnd _⟩
  | retract id numTokens pick =>
    simp only [step, releaseReq] at hstep
    split at hstep
    · cases hstep
    next r m hrel =>
    cases hstep
    have hm := h.release hrel
    rw [(hm.evict pick numTokens).2]
    exact hm
  | evict numTokens pick =>
    cases hstep
    rw [(h.evict pick numTokens).1]
    exact h

end ServingState

end Uncached

end LLM42
