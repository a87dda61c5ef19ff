import LLM42.Cache.RadixPages
import LLM42.Serving.Tables

/-! # Pages between a request, the tree and the allocator

A request shares its first pages with the tree and owns the others. What the functions of the cache
do with them: eviction gives pages of the tree back, a finished request gives its own pages to the
tree or to the allocator, and an unfinished one trades duplicates for the pages of the tree. Pages
are counted, so nothing is lost and nothing appears twice. -/

namespace LLM42

open Library List ReqToTokenPool
open RadixCache (contents treePages nodePages)
open RadixState (Paged Keeps SamePages)

section Segments

variable {m n a b : ℕ} {P : List ℕ}

def pageRange (P : List ℕ) (a b : ℕ) : List ℕ := (P.drop a).take (b - a)

theorem laid_range (hm : 0 < m) (hb : b * m ≤ n) :
    ((laid m P n).take (b * m)).drop (a * m) = laid m (pageRange P a b) ((b - a) * m) := by
  rw [take_laid hb, drop_laid hm, ← Nat.sub_mul, pageRange, laid_take hm le_rfl]

theorem length_pageRange (hab : a ≤ b) (hb : b ≤ P.length) : (pageRange P a b).length = b - a := by
  rw [pageRange, length_take, length_drop]
  omega

theorem pageRange_append_drop (hab : a ≤ b) : pageRange P a b ++ P.drop b = P.drop a := by
  have h := take_append_drop (b - a) (P.drop a)
  rwa [drop_drop, Nat.add_sub_cancel' hab] at h

theorem length_drop_laid (hm : 0 < m) (hP : P.length = pageCount m n) (hb : b * m ≤ n) :
    (P.drop b).length = pageCount m (n - b * m) := by
  have h := pageCount_add_mul hm (n - b * m) b
  rw [Nat.sub_add_cancel hb] at h
  rw [length_drop, hP, h, Nat.add_sub_cancel]

theorem count_drop (hab : a ≤ b) (x : ℕ) :
    (P.drop a).count x = (pageRange P a b).count x + (P.drop b).count x := by
  rw [← count_append, pageRange_append_drop hab]

theorem div_mul_le_length (hm : 0 < m) (hP : P.length = pageCount m n) : n / m ≤ P.length := by
  rw [hP]
  have h := pageCount_mono (m := m) (Nat.div_mul_le_self n m)
  rwa [pageCount_mul hm] at h

theorem laid_append_rest {Q : List ℕ} (hm : 0 < m) (hQ : Q.length = b) (hb : b * m ≤ n) :
    (if (laid m Q (b * m)).length < (laid m P n).length then
        laid m Q (b * m) ++ (laid m P n).drop (laid m Q (b * m)).length
      else laid m Q (b * m)) = laid m (Q ++ P.drop b) n := by
  rw [laid_append hm (hQ.symm ▸ hb), hQ, length_laid, length_laid, drop_laid hm]
  split
  · rfl
  next hnot => rw [Nat.sub_eq_zero_of_le (not_lt.mp hnot), laid_zero, append_nil]

theorem slice_write_shared {Q : List ℕ} {rows : ReqToTokenPool} {row : ℕ} (hm : 0 < m) (hab : a ≤ b)
    (hQ : Q.length = b) (hbn : b * m ≤ n) (hrow : rows.slice row 0 n = laid m P n)
    (hold : laid m P (a * m) = laid m Q (a * m)) :
    (rows.write row (a * m) ((laid m Q (b * m)).drop (a * m))).slice row 0 n =
      laid m (Q ++ P.drop b) n := by
  have habm : a * m ≤ b * m := Nat.mul_le_mul_right _ hab
  have hvals : a * m + ((laid m Q (b * m)).drop (a * m)).length = b * m := by
    rw [length_drop, length_laid]
    omega
  have hself := rows.slice_write_self row (a * m) ((laid m Q (b * m)).drop (a * m))
  set rows' := rows.write row (a * m) ((laid m Q (b * m)).drop (a * m)) with hrows'
  rw [hvals] at hself
  calc rows'.slice row 0 n = rows'.slice row 0 (b * m) ++ rows'.slice row (b * m) n :=
        (rows'.slice_append (Nat.zero_le _) hbn).symm
    _ = laid m Q (b * m) ++ laid m (P.drop b) (n - b * m) := by
        congr 1
        · rw [← rows'.slice_append (Nat.zero_le _) habm, hself, hrows', slice_write_of_le _ le_rfl,
            (slice_of_slice (habm.trans hbn)).1, hrow,
            take_laid (habm.trans hbn), hold, ← take_laid habm,
            take_append_drop]
        · rw [hrows', slice_write_of_ge hvals.le, (slice_of_slice hbn).2, hrow, drop_laid hm]
    _ = laid m (Q ++ P.drop b) n := by rw [laid_append hm (hQ.symm ▸ hbn), hQ]

end Segments

namespace KVAllocator

variable {a : KVAllocator} {Q : List ℕ} {n : ℕ}

theorem count_held_free (hwf : a.Wf) (hQ : Q.length = pageCount a.pageSize n)
    (hone : ∀ x, Q.count x + a.held.count x ≤ 1) (x : ℕ) :
    (a.free (laid a.pageSize Q n)).held.count x = Q.count x + a.held.count x := by
  rw [(held_free hwf hQ ?_).count_eq, count_append]
  rw [nodup_iff_count_le_one]
  simpa [count_append] using hone

end KVAllocator

namespace MemReq

variable {η β : Type*} (cfg : RadixConfig η β)

def path (r : MemReq) (n : ℕ) : List Page := (r.radixKey (r.tokens.take n)).pages cfg.pageSize

def sharedPages (r : MemReq) : ℕ := r.cacheProtectedLen / cfg.pageSize

/-- The first pages of the table `P` are those that the tree stores for the tokens. -/
structure Shares (c : RadixCache η β) (r : MemReq) (P : List ℕ) : Prop where
  aligned : r.cacheProtectedLen = r.sharedPages cfg * cfg.pageSize
  le : r.cacheProtectedLen ≤ r.tokens.length
  node : r.lastNode = some (r.path cfg r.cacheProtectedLen)
  stored : ∀ i < r.sharedPages cfg, contents c.nodes ((r.path cfg r.cacheProtectedLen).take (i + 1)) =
    some (pageSlots cfg.pageSize (P.getD i 0))

/-- The KV of a request that owns a row is laid over the pages `P`. -/
structure Tabled (c : RadixCache η β) (rows : ReqToTokenPool) (r : MemReq) (P : List ℕ) : Prop where
  table : rows.slice r.row 0 r.kvCommittedLen = laid cfg.pageSize P r.kvCommittedLen
  length : P.length = pageCount cfg.pageSize r.kvCommittedLen
  shares : r.Shares cfg c P
  prefixIndices : r.prefixIndices = rows.slice r.row 0 r.prefixIndices.length
  cached : r.cacheProtectedLen ≤ r.prefixIndices.length
  known : r.prefixIndices.length ≤ r.kvCommittedLen
  fill : r.prefixIndices.length ≤ r.fillIds.length
  tokens : r.fillIds <+: r.tokens
  lens : r.encoderLen + r.seqLen = r.kvCommittedLen

variable {cfg} {c c' : RadixCache η β} {rows rows' : ReqToTokenPool} {r r' : MemReq} {P : List ℕ}

theorem Shares.keeps (h : r.Shares cfg c P)
    (hc : ∀ q, q <+: r.lastNode.getD [] → contents c'.nodes q = contents c.nodes q) :
    r.Shares cfg c' P where
  aligned := h.aligned
  le := h.le
  node := h.node
  stored i hi := by
    rw [hc _ ?_, h.stored i hi]
    rw [h.node]
    exact take_prefix _ _

theorem Shares.congr (h : r.Shares cfg c P)
    (hcpl : r'.cacheProtectedLen = r.cacheProtectedLen) (hnode : r'.lastNode = r.lastNode)
    (hextra : r'.extraKey = r.extraKey) (hle : r.cacheProtectedLen ≤ r'.tokens.length)
    (htake : r'.tokens.take r.cacheProtectedLen = r.tokens.take r.cacheProtectedLen) :
    r'.Shares cfg c P := by
  have hshared : r'.sharedPages cfg = r.sharedPages cfg := by
    rw [sharedPages, hcpl, sharedPages]
  have hpath : r'.path cfg r'.cacheProtectedLen = r.path cfg r.cacheProtectedLen := by
    rw [hcpl, path, path, radixKey, radixKey, htake, hextra]
  refine ⟨?_, hcpl ▸ hle, ?_, fun i hi => ?_⟩
  · rw [hcpl, hshared]
    exact h.aligned
  · rw [hpath, hnode]
    exact h.node
  · rw [hpath]
    exact h.stored i (hshared ▸ hi)

theorem Shares.table (h : r.Shares cfg c P) {P' : List ℕ}
    (hP : ∀ i < r.sharedPages cfg, P'.getD i 0 = P.getD i 0) : r.Shares cfg c P' :=
  { h with stored := fun i hi => by rw [hP i hi]; exact h.stored i hi }

theorem Tabled.keeps (h : r.Tabled cfg c rows P)
    (hc : ∀ q, q <+: r.lastNode.getD [] → contents c'.nodes q = contents c.nodes q)
    (hrows : ∀ j, rows'.reqToToken r.row j = rows.reqToToken r.row j) : r.Tabled cfg c' rows' P :=
  { h with
    table := (slice_eq_of_row hrows).trans h.table
    shares := h.shares.keeps hc
    prefixIndices := h.prefixIndices.trans (slice_eq_of_row hrows).symm }

theorem path_take (hps : 0 < cfg.pageSize) {k n : ℕ} (hk : k * cfg.pageSize ≤ n)
    (hn : n ≤ r.tokens.length) :
    (r.path cfg n).take k = r.path cfg (k * cfg.pageSize) := by
  simp only [path, radixKey, RadixKey.pages]
  rw [← map_take, ← toPages_take hps, take_take, Nat.min_eq_left hk]
  rw [length_take]
  omega

theorem length_path (hps : 0 < cfg.pageSize) {k : ℕ} (hk : k * cfg.pageSize ≤ r.tokens.length) :
    (r.path cfg (k * cfg.pageSize)).length = k := by
  rw [path, RadixKey.length_pages hps]
  rw [radixKey, length_take, Nat.min_eq_left hk]

theorem Shares.stored_take (h : r.Shares cfg c P) (hps : 0 < cfg.pageSize) {n i : ℕ}
    (hn : n ≤ r.tokens.length) (hle : r.cacheProtectedLen ≤ n) (hi : i < r.sharedPages cfg) :
    contents c.nodes ((r.path cfg n).take (i + 1)) = some (pageSlots cfg.pageSize (P.getD i 0)) := by
  have hmul : (i + 1) * cfg.pageSize ≤ r.sharedPages cfg * cfg.pageSize := Nat.mul_le_mul_right _ hi
  have hst := h.stored i hi
  have hal := h.aligned
  rw [path_take hps (by omega) h.le] at hst
  rw [path_take hps (by omega) hn]
  exact hst

end MemReq

namespace PagedMemory

variable {η β : Type*} {cfg : RadixConfig η β} {m m' : PagedMemory η β} {c : RadixCache η β}
  {holders : List (List Page)} {pick : List (List Page) → ℕ} {r r' : MemReq} {P : List ℕ}

/-- A memory with prefix caching on; `holders` hold the locks of the tree. -/
structure Caching (cfg : RadixConfig η β) (m : PagedMemory η β) (c : RadixCache η β)
    (holders : List (List Page)) : Prop where
  cache : m.cache = .radixCache false c
  paged : Paged cfg.pageSize (⟨c, holders⟩ : RadixState η β)
  wf : m.allocator.Wf
  pageSize : m.allocator.pageSize = cfg.pageSize

def pageUses (cfg : RadixConfig η β) (m : PagedMemory η β) (c : RadixCache η β) (x : ℕ) : ℕ :=
  m.allocator.held.count x + (treePages cfg.pageSize c.nodes).count x

theorem Caching.pageSize_pos (h : m.Caching cfg c holders) : 0 < cfg.pageSize :=
  h.pageSize ▸ h.wf.pageSize_pos

theorem Caching.perm (h : m.Caching cfg c holders) {holders' : List (List Page)}
    (hp : holders.Perm holders') : m.Caching cfg c holders' :=
  ⟨h.cache, h.paged.perm hp, h.wf, h.pageSize⟩

section Evict

theorem count_held_foldl_free (xs : List (PathNode Page (RadixNode η))) {a : KVAllocator}
    (hwf : a.Wf) (hval : ∀ x ∈ xs, x.data.value.flatten =
      laid a.pageSize (nodePages a.pageSize x) ((nodePages a.pageSize x).length * a.pageSize))
    (hone : ∀ y, (xs.flatMap (nodePages a.pageSize)).count y + a.held.count y ≤ 1) (y : ℕ) :
    (xs.foldl (fun a x => a.free x.data.value.flatten) a).held.count y =
      (xs.flatMap (nodePages a.pageSize)).count y + a.held.count y := by
  induction xs generalizing a with
  | nil => simp
  | cons x xs ih =>
    simp only [flatMap_cons, count_append] at hone ⊢
    have hfree : ∀ y, (a.free x.data.value.flatten).held.count y =
        (nodePages a.pageSize x).count y + a.held.count y := fun y => by
      rw [hval x mem_cons_self]
      refine KVAllocator.count_held_free hwf (pageCount_mul hwf.pageSize_pos _).symm (fun y => ?_) y
      have := hone y
      omega
    have hps := a.pageSize_free x.data.value.flatten
    have hrest := ih (hwf.free _) (by rw [hps]; exact fun z hz => hval z (mem_cons_of_mem _ hz))
      (fun y => by
        have := hone y
        rw [hps, hfree]
        omega)
    rw [foldl_cons, hrest, hps, hfree]
    omega

variable (h : m.Caching cfg c holders)
include h

theorem Caching.evict (hone : ∀ x, m.pageUses cfg c x ≤ 1) (pick : List (List Page) → ℕ) (n : ℕ) :
    ∃ c', (m.evict cfg pick n).Caching cfg c' holders ∧ Keeps holders c c' ∧
      (∀ x, (m.evict cfg pick n).pageUses cfg c' x = m.pageUses cfg c x) ∧
      (m.evict cfg pick n).allocator.isNotInFreeGroup = m.allocator.isNotInFreeGroup := by
  obtain ⟨hpaged, hperm, hmem, hkeep⟩ := h.paged.evict pick n
  have heq : m.evict cfg pick n = { m with
      allocator := (c.evict cfg pick n).1.foldl (fun a x => a.free x.data.value.flatten) m.allocator
      cache := .radixCache false (c.evict cfg pick n).2 } := by
    rw [PagedMemory.evict, h.cache]
  have hcount : ∀ x, (treePages cfg.pageSize c.nodes).count x =
      ((c.evict cfg pick n).1.flatMap (nodePages cfg.pageSize)).count x +
        (treePages cfg.pageSize (c.evict cfg pick n).2.nodes).count x := fun x => by
    rw [hperm.count_eq, count_append]
  have hfree := count_held_foldl_free (c.evict cfg pick n).1 h.wf (fun x hx => by
      rw [h.pageSize]
      exact h.paged.whole.flatten_value h.pageSize_pos (hmem x hx))
    (fun y => by
      have h1 := hone y
      have h2 := hcount y
      rw [pageUses] at h1
      rw [h.pageSize]
      omega)
  obtain ⟨hwf, hps⟩ : (m.evict cfg pick n).allocator.Wf ∧
      (m.evict cfg pick n).allocator.pageSize = cfg.pageSize :=
    (evictFromTreeCache_preserves (P := fun a => a.Wf ∧ a.pageSize = cfg.pageSize)
      (fun a slots ha => ⟨ha.1.free slots, (a.pageSize_free slots).trans ha.2⟩)
      ⟨h.wf, h.pageSize⟩ n).1
  have hgroup : (m.evict cfg pick n).allocator.isNotInFreeGroup = m.allocator.isNotInFreeGroup :=
    (evictFromTreeCache_preserves (P := fun a => a.isNotInFreeGroup = m.allocator.isNotInFreeGroup)
      (fun a slots ha => (a.isNotInFreeGroup_free slots).trans ha) rfl n).1
  refine ⟨(c.evict cfg pick n).2, ⟨by rw [heq], hpaged, hwf, hps⟩, hkeep, fun x => ?_, hgroup⟩
  have h1 := hcount x
  have h2 := hfree x
  rw [h.pageSize] at h2
  rw [pageUses, pageUses, heq]
  dsimp only
  omega

theorem Caching.evictFromTreeCache (hone : ∀ x, m.pageUses cfg c x ≤ 1)
    (pick : List (List Page) → ℕ) (n : ℕ) :
    ∃ c', (m.evictFromTreeCache cfg pick n).Caching cfg c' holders ∧ Keeps holders c c' ∧
      (∀ x, (m.evictFromTreeCache cfg pick n).pageUses cfg c' x = m.pageUses cfg c x) ∧
      (m.evictFromTreeCache cfg pick n).allocator.isNotInFreeGroup =
        m.allocator.isNotInFreeGroup := by
  rw [PagedMemory.evictFromTreeCache, h.cache]
  dsimp only
  split
  · exact h.evict hone pick n
  · exact ⟨c, h, fun _ _ _ _ => rfl, fun _ => rfl, rfl⟩

end Evict

section Insert

theorem pageAligned_radixKey {n : ℕ} (hn : n ≤ r.tokens.length) :
    (r.radixKey (r.tokens.take n)).pageAligned cfg.pageSize =
      r.radixKey (r.tokens.take (n / cfg.pageSize * cfg.pageSize)) := by
  simp only [RadixKey.pageAligned, MemReq.radixKey, length_take, Nat.min_eq_left hn,
    take_take, Nat.min_eq_left (Nat.div_mul_le_self n cfg.pageSize)]

section

variable (h : m.Caching cfg c holders)

include h

theorem Caching.free {Q : List ℕ} {n : ℕ} (hQ : Q.length = pageCount cfg.pageSize n)
    (hone : ∀ x, Q.count x + m.allocator.held.count x ≤ 1) :
    (m.free (laid cfg.pageSize Q n)).Caching cfg c holders ∧
      ∀ x, (m.free (laid cfg.pageSize Q n)).allocator.held.count x =
        Q.count x + m.allocator.held.count x := by
  refine ⟨⟨h.cache, h.paged, h.wf.free _, (m.allocator.pageSize_free _).trans h.pageSize⟩,
    fun x => ?_⟩
  have := KVAllocator.count_held_free (a := m.allocator) h.wf (h.pageSize ▸ hQ) hone x
  rwa [h.pageSize] at this

theorem Caching.setTree {c' : RadixCache η β} {holders' : List (List Page)}
    (hp : Paged cfg.pageSize (⟨c', holders'⟩ : RadixState η β)) :
    ({ m with cache := .radixCache false c' } : PagedMemory η β).Caching cfg c' holders' :=
  ⟨rfl, hp, h.wf, h.pageSize⟩

/-- The whole pages of a table go into the tree, and those it had already are freed. -/
theorem Caching.insertTable (hr : r.Shares cfg c P) {b : ℕ} (hb : b * cfg.pageSize ≤ r.tokens.length)
    (hbP : b ≤ P.length) (hkb : r.sharedPages cfg ≤ b)
    (hone : ∀ x, m.pageUses cfg c x + (P.drop (r.sharedPages cfg)).count x ≤ 1) :
    ∃ j ≤ b, ∃ c',
      c.insert cfg (r.radixKey (r.tokens.take (b * cfg.pageSize)))
        (laid cfg.pageSize P (b * cfg.pageSize)) = (j * cfg.pageSize, c') ∧
      Paged cfg.pageSize (⟨c', holders⟩ : RadixState η β) ∧ Keeps holders c c' ∧
      (m.free (laid cfg.pageSize (pageRange P (r.sharedPages cfg) j)
        ((j - r.sharedPages cfg) * cfg.pageSize))).Caching cfg c holders ∧
      ∀ x, (m.free (laid cfg.pageSize (pageRange P (r.sharedPages cfg) j)
          ((j - r.sharedPages cfg) * cfg.pageSize))).pageUses cfg c' x + (P.drop b).count x =
        m.pageUses cfg c x + (P.drop (r.sharedPages cfg)).count x := by
  have hps := h.pageSize_pos
  have hlen : (P.take b).length = b := by
    rw [length_take]
    omega
  have hklen : (r.radixKey (r.tokens.take (b * cfg.pageSize))).tokenIds.length =
      (P.take b).length * cfg.pageSize := by
    rw [hlen, MemReq.radixKey, length_take, Nat.min_eq_left hb]
  obtain ⟨j, hj, hfst, hpaged, hperm, hcont, hmiss⟩ := h.paged.insert hps hklen
  rw [hlen] at hj hmiss
  rw [hlen, laid_take hps le_rfl] at hfst hpaged hperm hcont
  have hkj : r.sharedPages cfg ≤ j := by
    by_contra hlt
    have hstored := hr.stored_take hps hb (hr.aligned ▸ Nat.mul_le_mul_right _ hkb) (not_le.mp hlt)
    rw [MemReq.path, hmiss (by omega)] at hstored
    cases hstored
  have hsplit : ∀ x, (P.drop (r.sharedPages cfg)).count x =
      (pageRange P (r.sharedPages cfg) j).count x + (pageRange P j b).count x +
        (P.drop b).count x := fun x => by
    rw [count_drop hkj, count_drop hj, Nat.add_assoc]
  simp only [pageUses] at hone ⊢
  obtain ⟨hfree, hheld⟩ := h.free (Q := pageRange P (r.sharedPages cfg) j)
    (n := (j - r.sharedPages cfg) * cfg.pageSize)
    (by rw [pageCount_mul hps, length_pageRange hkj (hj.trans hbP)])
    (fun x => by have := hone x; have := hsplit x; omega)
  refine ⟨j, hj, _, Prod.ext hfst rfl, hpaged, h.paged.keeps_insert hcont, hfree, fun x => ?_⟩
  rw [hheld, hsplit, hperm.count_eq, count_append, drop_take, pageRange, pageRange]
  omega

theorem Caching.decLockRef {p : List Page} (hp : p ∈ holders) :
    ({ m with cache := m.cache.decLockRef (some p) } : PagedMemory η β).Caching cfg
        (c.decLockRef p) (holders.erase p) ∧ SamePages cfg.pageSize c.nodes (c.decLockRef p).nodes := by
  obtain ⟨hpaged, hsame⟩ := h.paged.decLockRef hp
  refine ⟨⟨?_, hpaged, h.wf, h.pageSize⟩, hsame⟩
  rw [h.cache]
  rfl

theorem Caching.incLockRef {p : List Page} (hp : c.nodes.Holds p) :
    ({ m with cache := m.cache.incLockRef (some p) } : PagedMemory η β).Caching cfg
        (c.incLockRef p) (p :: holders) ∧ SamePages cfg.pageSize c.nodes (c.incLockRef p).nodes := by
  obtain ⟨hpaged, hsame⟩ := h.paged.incLockRef hp
  refine ⟨⟨?_, hpaged, h.wf, h.pageSize⟩, hsame⟩
  rw [h.cache]
  rfl

/-- A finished request leaves its own pages to the tree and to the allocator. -/
theorem Caching.cacheFinishedReq (hr : r.Tabled cfg c m.rows P)
    (hkv : r.kvCommittedLen ≤ r.tokens.length) (hlock : r.lastNode.getD [] ∈ holders)
    (hone : ∀ x, m.pageUses cfg c x + (P.drop (r.sharedPages cfg)).count x ≤ 1) (isInsert : Bool) :
    ∃ c', (m.cacheFinishedReq cfg r r.row isInsert).Caching cfg c'
        (holders.erase (r.lastNode.getD [])) ∧ Keeps holders c c' ∧
      (∀ x, (m.cacheFinishedReq cfg r r.row isInsert).pageUses cfg c' x =
        m.pageUses cfg c x + (P.drop (r.sharedPages cfg)).count x) ∧
      (m.cacheFinishedReq cfg r r.row isInsert).rows = m.rows ∧
      (m.cacheFinishedReq cfg r r.row isInsert).allocator.isNotInFreeGroup =
        m.allocator.isNotInFreeGroup := by
  have hps := h.pageSize_pos
  set b := r.kvCommittedLen / cfg.pageSize with hb
  have hbkv : b * cfg.pageSize ≤ r.kvCommittedLen := Nat.div_mul_le_self _ _
  have hbP : b ≤ P.length := div_mul_le_length hps hr.length
  have hkb : r.sharedPages cfg ≤ b := Nat.div_le_div_right (hr.cached.trans hr.known)
  have hcpl := hr.shares.aligned
  have hnode : r.lastNode = some (r.lastNode.getD []) := by rw [hr.shares.node]; rfl
  have hkeyLen : (r.radixKey (r.tokens.take (b * cfg.pageSize))).tokenIds.length =
      b * cfg.pageSize := by
    rw [MemReq.radixKey, length_take, Nat.min_eq_left (hbkv.trans hkv)]
  have hrest := length_drop_laid hps hr.length hbkv
  have htokens : (r.tokens.take r.kvCommittedLen).length = r.kvCommittedLen := by
    rw [length_take, Nat.min_eq_left hkv]
  simp only [PagedMemory.cacheFinishedReq, h.cache, htokens, pageAligned_radixKey hkv, ← hb,
    hkeyLen, hr.table]
  rw [hnode]
  cases isInsert with
  | true =>
    obtain ⟨j, hjb, c', hins, hpaged, hkeep, h1, huses⟩ :=
      h.insertTable hr.shares (hbkv.trans hkv) hbP hkb hone
    have hj : j * cfg.pageSize ≤ r.kvCommittedLen := (Nat.mul_le_mul_right _ hjb).trans hbkv
    simp only [take_laid hbkv, hins, if_true]
    rw [hcpl, laid_range hps hj, drop_laid hps]
    simp only [pageUses] at hone huses
    obtain ⟨h2, hheld2⟩ := (h1.setTree hpaged).free hrest (fun x => by
        have := hone x; have := huses x
        dsimp only
        omega)
    obtain ⟨h3, htree3, hcont3⟩ := h2.decLockRef hlock
    refine ⟨_, h3, fun p hp q hq => (hcont3 q).trans (hkeep p hp q hq), fun x => ?_, rfl, by simp⟩
    have := hheld2 x
    have := huses x
    rw [pageUses, pageUses, htree3]
    dsimp only [free] at *
    omega
  | false =>
    simp only [Bool.false_eq_true, if_false]
    rw [hcpl, laid_range hps hbkv, drop_laid hps]
    simp only [pageUses] at hone
    obtain ⟨h1, hheld1⟩ := h.free (Q := pageRange P (r.sharedPages cfg) b)
      (n := (b - r.sharedPages cfg) * cfg.pageSize)
      (by rw [pageCount_mul hps, length_pageRange hkb hbP])
      (fun x => by have := hone x; have := count_drop (P := P) hkb x; omega)
    obtain ⟨h2, hheld2⟩ := h1.free hrest (fun x => by
        have := hone x; have := count_drop (P := P) hkb x; have := hheld1 x; omega)
    obtain ⟨h3, htree3, hcont3⟩ := h2.decLockRef hlock
    refine ⟨_, h3, fun p hp q hq => hcont3 q, fun x => ?_, rfl, by simp⟩
    have := count_drop (P := P) hkb x
    have := hheld1 x
    have := hheld2 x
    rw [pageUses, pageUses, htree3]
    dsimp only [free] at *
    omega

theorem Caching.rematch (hr : r.Shares cfg c P) {b : ℕ} (hb : b * cfg.pageSize ≤ r.tokens.length)
    (hkb : r.sharedPages cfg ≤ b) {newIndices : List ℕ} {newLastNode : List Page}
    {c' : RadixCache η β}
    (hmatch : c.matchPrefix cfg.pageSize (r.radixKey (r.tokens.take (b * cfg.pageSize))) =
      (newIndices, newLastNode, c')) (hlen : newIndices.length = b * cfg.pageSize) :
    ∃ Q : List ℕ, Q.length = b ∧ newIndices = laid cfg.pageSize Q (b * cfg.pageSize) ∧
      newLastNode = r.path cfg (b * cfg.pageSize) ∧
      laid cfg.pageSize P (r.sharedPages cfg * cfg.pageSize) =
        laid cfg.pageSize Q (r.sharedPages cfg * cfg.pageSize) ∧
      (∀ i < b, contents c'.nodes ((r.path cfg (b * cfg.pageSize)).take (i + 1)) =
        some (pageSlots cfg.pageSize (Q.getD i 0))) ∧
      Paged cfg.pageSize (⟨c', holders⟩ : RadixState η β) ∧
      (∀ x, (treePages cfg.pageSize c'.nodes).count x = (treePages cfg.pageSize c.nodes).count x) ∧
      (∀ q, contents c'.nodes q = contents c.nodes q) ∧ c'.nodes.Holds newLastNode := by
  have hps := h.pageSize_pos
  obtain ⟨Q, -, hidx, hnode, hstored⟩ := h.paged.found hps
    (r.radixKey (r.tokens.take (b * cfg.pageSize)))
  obtain ⟨hpaged, htree, hcont, hholds⟩ := h.paged.matchPrefix
    (r.radixKey (r.tokens.take (b * cfg.pageSize)))
  rw [hmatch] at hidx hnode hpaged htree hcont hholds
  dsimp only at hidx hnode hpaged htree hcont hholds
  rw [pageAligned_radixKey hb, Nat.mul_div_cancel _ hps] at hnode hstored
  have hQ : Q.length = b := by
    rw [hidx, length_laid] at hlen
    exact Nat.eq_of_mul_eq_mul_right hps hlen
  have hget : ∀ i < b, contents c.nodes ((r.path cfg (b * cfg.pageSize)).take (i + 1)) =
      some (pageSlots cfg.pageSize (Q.getD i 0)) := by
    intro i hi
    rw [getD_eq_getElem _ _ (hQ ▸ hi)]
    exact hstored i (hQ ▸ hi)
  refine ⟨Q, hQ, hQ ▸ hidx, ?_, ?_, fun i hi => (hcont _).trans (hget i hi), hpaged,
    fun x => htree.count_eq x, hcont, hholds⟩
  · rw [hnode, hQ]
    exact take_of_length_le (MemReq.length_path hps hb).le
  · refine laid_congr hps fun i hi => pageSlots_injective hps ?_
    have hold := hr.stored_take hps hb (hr.aligned ▸ Nat.mul_le_mul_right _ hkb) hi
    exact Option.some.inj (hold.symm.trans (hget i (hi.trans_le hkb)))

/-- An unfinished request hands its whole pages to the tree and shares what the tree has. -/
theorem Caching.cacheUnfinishedReq (hr : r.Tabled cfg c m.rows P)
    (hfill : r.fillIds.length ≤ r.kvCommittedLen) (hlock : r.lastNode.getD [] ∈ holders)
    (hone : ∀ x, m.pageUses cfg c x + (P.drop (r.sharedPages cfg)).count x ≤ 1)
    (hok : m.cacheUnfinishedReq cfg r r.row = .ok (r', m')) :
    ∃ c' P', m'.Caching cfg c' (r'.lastNode.getD [] :: holders.erase (r.lastNode.getD [])) ∧
      Keeps holders c c' ∧ r'.Tabled cfg c' m'.rows P' ∧ r'.row = r.row ∧
      (∀ x, m'.pageUses cfg c' x + (P'.drop (r'.sharedPages cfg)).count x =
        m.pageUses cfg c x + (P.drop (r.sharedPages cfg)).count x) ∧
      (∀ i ≠ r.row, ∀ j, m'.rows.reqToToken i j = m.rows.reqToToken i j) ∧
      m'.rows.freeSlots = m.rows.freeSlots ∧
      m'.allocator.isNotInFreeGroup = m.allocator.isNotInFreeGroup := by
  have hps := h.pageSize_pos
  set b := r.fillIds.length / cfg.pageSize with hb
  have htok : r.fillIds = r.tokens.take r.fillIds.length := prefix_iff_eq_take.mp hr.tokens
  have hftok : r.fillIds.length ≤ r.tokens.length := hr.tokens.length_le
  have hbf : b * cfg.pageSize ≤ r.fillIds.length := Nat.div_mul_le_self _ _
  have hbtok := hbf.trans hftok
  have hbP : b ≤ P.length := (Nat.div_le_div_right hfill).trans (div_mul_le_length hps hr.length)
  have hkb : r.sharedPages cfg ≤ b := Nat.div_le_div_right (hr.cached.trans hr.fill)
  have hcpl := hr.shares.aligned
  have hnode : r.lastNode = some (r.lastNode.getD []) := by rw [hr.shares.node]; rfl
  have hkeyLen : (r.radixKey (r.tokens.take (b * cfg.pageSize))).tokenIds.length =
      b * cfg.pageSize := by
    rw [MemReq.radixKey, length_take, Nat.min_eq_left hbtok]
  have hkey : (r.radixKey r.fillIds).pageAligned cfg.pageSize =
      r.radixKey (r.tokens.take (b * cfg.pageSize)) := by
    rw [hb, ← pageAligned_radixKey hftok, ← htok]
  have hslice : m.rows.slice r.row 0 r.fillIds.length = laid cfg.pageSize P r.fillIds.length := by
    rw [(slice_of_slice hfill).1, hr.table, take_laid hfill]
  obtain ⟨j, hjb, c₁, hins, hpaged, hkeep, h1, huses⟩ := h.insertTable hr.shares hbtok hbP hkb hone
  have hj : j * cfg.pageSize ≤ r.fillIds.length := (Nat.mul_le_mul_right _ hjb).trans hbf
  simp only [PagedMemory.cacheUnfinishedReq, h.cache, hkey, hkeyLen, hslice,
    take_laid hbf, hins] at hok
  rw [hcpl, laid_range hps hj] at hok
  have h2 := h1.setTree hpaged
  cases hmatch : c₁.matchPrefix cfg.pageSize (r.radixKey (r.tokens.take (b * cfg.pageSize))) with
  | mk newIndices rest =>
  obtain ⟨newLastNode, c₂⟩ := rest
  rw [hmatch] at hok
  split at hok
  · cases hok
  next hlen =>
  have hlen := not_not.mp hlen
  obtain ⟨Q, hQ, rfl, rfl, hold, hstored, hpaged₂, htree₂, hcont₂, hholds⟩ :=
    h2.rematch (hr.shares.keeps fun q hq => hkeep _ hlock q hq) hbtok hkb hmatch hlen
  -- the lock moves to the last node found
  obtain ⟨h3, htree₃, hcont₃⟩ := (h2.setTree hpaged₂).decLockRef hlock
  have hholds₃ : (c₂.decLockRef (r.lastNode.getD [])).nodes.Holds (r.path cfg (b * cfg.pageSize)) := by
    rw [RadixCache.nodes_decLockRef hpaged₂.accounts.shaped (hpaged₂.locked.holds _ hlock)]
    exact PathTree.holds_mapData.mpr hholds
  obtain ⟨h4, htree₄, hcont₄⟩ := h3.incLockRef hholds₃
  -- the row below the inserted pages now holds the pages of the tree
  set rows' := m.rows.write r.row (r.sharedPages cfg * cfg.pageSize)
    ((laid cfg.pageSize Q (b * cfg.pageSize)).drop (r.sharedPages cfg * cfg.pageSize)) with hrows'
  have htable : ∀ n, b * cfg.pageSize ≤ n → n ≤ r.kvCommittedLen →
      rows'.slice r.row 0 n = laid cfg.pageSize (Q ++ P.drop b) n := fun n hbn hn =>
    slice_write_shared hps hkb hQ hbn (by rw [(slice_of_slice hn).1, hr.table, take_laid hn]) hold
  have hlen' : (Q ++ P.drop b).length = P.length := by
    rw [length_append, hQ, length_drop]
    omega
  cases hok
  refine ⟨_, Q ++ P.drop b, ⟨?_, h4.paged, h4.wf, h4.pageSize⟩, ?_, ?_, rfl, ?_, ?_, rfl, ?_⟩
  · rw [hnode]
    rfl
  · exact fun p hp q hq => (hcont₄ q).trans ((hcont₃ q).trans ((hcont₂ q).trans (hkeep p hp q hq)))
  · have hshared : ∀ r' : MemReq, r'.cacheProtectedLen = b * cfg.pageSize → r'.sharedPages cfg = b :=
      fun r' hr' => by rw [MemReq.sharedPages, hr', Nat.mul_div_cancel _ hps]
    have hpre := laid_append_rest (P := P) hps hQ hbf
    constructor
    · exact htable _ (hbf.trans hfill) le_rfl
    · exact hlen'.trans hr.length
    · refine ⟨?_, ?_, ?_, fun i hi => ?_⟩
      · rw [hshared _ length_laid]
        exact length_laid
      · exact length_laid.trans_le hbtok
      · exact congrArg some (congrArg (r.path cfg) length_laid.symm)
      · rw [hshared _ length_laid] at hi
        rw [hcont₄, hcont₃, getD_append _ _ _ _ (hQ ▸ hi), ← hstored i hi]
        exact congrArg (fun n => contents c₂.nodes ((r.path cfg n).take (i + 1))) length_laid
    · rw [hpre]
      exact (htable _ hbf hfill).symm.trans (congrArg (rows'.slice r.row 0) length_laid.symm)
    · rw [hpre, length_laid, length_laid]
      exact hbf
    · rw [hpre, length_laid]
      exact hfill
    · rw [hpre, length_laid]
    · exact hr.tokens
    · exact hr.lens
  · intro x
    have hdrop : (Q ++ P.drop b).drop (MemReq.sharedPages cfg
        { r with cacheProtectedLen := (laid cfg.pageSize Q (b * cfg.pageSize)).length }) =
        P.drop b := by
      rw [MemReq.sharedPages, length_laid, Nat.mul_div_cancel _ hps, drop_left' hQ]
    have huse := huses x
    have := htree₂ x
    rw [pageUses] at huse
    rw [pageUses, htree₄, htree₃]
    change _ + _ + ((Q ++ P.drop b).drop (MemReq.sharedPages cfg
      { r with cacheProtectedLen := (laid cfg.pageSize Q (b * cfg.pageSize)).length })).count x = _
    rw [hdrop]
    dsimp only [free] at *
    omega
  · exact fun i hi j => write_reqToToken_of_ne hi j
  · simp

end

end Insert

end PagedMemory

end LLM42
