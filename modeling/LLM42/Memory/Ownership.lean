import LLM42.Memory.TreeCache

/-! # What the memory operations do to slots and locks

One specification for each operation: which slots it moves between a request, the prefix tree and
the allocator, and which lock counts it may lower. -/

namespace LLM42

open List

/-- The keys that a request keeps locked; a released request holds nothing. -/
def KvFields.lockPaths (kv : KvFields) : List (List (Option String × Token)) :=
  if kv.kvCommittedFreed then [] else (kv.lastNode.map NodeRef.key).toList

def passing (q : List (Option String × Token)) (paths : List (List (Option String × Token))) : ℕ :=
  paths.countP fun p => decide (q <+: p)

namespace TreeCache

variable (t : TreeCache) (q : List (Option String × Token))

def depth : TreeCache → List (Option String × Token) → ℕ
  | chunkCache, _ => 0
  | radixCache f _, key => f.depth key

/-- Some node ends where `node` points. -/
def HasNode : TreeCache → Option NodeRef → Prop
  | radixCache f _, some n => f.AtBoundary n.key
  | chunkCache, some _ => False
  | _, none => True

theorem length_le_depth {key : List (Option String × Token)} (hlock : 0 < t.lockAt q)
    (h : q <+: key) : q.length ≤ t.depth key := by
  cases t with
  | chunkCache => exact absurd hlock (lt_irrefl 0)
  | radixCache f d => exact f.length_le_depth hlock h

section Match

variable (extraKey : Option String) (tokenIds : List Token)

@[simp] theorem slots_matchPrefix : (t.matchPrefix extraKey tokenIds).2.2.slots = t.slots := by
  cases t with
  | chunkCache => rfl
  | radixCache f d => exact f.values_matchPrefix _

@[simp] theorem lockAt_matchPrefix :
    (t.matchPrefix extraKey tokenIds).2.2.lockAt q = t.lockAt q := by
  cases t with
  | chunkCache => rfl
  | radixCache f d => exact f.lockAt_matchPrefix _ q

theorem mem_slots_of_mem_matchPrefix {x : ℕ} (h : x ∈ (t.matchPrefix extraKey tokenIds).1) :
    x ∈ t.slots := by
  cases t with
  | chunkCache => simp [matchPrefix] at h
  | radixCache f d => exact f.mem_values_of_mem_matchPrefix h

theorem length_matchPrefix_le : (t.matchPrefix extraKey tokenIds).1.length ≤ tokenIds.length := by
  cases t with
  | chunkCache => simp [matchPrefix]
  | radixCache f d =>
    have hle := f.depth_le (radixKey extraKey tokenIds)
    have hlen := f.length_matchPrefix (radixKey extraKey tokenIds)
    rw [radixKey, length_map] at hle
    exact hlen.trans_le hle

theorem hasNode_matchPrefix :
    (t.matchPrefix extraKey tokenIds).2.2.HasNode (t.matchPrefix extraKey tokenIds).2.1 := by
  cases t with
  | chunkCache => trivial
  | radixCache f d =>
    have hb := f.atBoundary_matchPrefix (radixKey extraKey tokenIds)
    rw [← f.length_matchPrefix, radixKey, ← map_take] at hb
    exact hb

end Match

section Lock

variable (g : ℕ → ℕ) (node other : Option NodeRef)

@[simp] theorem slots_adjustLockRef : (t.adjustLockRef g node).slots = t.slots := by
  cases t <;> cases node
  all_goals first | rfl | exact Library.RadixForest.values_adjustLock _ _ _

@[simp] theorem slots_incLockRef : (t.incLockRef node).slots = t.slots :=
  t.slots_adjustLockRef _ node

@[simp] theorem slots_decLockRef : (t.decLockRef node).slots = t.slots :=
  t.slots_adjustLockRef _ node

@[simp] theorem adjustLockRef_chunkCache : chunkCache.adjustLockRef g node = chunkCache := by
  cases node <;> rfl

theorem hasNode_decLockRef : (t.decLockRef other).HasNode node ↔ t.HasNode node := by
  cases t with
  | chunkCache => cases node <;> cases other <;> rfl
  | radixCache f d =>
    cases node with
    | none => cases other <;> rfl
    | some n =>
      cases other with
      | none => rfl
      | some o => exact f.atBoundary_adjustLock _ _ _

theorem lockAt_decLockRef :
    t.lockAt q ≤ (t.decLockRef node).lockAt q + passing q (node.map NodeRef.key).toList := by
  cases t with
  | chunkCache => exact Nat.zero_le _
  | radixCache f d =>
    cases node with
    | none => exact Nat.le_add_right _ _
    | some n =>
      simp only [decLockRef, adjustLockRef, lockAt]
      rcases f.lockAt_adjustLock_or (· - 1) n.key q with ⟨hq, h⟩ | h
      · rw [h]
        simp only [passing, Option.map_some, Option.toList_some, countP_singleton, hq,
          decide_true, if_true]
        omega
      · rw [h]
        exact Nat.le_add_right _ _

theorem lockAt_incLockRef {q : List (Option String × Token)} (h : t.HasNode node) (hq : q ≠ []) :
    t.lockAt q + passing q (node.map NodeRef.key).toList ≤ (t.incLockRef node).lockAt q := by
  cases t with
  | chunkCache =>
    cases node with
    | none => exact le_rfl
    | some n => exact h.elim
  | radixCache f d =>
    cases node with
    | none => exact le_rfl
    | some n =>
      simp only [incLockRef, adjustLockRef, lockAt, passing, Option.map_some, Option.toList_some,
        countP_singleton, decide_eq_true_eq]
      split
      next hqn => rw [f.lockAt_adjustLock h hq hqn]
      next hqn =>
      rcases f.lockAt_adjustLock_or (· + 1) n.key q with ⟨hq', _⟩ | h'
      · exact absurd hq' hqn
      · rw [h']
        exact le_rfl

end Lock

end TreeCache

namespace Memory

def pooled (m : Memory) : List ℕ := m.allocator.held ++ m.tree.slots

theorem pooled_free (m : Memory) (slots : List ℕ) : (m.free slots).pooled.Perm (slots ++ m.pooled) := by
  unfold pooled free
  rw [← append_assoc]
  exact (m.allocator.held_free slots).append_right _

/-- What no operation on slots changes. -/
structure SamePool (m m' : Memory) : Prop where
  size : m'.allocator.size = m.allocator.size
  group : m'.allocator.isNotInFreeGroup = m.allocator.isNotInFreeGroup
  chunk : m.tree = .chunkCache → m'.tree = .chunkCache

/-- Slots only move between the tree and the allocator, and no lock is lost. -/
structure Keeps (m m' : Memory) : Prop extends m.SamePool m' where
  pooled : m'.pooled.Perm m.pooled
  rows : m'.rows = m.rows
  lockAt : ∀ q, m.tree.lockAt q ≤ m'.tree.lockAt q

theorem Keeps.refl (m : Memory) : m.Keeps m := ⟨⟨rfl, rfl, id⟩, .refl _, rfl, fun _ => le_rfl⟩

theorem Keeps.trans {m₁ m₂ m₃ : Memory} (h : m₁.Keeps m₂) (h' : m₂.Keeps m₃) : m₁.Keeps m₃ :=
  ⟨⟨h'.size.trans h.size, h'.group.trans h.group, fun hc => h'.chunk (h.chunk hc)⟩,
    h'.pooled.trans h.pooled, h'.rows.trans h.rows, fun q => (h.lockAt q).trans (h'.lockAt q)⟩

theorem keeps_evictNode (m : Memory) (victim : NodeRef) : m.Keeps (m.evictNode victim) := by
  unfold evictNode
  cases htree : m.tree with
  | chunkCache => exact Keeps.refl m
  | radixCache f d =>
    dsimp only
    split
    next value f' hdel =>
      refine ⟨⟨by simp [free], by simp [free], by simp [htree]⟩, ?_, rfl, ?_⟩
      · have hvals := f.values_deleteLeaf hdel
        have hheld := m.allocator.held_free value
        rw [perm_iff_count] at hvals hheld ⊢
        intro x
        have h1 := hvals x
        have h2 := hheld x
        simp only [pooled, free, TreeCache.slots, htree, count_append] at h1 h2 ⊢
        omega
      · intro q
        rw [htree]
        exact f.lockAt_le_deleteLeaf hdel q
    · exact Keeps.refl m

theorem keeps_evict (m : Memory) (victims : List NodeRef) : m.Keeps (m.evict victims) := by
  induction victims generalizing m with
  | nil => exact Keeps.refl m
  | cons v vs ih => exact (m.keeps_evictNode v).trans (ih _)

theorem keeps_evictFromTreeCache (m : Memory) (numTokens : ℕ) (victims : List NodeRef) :
    m.Keeps (m.evictFromTreeCache numTokens victims) := by
  unfold evictFromTreeCache
  split
  · exact Keeps.refl m
  · split
    · exact m.keeps_evict victims
    · exact Keeps.refl m

/-- A successful allocation, evictions included. -/
structure Allocated (m : Memory) (numTokens : ℕ) (locs : List ℕ) (m' : Memory) : Prop
    extends m.SamePool m' where
  pooled : (locs ++ m'.pooled).Perm m.pooled
  length_eq : locs.length = numTokens
  rows : m'.rows = m.rows
  lockAt : ∀ q, m.tree.lockAt q ≤ m'.tree.lockAt q

variable {f : Library.RadixForest (Option String × Token) ℕ} {m m' : Memory}
  {key : List (Option String × Token)} {isInsert : Bool} {r r' : Req}

theorem allocTokenSlots_ok {numTokens : ℕ} {victims : List NodeRef} {locs : List ℕ}
    (h : m.allocTokenSlots numTokens victims = .ok (locs, m')) : m.Allocated numTokens locs m' := by
  unfold allocTokenSlots at h
  have hkeep := m.keeps_evictFromTreeCache numTokens victims
  generalize m.evictFromTreeCache numTokens victims = m₁ at h hkeep
  dsimp only at h
  split at h
  next allocator outCacheLoc halloc =>
    cases h
    obtain ⟨hperm, hlen⟩ := TokenToKVPoolAllocator.alloc_some halloc
    have hsize := m₁.allocator.alloc_size numTokens
    have hgroup := m₁.allocator.alloc_isNotInFreeGroup numTokens
    rw [halloc] at hsize hgroup
    refine ⟨⟨hsize.trans hkeep.size, hgroup.trans hkeep.group, hkeep.chunk⟩, ?_, hlen, hkeep.rows,
      hkeep.lockAt⟩
    refine Perm.trans ?_ hkeep.pooled
    unfold pooled
    rw [← append_assoc]
    exact hperm.append_right _
  · cases h

/-- The slots between a request's shared prefix and its committed length are its own. -/
def owned (m : Memory) (kv : KvFields) : List ℕ :=
  match kv.reqPoolIdx with
  | none => []
  | some row => m.rows.slice row kv.cacheProtectedLen kv.kvCommittedLen

/-- The tree still holds the shared prefix of `r`, and what `r` owns are real slots. -/
structure Covered (m : Memory) (r : Req) (tokenIds : List Token) : Prop where
  length_eq : tokenIds.length = r.kv.kvCommittedLen
  depth : r.kv.cacheProtectedLen ≤ m.tree.depth (radixKey r.extraKey tokenIds)
  ne_zero : 0 ∉ m.owned r.kv

theorem slice_take_drop (p : ReqToTokenPool) (row a : ℕ) {n stop : ℕ} (hn : n ≤ stop) :
    ((p.slice row 0 stop).take n).drop a = p.slice row a n := by
  unfold ReqToTokenPool.slice
  rw [← map_take, ← map_drop]
  congr 1
  apply ext_getElem
  · simp
    omega
  · intro i h1 h2
    simp

theorem perm_insert (m : Memory) {d : Bool} (htree : m.tree = .radixCache f d) (row a : ℕ)
    {stop : ℕ} (hlen : (m.rows.slice row 0 stop).length = key.length) (ha : a ≤ f.depth key) :
    ((m.allocator.free (((m.rows.slice row 0 stop).take (f.insert key _ hlen).1).drop a)).held ++
        (f.insert key _ hlen).2.values).Perm (m.rows.slice row a stop ++ m.pooled) := by
  have hdepth : f.depth key ≤ stop := by
    have := f.depth_le key
    rw [← hlen, ReqToTokenPool.length_slice] at this
    omega
  have hvals := f.values_insert key _ hlen
  rw [f.insert_fst, slice_take_drop m.rows row a hdepth]
  have hheld := m.allocator.held_free (m.rows.slice row a (f.depth key))
  have hrest : (m.rows.slice row 0 stop).drop (f.depth key) = m.rows.slice row (f.depth key) stop := by
    have := slice_take_drop m.rows row (f.depth key) (le_refl stop)
    rwa [take_of_length_le (by simp)] at this
  rw [hrest] at hvals
  rw [← m.rows.slice_append ha hdepth]
  rw [perm_iff_count] at hvals hheld ⊢
  intro x
  have h1 := hvals x
  have h2 := hheld x
  simp only [pooled, TreeCache.slots, htree, count_append] at h1 h2 ⊢
  omega

theorem mem_insert (m : Memory) {d : Bool} (htree : m.tree = .radixCache f d) (row a : ℕ)
    {stop x : ℕ} (hlen : (m.rows.slice row 0 stop).length = key.length) (hx : x ∈ (m.allocator.free
        (((m.rows.slice row 0 stop).take (f.insert key _ hlen).1).drop a)).held ++
      (f.insert key _ hlen).2.values) : x ∈ m.pooled ∨ ∃ j < stop, x = m.rows.reqToToken row j := by
  have hrow : ∀ y ∈ m.rows.slice row 0 stop, ∃ j < stop, y = m.rows.reqToToken row j := by
    intro y hy
    obtain ⟨j, _, hj, rfl⟩ := m.rows.mem_slice.mp hy
    exact ⟨j, hj, rfl⟩
  rcases mem_append.mp hx with hx | hx
  · rcases mem_append.mp ((m.allocator.held_free _).mem_iff.mp hx) with hx | hx
    · exact .inr (hrow x (mem_of_mem_take (mem_of_mem_drop hx)))
    · exact .inl (mem_append_left _ hx)
  · rcases mem_append.mp ((f.values_insert key _ hlen).mem_iff.mp hx) with hx | hx
    · exact .inr (hrow x (mem_of_mem_drop hx))
    · exact .inl (mem_append_right _ (by rw [htree]; exact hx))

/-- Only committed slots of `r` join the pool, and only its own lock is given up. -/
structure GivesUp (m : Memory) (r : Req) (row : ℕ) (m' : Memory) : Prop
    extends m.SamePool m' where
  mem_pooled : ∀ x ∈ m'.pooled, x ∈ m.pooled ∨ ∃ j < r.kv.kvCommittedLen, x = m.rows.reqToToken row j
  lockAt : ∀ q, m.tree.lockAt q ≤ m'.tree.lockAt q + passing q r.kv.lockPaths

/-- Committed slots of `r` join the pool, the shared ones stay where they are. -/
structure Finished (m : Memory) (r : Req) (row : ℕ) (r' : Req) (m' : Memory) : Prop
    extends m.GivesUp r row m' where
  req_eq : r' = { r with kv := { r.kv with kvCommittedFreed := true } }
  rows : m'.rows = m.rows
  pooled : r.kv.reqPoolIdx = some row →
    m.Covered r ((r.originInputIds ++ r.outputIds).take r.kv.kvCommittedLen) →
    m'.pooled.Perm (m.owned r.kv ++ m.pooled)

theorem cacheFinishedReq_ok {row : ℕ} (h : m.cacheFinishedReq r row isInsert = .ok (r', m')) :
    m.Finished r row r' m' := by
  unfold cacheFinishedReq at h
  split at h
  · cases h
  next hfreed =>
  simp only [Bool.not_eq_true] at hfreed
  have hpaths : r.kv.lockPaths = (r.kv.lastNode.map NodeRef.key).toList := by
    simp [KvFields.lockPaths, hfreed]
  dsimp only at h
  split at h
  next htree =>
    cases h
    refine ⟨⟨⟨by simp [free], by simp [free], fun _ => htree⟩, ?_, ?_⟩, rfl, rfl, ?_⟩
    · intro x hx
      rcases mem_append.mp ((m.pooled_free _).mem_iff.mp hx) with hx | hx
      · obtain ⟨j, _, hj, rfl⟩ := m.rows.mem_slice.mp (mem_of_mem_filter hx)
        exact .inr ⟨j, hj, rfl⟩
      · exact .inl hx
    · intro q
      exact Nat.le_add_right _ _
    · intro hrow hcov
      have hzero : r.kv.cacheProtectedLen = 0 := by
        have := hcov.depth
        simpa [htree, TreeCache.depth] using this
      have hown : m.owned r.kv = m.rows.slice row 0 r.kv.kvCommittedLen := by
        simp [owned, hrow, hzero]
      have hfilter : (m.rows.slice row 0 r.kv.kvCommittedLen).filter (· ≠ 0) =
          m.rows.slice row 0 r.kv.kvCommittedLen := by
        rw [filter_eq_self]
        intro x hx
        have hne : x ≠ 0 := by
          rintro rfl
          exact hcov.ne_zero (hown ▸ hx)
        simpa using hne
      rw [hfilter, hown]
      exact m.pooled_free _
  next f d htree =>
  have hlocks : ∀ (f' : Library.RadixForest (Option String × Token) ℕ),
      (∀ q, f'.lockAt q = f.lockAt q) → ∀ q, m.tree.lockAt q ≤
        ((TreeCache.radixCache f' d).decLockRef r.kv.lastNode).lockAt q +
          passing q r.kv.lockPaths := by
    intro f' hf' q
    rw [hpaths, htree]
    exact (hf' q).ge.trans ((TreeCache.radixCache f' d).lockAt_decLockRef q r.kv.lastNode)
  have hle : ((r.originInputIds ++ r.outputIds).take r.kv.kvCommittedLen).length ≤
      r.kv.kvCommittedLen := by simp
  split at h
  · cases h
    refine ⟨⟨⟨by simp [free], by simp [free], by simp [htree]⟩, ?_, ?_⟩, rfl, rfl, ?_⟩
    · intro x hx
      simp only [pooled, TreeCache.slots_decLockRef] at hx
      rcases m.mem_insert htree _ _ _ hx with hx | ⟨j, hj, hx⟩
      · exact .inl hx
      · exact .inr ⟨j, hj.trans_le hle, hx⟩
    · exact hlocks _ fun q => f.lockAt_insert _ _ _ q
    · intro hrow hcov
      have hdepth := hcov.depth
      rw [htree] at hdepth
      have hown : m.owned r.kv = m.rows.slice row r.kv.cacheProtectedLen
          ((r.originInputIds ++ r.outputIds).take r.kv.kvCommittedLen).length := by
        simp only [owned, hrow, hcov.length_eq]
      rw [hown]
      simp only [pooled, TreeCache.slots_decLockRef]
      exact m.perm_insert htree _ _ _ hdepth
  · cases h
    refine ⟨⟨⟨by simp [free], by simp [free], by simp [htree]⟩, ?_, ?_⟩, rfl, rfl, ?_⟩
    · intro x hx
      simp only [pooled, TreeCache.slots_decLockRef] at hx
      rcases mem_append.mp ((m.pooled_free _).mem_iff.mp hx) with hx | hx
      · obtain ⟨j, _, hj, rfl⟩ := m.rows.mem_slice.mp (mem_of_mem_drop hx)
        exact .inr ⟨j, hj.trans_le hle, rfl⟩
      · exact .inl hx
    · simpa only [htree] using hlocks f fun _ => rfl
    · intro hrow hcov
      have hdrop := slice_take_drop m.rows row r.kv.cacheProtectedLen (le_refl r.kv.kvCommittedLen)
      rw [take_of_length_le (by simp)] at hdrop
      have hown : m.owned r.kv = (m.rows.slice row 0
          ((r.originInputIds ++ r.outputIds).take r.kv.kvCommittedLen).length).drop
            r.kv.cacheProtectedLen := by
        simp only [owned, hrow, hcov.length_eq, hdrop]
      rw [hown]
      simp only [pooled, TreeCache.slots_decLockRef]
      exact m.pooled_free _

def releasedKv (kv : KvFields) : KvFields :=
  { kv with kvCommittedFreed := true, kvOverallocatedFreed := true, reqPoolIdx := none }

/-- `release_kv_cache` that returns: its assertions held, the row is free again. -/
structure Released (m : Memory) (r : Req) (row : ℕ) (r' : Req) (m' : Memory) : Prop
    extends m.GivesUp r row m' where
  row_eq : r.kv.reqPoolIdx = some row
  req_eq : r' = { r with kv := releasedKv r.kv }
  rows : m'.rows = m.rows.freeRow row
  pooled : m.Covered r ((r.originInputIds ++ r.outputIds).take r.kv.kvCommittedLen) →
    m'.pooled.Perm (m.owned r.kv ++ m.pooled)

/-- What a release of a finished request's memory does. -/
theorem releaseKvCache_ok (h : m.releaseKvCache r isInsert = .ok (r', m')) :
    ∃ row, m.Released r row r' m' := by
  unfold releaseKvCache at h
  split at h
  · cases h
  next row hrow =>
  obtain ⟨⟨r₁, m₁⟩, hfin, h⟩ := Library.bind_eq_ok h
  have hspec := cacheFinishedReq_ok hfin
  have hr₁ := hspec.req_eq
  subst hr₁
  dsimp only at h
  split at h
  · cases h
  split at h
  · cases h
  cases h
  exact ⟨row, { hspec.toGivesUp with }, hrow, rfl,
    congrArg (ReqToTokenPool.freeRow · row) hspec.rows, hspec.pooled hrow⟩

/-- The release cannot fail when nothing was freed before and nothing is over-allocated. -/
theorem releaseKvCache_isOk {m : Memory} {r : Req} (hrow : r.kv.reqPoolIdx.isSome)
    (hcommitted : r.kv.kvCommittedFreed = false) (hover : r.kv.kvOverallocatedFreed = false)
    (heq : r.kv.kvCommittedLen = r.kv.kvAllocatedLen) :
    ∃ x, m.releaseKvCache r isInsert = .ok x := by
  obtain ⟨row, hrow⟩ := Option.isSome_iff_exists.mp hrow
  have hfin : ∃ m₁, m.cacheFinishedReq r row isInsert =
      .ok ({ r with kv := { r.kv with kvCommittedFreed := true } }, m₁) := by
    unfold cacheFinishedReq
    rw [if_neg (by simp [hcommitted])]
    cases htree : m.tree with
    | chunkCache => exact ⟨_, rfl⟩
    | radixCache f d =>
      dsimp only
      split
      · exact ⟨_, rfl⟩
      · exact ⟨_, rfl⟩
  obtain ⟨m₁, hm₁⟩ := hfin
  unfold releaseKvCache
  rw [hrow]
  dsimp only
  rw [hm₁]
  refine ⟨({ r with kv := releasedKv r.kv }, { m₁ with rows := m₁.rows.freeRow row }), ?_⟩
  simp [Bind.bind, Except.bind, hover, heq, releasedKv]

/-- `cache_unfinished_req` that returns: with prefix caching the whole prefill is shared now. -/
structure Cached (m : Memory) (r : Req) (row : ℕ) (r' : Req) (m' : Memory) : Prop
    extends m.SamePool m' where
  req_eq : ∃ start indices node, r' = { r with kv := { r.kv with
    cacheProtectedLen := start, prefixIndices := indices, lastNode := node } }
  node_eq : (r'.kv.lastNode = r.kv.lastNode ∧ r'.kv.cacheProtectedLen = r.kv.cacheProtectedLen) ∨
    (r'.kv.lastNode = some ⟨r.extraKey, r.kv.fillIds⟩ ∧
      r'.kv.cacheProtectedLen = r.kv.fillIds.length)
  other_rows : ∀ i, i ≠ row → m'.rows.reqToToken i = m.rows.reqToToken i
  freeSlots : m'.rows.freeSlots = m.rows.freeSlots
  mem_pooled : ∀ x ∈ m'.pooled,
    x ∈ m.pooled ∨ ∃ j < r.kv.fillIds.length, x = m.rows.reqToToken row j
  mem_row : ∀ j, m'.rows.reqToToken row j = m.rows.reqToToken row j ∨
    m'.rows.reqToToken row j ∈ m'.pooled
  pooled : r.kv.reqPoolIdx = some row → m.Covered r r.kv.fillIds →
    (m'.owned r'.kv ++ m'.pooled).Perm (m.owned r.kv ++ m.pooled)
  lockAt : r.kv.kvCommittedFreed = false → ∀ q ≠ [],
    m.tree.lockAt q + passing q r'.kv.lockPaths ≤ m'.tree.lockAt q + passing q r.kv.lockPaths

/-- What caching an unfinished request does. -/
theorem cacheUnfinishedReq_ok {row : ℕ} (h : m.cacheUnfinishedReq r row = .ok (r', m')) :
    m.Cached r row r' m' := by
  unfold cacheUnfinishedReq at h
  dsimp only at h
  split at h
  next htree =>
    cases h
    exact ⟨⟨rfl, rfl, fun _ => htree⟩, ⟨_, _, _, rfl⟩, .inl ⟨rfl, rfl⟩, fun _ _ => rfl, rfl,
      fun x hx => .inl hx, fun j => .inl rfl, fun _ _ => .refl _, fun _ _ _ => le_rfl⟩
  next f d htree =>
  have hlen : (m.rows.slice row 0 r.kv.fillIds.length).length =
      (radixKey r.extraKey r.kv.fillIds).length := by simp [radixKey]
  have hins := fun (x : ℕ) => m.mem_insert (x := x) htree row r.kv.cacheProtectedLen hlen
  have hperm := m.perm_insert htree row r.kv.cacheProtectedLen hlen
  have hlock := f.lockAt_insert _ _ hlen
  generalize f.insert (radixKey r.extraKey r.kv.fillIds) _ hlen = ins at h hins hperm hlock
  obtain ⟨newPrefixLen, f₁⟩ := ins
  set t₁ := TreeCache.radixCache f₁ d with ht₁
  have hslots := t₁.slots_matchPrefix r.extraKey r.kv.fillIds
  have hmatch := fun q => t₁.lockAt_matchPrefix q r.extraKey r.kv.fillIds
  have hmem := fun x => t₁.mem_slots_of_mem_matchPrefix r.extraKey r.kv.fillIds (x := x)
  have hnode := t₁.hasNode_matchPrefix r.extraKey r.kv.fillIds
  have hsome : (t₁.matchPrefix r.extraKey r.kv.fillIds).2.1 =
    some ⟨r.extraKey, r.kv.fillIds.take (t₁.matchPrefix r.extraKey r.kv.fillIds).1.length⟩ := rfl
  generalize t₁.matchPrefix r.extraKey r.kv.fillIds = res at h hslots hmatch hmem hnode hsome
  obtain ⟨newIndices, newLastNode, t₂⟩ := res
  dsimp only at h hslots hmatch hmem hnode hsome
  split at h
  · cases h
  next hfull =>
  simp only [ne_eq, not_not] at hfull
  rw [hfull, take_length] at hsome
  subst hsome
  cases h
  have hpool : ∀ (rows : ReqToTokenPool), pooled
      ⟨(m.free (((m.rows.slice row 0 r.kv.fillIds.length).take newPrefixLen).drop
          r.kv.cacheProtectedLen)).allocator, rows,
        (t₂.decLockRef r.kv.lastNode).incLockRef (some ⟨r.extraKey, r.kv.fillIds⟩)⟩ =
      (m.allocator.free (((m.rows.slice row 0 r.kv.fillIds.length).take newPrefixLen).drop
        r.kv.cacheProtectedLen)).held ++ f₁.values := by
    intro rows
    simp only [pooled, TreeCache.slots_incLockRef, TreeCache.slots_decLockRef, hslots]
    rfl
  refine ⟨⟨by simp [free], by simp [free], by simp [htree]⟩, ⟨_, _, _, rfl⟩, .inr ⟨rfl, hfull⟩, ?_,
    rfl, ?_, ?_, ?_, ?_⟩
  · intro i hi
    funext j
    simp [ReqToTokenPool.write, hi]
  · intro x hx
    rw [hpool] at hx
    exact hins x hx
  · intro j
    rw [hpool]
    simp only [ReqToTokenPool.write]
    split
    next hj =>
      refine .inr (mem_append_right _ (hmem _ ?_))
      have hlt : j - r.kv.cacheProtectedLen < (newIndices.drop r.kv.cacheProtectedLen).length := by
        omega
      rw [getD_eq_getElem?_getD, getElem?_eq_getElem hlt, Option.getD_some]
      exact mem_of_mem_drop (getElem_mem _)
    · exact .inl rfl
  · intro hrow hcov
    have hdepth := hcov.depth
    rw [htree] at hdepth
    have hown : m.owned r.kv = m.rows.slice row r.kv.cacheProtectedLen r.kv.fillIds.length := by
      simp only [owned, hrow, hcov.length_eq]
    rw [hpool, hown]
    simp only [owned, hrow]
    rw [ReqToTokenPool.slice_of_le _ (by rw [hfull, hcov.length_eq])]
    exact hperm hdepth
  · intro hfreed q hq
    have hpaths : r.kv.lockPaths = (r.kv.lastNode.map NodeRef.key).toList := by
      simp [KvFields.lockPaths, hfreed]
    have hdec := t₂.lockAt_decLockRef q r.kv.lastNode
    have hinc := (t₂.decLockRef r.kv.lastNode).lockAt_incLockRef _
      ((t₂.hasNode_decLockRef _ _).mpr hnode) hq
    have hsame : t₂.lockAt q = m.tree.lockAt q := by
      rw [hmatch, htree]
      exact hlock q
    simp only [KvFields.lockPaths, hfreed, Bool.false_eq_true, if_false]
    omega

end Memory

end LLM42
