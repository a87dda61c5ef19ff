import LLM42.Serving.Lengths

/-! # Making room for a decode step

`check_decode_mem`, `retract_decode` and `update_running_batch` of the scheduler: memory for the
next token of every running request is found by evicting from the tree and, if that is not enough,
by sending requests back to the queue. -/

namespace LLM42

open List
open Library (Reachable)
open RadixState (chainConfig)

/-- The running batch: its requests and, in the same order, their lengths. -/
structure DecodeBatch where
  reqs : List ℕ
  seqLens : List ℕ
deriving DecidableEq

namespace DecodeBatch

def filterBatch (b : DecodeBatch) (keepIndices : List ℕ) : DecodeBatch :=
  if keepIndices = [] then { b with reqs := [] }
  else if keepIndices.length = b.reqs.length then b
  else ⟨keepIndices.filterMap (b.reqs[·]?), keepIndices.filterMap (b.seqLens[·]?)⟩

end DecodeBatch

namespace ServingState

variable {η β : Type*} (cfg : RadixConfig η β)

def newTokensRequiredNextDecode (reqs : List MemReq) : ℕ :=
  reqs.countP (fun r => r.kvCommittedLen % cfg.pageSize = 0) * cfg.pageSize

def checkDecodeMem (s : ServingState η β) (pick : List (List Page) → ℕ) (reqs : List MemReq) :
    Bool × ServingState η β :=
  let numTokens := newTokensRequiredNextDecode cfg reqs
  let memory := s.memory.evictFromTreeCache cfg pick numTokens
  (decide (numTokens ≤ memory.allocator.availableSize), { s with memory })

def keptBefore (r r' : MemReq) : Bool :=
  decide (r'.outputIds.length < r.outputIds.length) ||
    (decide (r.outputIds.length = r'.outputIds.length) &&
      decide (r.originInputIds.length ≤ r'.originInputIds.length))

def sortedIndices (s : ServingState η β) (b : DecodeBatch) : List ℕ :=
  (range b.reqs.length).mergeSort fun i j =>
    keptBefore (s.heap (b.reqs.getD i 0)) (s.heap (b.reqs.getD j 0))

/-- The loop of `retract_decode`, over `sorted_indices` from its end. `picks` orders the evictions
of each call. -/
def retractLoop (b : DecodeBatch) (picks : ℕ → List (List Page) → ℕ) (retractDecodeSteps : ℕ) :
    List ℕ → Bool → ServingState η β → List ℕ →
      Except MemoryError (ServingState η β × List ℕ × List ℕ)
  | [], _, s, retracted => .ok (s, [], retracted)
  | idx :: rest, firstIter, s, retracted =>
    let (enough, s) := if firstIter then (false, s)
      else s.checkDecodeMem cfg (picks (2 * rest.length))
        (s.reqs ((idx :: rest).map (b.reqs.getD · 0)))
    if enough then .ok (s, idx :: rest, retracted)
    else if rest = [] then .ok (s, [idx], retracted)
    else
      match s.releaseReq cfg (b.reqs.getD idx 0) (rest.length * retractDecodeSteps)
        (picks (2 * rest.length + 1)) with
      | .error e => .error e
      | .ok s => retractLoop b picks retractDecodeSteps rest false s
          (retracted ++ [b.reqs.getD idx 0])

def retractDecode (s : ServingState η β) (b : DecodeBatch) (picks : ℕ → List (List Page) → ℕ)
    (retractDecodeSteps : ℕ) : Except MemoryError (ServingState η β × DecodeBatch × List ℕ) :=
  match retractLoop cfg b picks retractDecodeSteps (s.sortedIndices b).reverse true s [] with
  | .error e => .error e
  | .ok (s, kept, retracted) =>
    let (enough, s) := if kept.length ≤ 1 then
        s.checkDecodeMem cfg (picks (2 * b.reqs.length)) (s.reqs (kept.map (b.reqs.getD · 0)))
      else (true, s)
    if enough then .ok (s, b.filterBatch kept.reverse, retracted)
    else .error .outOfMemoryAfterRetracting

/-- `update_running_batch` up to `prepare_for_decode`; `testRetract` forces a retraction. -/
def makeRoom (s : ServingState η β) (b : DecodeBatch) (picks : ℕ → List (List Page) → ℕ)
    (retractDecodeSteps : ℕ) (testRetract : Bool) :
    Except MemoryError (ServingState η β × DecodeBatch × List ℕ) :=
  let (enough, s) := s.checkDecodeMem cfg (picks (2 * b.reqs.length + 1)) (s.reqs b.reqs)
  if !enough || testRetract then s.retractDecode cfg b picks retractDecodeSteps
  else .ok (s, b, [])

def prepareForDecode (s : ServingState η β) (b : DecodeBatch) (pick : List (List Page) → ℕ) :
    Except MemoryError (ServingState η β) :=
  match s.memory.prepareForDecode cfg pick
    (zipWith (fun id n => { s.heap id with seqLen := n }) b.reqs b.seqLens) with
  | .error e => .error e
  | .ok (rs, memory) => .ok { s.setReqs b.reqs rs with memory }

/-- Runs of a server whose encoder parts, if any, fill whole pages. -/
abbrev EncoderPagesRun : ServingState η β → Prop :=
  Reachable (step cfg) (Started cfg) fun s op =>
    s.Allowed cfg ResultAllowed op ∧ EncoderPages cfg op

/-- A running batch: distinct live requests whose computed tokens are known, with the lengths of
`seq_lens`. -/
structure IsBatch (s : ServingState η β) (b : DecodeBatch) : Prop where
  nodup : b.reqs.Nodup
  live : ∀ id ∈ b.reqs, id ∈ s.live
  known : ∀ id ∈ b.reqs, (s.heap id).kvCommittedLen ≤ (s.heap id).tokens.length
  seqLens : b.seqLens = b.reqs.map fun id => (s.heap id).seqLen

def ownSlots (s : ServingState η β) (id : ℕ) : List ℕ :=
  let start := if s.memory.cache.shares then (s.heap id).cacheProtectedLen else 0
  (s.memory.rows.slice ((s.heap id).reqPoolIdx.getD 0) start (s.heap id).kvCommittedLen).filter
    (· ≠ 0)

/-- What is left of a request of `s` that was sent back to the queue: its pages and its row are
free. -/
structure Released (s t : ServingState η β) (id : ℕ) : Prop where
  waiting : id ∈ t.waitingQueue ∧ id ∉ t.live
  reset : (t.heap id).reqPoolIdx = none ∧ (t.heap id).kvCommittedLen = 0 ∧
    (t.heap id).lastNode = none ∧ (t.heap id).tokens = (s.heap id).tokens
  row : (s.heap id).reqPoolIdx.getD 0 ∈ t.memory.rows.freeSlots
  pages : ∀ x ∈ s.ownSlots id, x / cfg.pageSize ∈ t.memory.allocator.held

variable {cfg} {s t u : ServingState η β} {b : DecodeBatch} {pick : List (List Page) → ℕ}

theorem EncoderPagesRun.consistent (h : EncoderPagesRun cfg s) : s.Consistent cfg :=
  h.invariant (fun _ hs => started_consistent hs) fun _ _ _ hs hop hstep =>
    hs.step hop.1 hop.2 hstep

section Evict

theorem availableSize_le_evictFromTreeCache (m : PagedMemory η β) (n : ℕ) :
    m.allocator.availableSize ≤ (m.evictFromTreeCache cfg pick n).allocator.availableSize :=
  (PagedMemory.evictFromTreeCache_preserves
    (P := fun a => m.allocator.availableSize ≤ a.availableSize)
    (fun _ slots h => h.trans (KVAllocator.availableSize_le_free slots)) le_rfl n).2

theorem mem_held_evictFromTreeCache {m : PagedMemory η β} {p : ℕ} (n : ℕ)
    (h : p ∈ m.allocator.held) : p ∈ (m.evictFromTreeCache cfg pick n).allocator.held :=
  (PagedMemory.evictFromTreeCache_preserves (P := fun a => p ∈ a.held)
    (fun a _ h => (a.mem_held_free).mpr (.inl h)) h n).2

theorem shares_evictFromTreeCache (m : PagedMemory η β) (n : ℕ) :
    (m.evictFromTreeCache cfg pick n).cache.shares = m.cache.shares := by
  unfold PagedMemory.evictFromTreeCache PagedMemory.evict
  split
  · rfl
  · split
    · split
      next h => rw [h]; rfl
      · rfl
    · rfl

theorem EncoderPagesRun.evictFromTreeCache (h : EncoderPagesRun cfg s) (n : ℕ) : EncoderPagesRun cfg
      ({ s with memory := s.memory.evictFromTreeCache cfg pick n } : ServingState η β) := by
  unfold PagedMemory.evictFromTreeCache
  split
  · exact h
  · split
    · exact .next (e := .evict n pick) h ⟨trivial, trivial⟩ rfl
    · exact h

end Evict

section Step

theorem newPages_decodeRows (hps : 0 < cfg.pageSize) (m : PagedMemory η β) (reqs : List MemReq)
    (h : ∀ r ∈ reqs, r.seqLen % cfg.pageSize = r.kvCommittedLen % cfg.pageSize) :
    KVAllocator.newPages cfg.pageSize ((m.decodeRows reqs).map KVAllocator.decodeEntry) *
      cfg.pageSize = newTokensRequiredNextDecode cfg reqs := by
  rw [newTokensRequiredNextDecode]
  congr 1
  induction reqs with
  | nil => rfl
  | cons r reqs ih =>
    have ih := ih fun x hx => h x (mem_cons_of_mem _ hx)
    have hr := KVAllocator.numNewPages_decodeEntry hps
      (r.seqLen + 1, m.rows.reqToToken (r.reqPoolIdx.getD 0) (r.seqLen - 1)) (Nat.succ_pos _)
    rw [Nat.add_sub_cancel, h r mem_cons_self] at hr
    simp only [PagedMemory.decodeRows] at ih
    simp only [PagedMemory.decodeRows, map_cons, KVAllocator.newPages_cons, ih, hr,
      countP_cons, Nat.add_comm, decide_eq_true_eq]

theorem memory_prepareForDecode_succeeds {m : PagedMemory η β} (h : Serves cfg m.allocator)
    {reqs : List MemReq}
    (hlens : ∀ r ∈ reqs, r.seqLen % cfg.pageSize = r.kvCommittedLen % cfg.pageSize)
    (hfit : newTokensRequiredNextDecode cfg reqs ≤ m.allocator.availableSize)
    (pick : List (List Page) → ℕ) :
    ∃ m', m.prepareForDecode cfg pick reqs = .ok (reqs.map MemReq.decoded, m') := by
  have hev := (serves_evictFromTreeCache h pick (reqs.length * cfg.pageSize)).2
  have hneed := newPages_decodeRows (hev.2 ▸ hev.1.pageSize_pos) m reqs hlens
  have hpos : ∀ e ∈ m.decodeRows reqs, 0 < e.1 := by
    intro e he
    obtain ⟨r, -, rfl⟩ := mem_map.mp he
    exact Nat.succ_pos _
  obtain ⟨a, out, halloc⟩ := KVAllocator.allocDecode_isSome hev.1 hpos (by
    rw [hev.2, hneed]
    exact hfit.trans (availableSize_le_evictFromTreeCache _ _))
  rw [PagedMemory.prepareForDecode, halloc]
  exact ⟨_, rfl⟩

theorem prepareForDecode_succeeds (h : s.Consistent cfg) (hb : s.IsBatch b)
    (hfit : newTokensRequiredNextDecode cfg (s.reqs b.reqs) ≤ s.memory.allocator.availableSize)
    (pick : List (List Page) → ℕ) :
    ∃ t, s.prepareForDecode cfg b pick = .ok t := by
  have hreqs : zipWith (fun id n => ({ s.heap id with seqLen := n } : MemReq)) b.reqs
      b.seqLens = s.reqs b.reqs := by
    rw [hb.seqLens, zipWith_map_right]
    simp [reqs]
  have hlens : ∀ r ∈ s.reqs b.reqs, r.seqLen % cfg.pageSize = r.kvCommittedLen % cfg.pageSize := by
    intro r hr
    obtain ⟨id, hid, rfl⟩ := mem_map.mp hr
    exact (h.live id (hb.live id hid)).lens
  obtain ⟨m', hm'⟩ := memory_prepareForDecode_succeeds h.serves hlens hfit pick
  rw [prepareForDecode, hreqs, hm']
  exact ⟨_, rfl⟩

end Step

section Release

variable {gone : List ℕ} {m : PagedMemory η β}

theorem mem_held_cacheFinishedReq (hserves : Serves cfg m.allocator) {r : MemReq} {idx x : ℕ}
    (hknown : r.kvCommittedLen ≤ r.tokens.length)
    (hx : x ∈ (m.rows.slice idx (if m.cache.shares then r.cacheProtectedLen else 0)
      r.kvCommittedLen).filter (· ≠ 0)) :
    x / cfg.pageSize ∈ (m.cacheFinishedReq cfg r idx false).allocator.held := by
  obtain ⟨hx, hne⟩ := mem_filter.mp hx
  have hpage : ∀ (a : KVAllocator) (slots : List ℕ), Serves cfg a → x ∈ slots →
      x / cfg.pageSize ∈ (a.free slots).held := fun a slots ha hmem =>
    (a.mem_held_free).mpr (.inr ⟨x, hmem, by rw [ha.2]⟩)
  unfold PagedMemory.cacheFinishedReq
  split
  next hc =>
    rw [hc] at hx
    exact hpage _ _ hserves (mem_filter.mpr ⟨hx, hne⟩)
  next hc =>
    rw [hc] at hx
    exact hpage _ _ hserves hx
  next c hc =>
  rw [hc] at hx
  obtain ⟨j, hj, hlt, rfl⟩ := m.rows.mem_slice.mp hx
  have hlen : (r.tokens.take r.kvCommittedLen).length = r.kvCommittedLen := by
    rw [length_take, Nat.min_eq_left hknown]
  have hget : (m.rows.slice idx 0 (r.tokens.take r.kvCommittedLen).length)[j]? =
      some (m.rows.reqToToken idx j) := by
    rw [hlen]
    simp [ReqToTokenPool.slice, hlt]
  have hj : r.cacheProtectedLen ≤ j := hj
  dsimp only [PagedMemory.free]
  -- below the last whole page, or in the partial one
  generalize hl : ((r.radixKey (r.tokens.take r.kvCommittedLen)).pageAligned
    cfg.pageSize).tokenIds.length = len
  rcases Nat.lt_or_ge j len with hjl | hjl
  · refine (KVAllocator.mem_held_free _).mpr (.inl (hpage _ _ hserves ?_))
    refine mem_of_getElem? (i := j - r.cacheProtectedLen) ?_
    rw [getElem?_drop, Nat.add_sub_cancel' hj, getElem?_take_of_lt hjl, hget]
  · refine hpage _ _ (hserves.free _) (mem_of_getElem? (i := j - len) ?_)
    rw [getElem?_drop, Nat.add_sub_cancel' hjl, hget]

theorem rows_cacheFinishedReq (m : PagedMemory η β) (r : MemReq) (idx : ℕ) (isInsert : Bool) :
    (m.cacheFinishedReq cfg r idx isInsert).rows = m.rows := by
  unfold PagedMemory.cacheFinishedReq
  split
  · rfl
  · rfl
  · cases isInsert <;> rfl

theorem shares_decLockRef (c : PrefixCache η β) (node : Option (List Page)) :
    (c.decLockRef node).shares = c.shares := by
  unfold PrefixCache.decLockRef
  split <;> rfl

theorem shares_cacheFinishedReq (m : PagedMemory η β) (r : MemReq) (idx : ℕ) (isInsert : Bool) :
    (m.cacheFinishedReq cfg r idx isInsert).cache.shares = m.cache.shares := by
  unfold PagedMemory.cacheFinishedReq
  split
  · rfl
  · rfl
  next c hc =>
  rw [shares_decLockRef, hc]
  cases isInsert <;> simp [PagedMemory.free, PrefixCache.shares, hc]

theorem mem_held_of_mem_held {p : ℕ} (h : p ∈ m.allocator.held) (r : MemReq) (idx : ℕ)
    (isInsert : Bool) : p ∈ (m.cacheFinishedReq cfg r idx isInsert).allocator.held := by
  have hfree : ∀ (a : KVAllocator) (slots : List ℕ), p ∈ a.held → p ∈ (a.free slots).held :=
    fun a _ h => a.mem_held_free.mpr (.inl h)
  unfold PagedMemory.cacheFinishedReq
  split
  · exact hfree _ _ h
  · exact hfree _ _ h
  · cases isInsert <;> exact hfree _ _ (hfree _ _ h)

theorem releaseKvCache_succeeds {r : MemReq} (h : r.Seated cfg.pageSize) (m : PagedMemory η β)
    (isInsert : Bool) : ∃ idx, r.reqPoolIdx = some idx ∧ m.releaseKvCache cfg r isInsert =
      .ok ({ r with kvCommittedFreed := true, kvOverallocatedFreed := true, reqPoolIdx := none },
        { m.cacheFinishedReq cfg r idx isInsert with
          rows := (m.cacheFinishedReq cfg r idx isInsert).rows.freeRow idx }) := by
  obtain ⟨idx, hidx⟩ := Option.ne_none_iff_exists'.mp h.row
  refine ⟨idx, hidx, ?_⟩
  simp [PagedMemory.releaseKvCache, hidx, h.committed, h.overallocated, h.allocated]

/-- What the search for room has done: the requests `gone` were sent back, the others are as they
were. -/
structure Shrinks (cfg : RadixConfig η β) (s u : ServingState η β) (gone : List ℕ) : Prop where
  run : EncoderPagesRun cfg u
  heap : ∀ id ∉ gone, u.heap id = s.heap id
  live : ∀ id ∈ s.live, id ∉ gone → id ∈ u.live
  table : u.memory.rows.reqToToken = s.memory.rows.reqToToken
  kind : u.memory.cache.shares = s.memory.cache.shares
  released : ∀ id ∈ gone, Released cfg s u id

theorem Shrinks.refl (h : EncoderPagesRun cfg s) : Shrinks cfg s s [] :=
  ⟨h, fun _ _ => rfl, fun _ h _ => h, rfl, rfl, by simp⟩

theorem Shrinks.evictFromTreeCache (h : Shrinks cfg s u gone) (pick : List (List Page) → ℕ)
    (n : ℕ) : Shrinks cfg s
      ({ u with memory := u.memory.evictFromTreeCache cfg pick n } : ServingState η β) gone where
  run := h.run.evictFromTreeCache n
  heap := h.heap
  live := h.live
  table := by simpa using h.table
  kind := (shares_evictFromTreeCache _ _).trans h.kind
  released id hid := by
    obtain ⟨hw, hr, hrow, hp⟩ := h.released id hid
    exact ⟨hw, hr, by simpa using hrow, fun x hx => mem_held_evictFromTreeCache n (hp x hx)⟩

theorem Shrinks.ownSlots (h : Shrinks cfg s u gone) {id : ℕ} (hid : id ∉ gone) :
    u.ownSlots id = s.ownSlots id := by
  simp only [ServingState.ownSlots, h.heap id hid, h.kind, ReqToTokenPool.slice, h.table]

theorem Shrinks.releaseReq (h : Shrinks cfg s u gone) {id : ℕ} (hid : id ∉ gone)
    (hlive : id ∈ u.live) (hknown : (u.heap id).kvCommittedLen ≤ (u.heap id).tokens.length) (n : ℕ)
    (pick : List (List Page) → ℕ) :
    ∃ v, u.releaseReq cfg id n pick = .ok v ∧ Shrinks cfg s v (gone ++ [id]) := by
  have hcons := h.run.consistent
  have hown := h.ownSlots hid
  have hheap := h.heap id hid
  obtain ⟨idx, hidx, hrel⟩ := releaseKvCache_succeeds (hcons.live id hlive) u.memory false
  obtain ⟨v, hok⟩ : ∃ v, u.releaseReq cfg id n pick = .ok v := by
    rw [ServingState.releaseReq, hrel]
    exact ⟨_, rfl⟩
  have hv := hok
  rw [ServingState.releaseReq, hrel] at hv
  cases hv
  refine ⟨_, hok, .next (e := .retract id n pick) h.run ⟨⟨hlive, hknown⟩, trivial⟩ hok, ?_, ?_, ?_,
    ?_, ?_⟩
  · intro x hx
    obtain ⟨hx, hne⟩ : x ∉ gone ∧ x ≠ id := by simpa using hx
    simpa [setReq, hne] using h.heap x hx
  · intro x hx hnot
    obtain ⟨hnot, hne⟩ : x ∉ gone ∧ x ≠ id := by simpa using hnot
    exact (mem_erase_of_ne hne).mpr (h.live x hx hnot)
  · simpa [rows_cacheFinishedReq, ReqToTokenPool.freeRow] using h.table
  · rw [shares_evictFromTreeCache]
    exact (shares_cacheFinishedReq _ _ _ _).trans h.kind
  · intro x hx
    rcases mem_append.mp hx with hx | hx
    · -- those sent back before
      obtain ⟨⟨hw, hl⟩, hr, hrow, hp⟩ := h.released x hx
      have hne : x ≠ id := fun heq => hid (heq ▸ hx)
      refine ⟨⟨mem_append_left _ hw, fun hmem => hl (mem_of_mem_erase hmem)⟩, ?_, ?_, ?_⟩
      · simpa [setReq, hne] using hr
      · simp only [PagedMemory.rows_evictFromTreeCache, ReqToTokenPool.freeRow,
          rows_cacheFinishedReq]
        exact mem_append_left _ hrow
      · intro y hy
        exact mem_held_evictFromTreeCache n (mem_held_of_mem_held (hp y hy) _ _ _)
    · obtain rfl := mem_singleton.mp hx
      refine ⟨⟨mem_append_right _ (by simp), ?_⟩, ?_, ?_, ?_⟩
      · exact hcons.queues.nodup_live.not_mem_erase
      · have htokens : (u.heap x).tokens = (s.heap x).tokens := by rw [hheap]
        rw [heap_setReq_self]
        exact ⟨rfl, rfl, rfl, htokens⟩
      · simp only [PagedMemory.rows_evictFromTreeCache, ReqToTokenPool.freeRow, ← hheap, hidx]
        exact mem_append_right _ (by simp)
      · intro y hy
        rw [← hown, ServingState.ownSlots, hidx] at hy
        exact mem_held_evictFromTreeCache n (mem_held_cacheFinishedReq hcons.serves hknown hy)

end Release

section Retract

variable {gone : List ℕ}

theorem Shrinks.reqs (h : Shrinks cfg s u gone) {ids : List ℕ} (hids : ∀ id ∈ ids, id ∉ gone) :
    u.reqs ids = s.reqs ids :=
  map_congr_left fun id hid => h.heap id (hids id hid)

theorem Shrinks.checkDecodeMem (h : Shrinks cfg s u gone) (pick : List (List Page) → ℕ)
    (reqs : List MemReq) : Shrinks cfg s (u.checkDecodeMem cfg pick reqs).2 gone ∧
      ((u.checkDecodeMem cfg pick reqs).1 = true → newTokensRequiredNextDecode cfg reqs ≤
        (u.checkDecodeMem cfg pick reqs).2.memory.allocator.availableSize) :=
  ⟨h.evictFromTreeCache pick _, of_decide_eq_true⟩

/-- The loop ends with room for the next step, or with one request left. -/
theorem retractLoop_spec (picks : ℕ → List (List Page) → ℕ) (retractDecodeSteps : ℕ)
    (firstIter : Bool) {rev : List ℕ} (hne : rev ≠ []) (h : Shrinks cfg s u gone)
    (hnd : (gone ++ rev.map (b.reqs.getD · 0)).Nodup)
    (hlive : ∀ i ∈ rev, b.reqs.getD i 0 ∈ s.live ∧
      (s.heap (b.reqs.getD i 0)).kvCommittedLen ≤ (s.heap (b.reqs.getD i 0)).tokens.length) :
    ∃ v lost kept, retractLoop cfg b picks retractDecodeSteps rev firstIter u gone =
        .ok (v, kept, gone ++ lost.map (b.reqs.getD · 0)) ∧
      rev = lost ++ kept ∧ kept ≠ [] ∧
      Shrinks cfg s v (gone ++ lost.map (b.reqs.getD · 0)) ∧
      (kept.length ≤ 1 ∨ newTokensRequiredNextDecode cfg (s.reqs (kept.map (b.reqs.getD · 0))) ≤
        v.memory.allocator.availableSize) := by
  induction rev generalizing u gone firstIter with
  | nil => exact absurd rfl hne
  | cons idx rest ih =>
    have hdisj : ∀ id ∈ (idx :: rest).map (b.reqs.getD · 0), id ∉ gone := fun id hid hg =>
      (nodup_append.mp hnd).2.2 id hg id hid rfl
    -- the loop condition
    obtain ⟨enough, w, hcheck, hw, henough⟩ : ∃ enough w,
        (if firstIter then (false, u) else u.checkDecodeMem cfg (picks (2 * rest.length))
          (u.reqs ((idx :: rest).map (b.reqs.getD · 0)))) = (enough, w) ∧
        Shrinks cfg s w gone ∧ (enough = true → newTokensRequiredNextDecode cfg
          (s.reqs ((idx :: rest).map (b.reqs.getD · 0))) ≤ w.memory.allocator.availableSize) := by
      cases firstIter with
      | true => exact ⟨false, u, rfl, h, by simp⟩
      | false =>
        obtain ⟨hw, hfit⟩ := h.checkDecodeMem (picks (2 * rest.length))
          (u.reqs ((idx :: rest).map (b.reqs.getD · 0)))
        refine ⟨_, _, rfl, hw, ?_⟩
        rw [← h.reqs hdisj]
        exact hfit
    simp only [retractLoop, hcheck]
    cases enough with
    | true =>
      exact ⟨w, [], idx :: rest, by simp, rfl, by simp, by simpa using hw, .inr (henough rfl)⟩
    | false =>
      by_cases hrest : rest = []
      · subst hrest
        exact ⟨w, [], [idx], by simp, rfl, by simp, by simpa using hw, .inl le_rfl⟩
      · rw [if_neg hrest]
        have hid := hdisj (b.reqs.getD idx 0) (by simp)
        obtain ⟨hl, hknown⟩ := hlive idx mem_cons_self
        obtain ⟨v, hrel, hv⟩ := hw.releaseReq hid (hw.live _ hl hid) (by rwa [hw.heap _ hid])
          (rest.length * retractDecodeSteps) (picks (2 * rest.length + 1))
        obtain ⟨x, lost, kept, hloop, hsplit, hkept, hx, hfit⟩ := ih false hrest hv
          (by simpa using hnd) fun i hi => hlive i (mem_cons_of_mem _ hi)
        refine ⟨x, idx :: lost, kept, ?_, ?_, hkept, ?_, hfit⟩
        · rw [hrel]
          simpa using hloop
        · rw [hsplit]
          rfl
        · simpa using hx

theorem map_getD_range (l : List ℕ) : (range l.length).map (l.getD · 0) = l := by
  apply ext_getElem
  · simp
  · intro i h1 h2
    simp [h2]

theorem filterMap_getElem? {l : List ℕ} {is : List ℕ} (h : ∀ i ∈ is, i < l.length) :
    is.filterMap (l[·]?) = is.map (l.getD · 0) := by
  induction is with
  | nil => rfl
  | cons i is ih =>
    have hi := h i mem_cons_self
    rw [map_cons, filterMap_cons_some (getElem?_eq_getElem hi),
      ih fun j hj => h j (mem_cons_of_mem _ hj)]
    simp [hi]

theorem filterBatch_eq (hb : s.IsBatch b) {keep : List ℕ} (hne : keep ≠ [])
    (hlt : ∀ i ∈ keep, i < b.reqs.length) (hlen : keep.length ≠ b.reqs.length) :
    b.filterBatch keep = ⟨keep.map (b.reqs.getD · 0),
      (keep.map (b.reqs.getD · 0)).map fun id => (s.heap id).seqLen⟩ := by
  have hseq : b.seqLens.length = b.reqs.length := by rw [hb.seqLens, length_map]
  rw [DecodeBatch.filterBatch, if_neg hne, if_neg hlen, filterMap_getElem? hlt,
    filterMap_getElem? (l := b.seqLens) (fun i hi => hseq ▸ hlt i hi), map_map]
  congr 1
  refine map_congr_left fun i hi => ?_
  simp [hb.seqLens, hlt i hi]

theorem Shrinks.isBatch (h : Shrinks cfg s u gone) (hb : s.IsBatch b) {b' : DecodeBatch}
    (hreqs : (b'.reqs ++ gone).Perm b.reqs)
    (hseq : b'.seqLens = b'.reqs.map fun id => (s.heap id).seqLen) : u.IsBatch b' := by
  have hnd := hreqs.nodup_iff.mpr hb.nodup
  have hmem : ∀ id ∈ b'.reqs, id ∈ b.reqs := fun id hid =>
    hreqs.mem_iff.mp (mem_append_left _ hid)
  have hnot : ∀ id ∈ b'.reqs, id ∉ gone := fun id hid hg =>
    (nodup_append.mp hnd).2.2 id hid id hg rfl
  refine ⟨(nodup_append.mp hnd).1, fun id hid => h.live id (hb.live id (hmem id hid))
    (hnot id hid), fun id hid => ?_, ?_⟩
  · rw [h.heap id (hnot id hid)]
    exact hb.known id (hmem id hid)
  · rw [hseq]
    exact map_congr_left fun id hid => by rw [h.heap id (hnot id hid)]

/-- Retraction splits the batch; it raises only when a single request does not fit. -/
theorem retractDecode_spec (picks : ℕ → List (List Page) → ℕ) (retractDecodeSteps : ℕ)
    (h : Shrinks cfg s u []) (hb : s.IsBatch b) (hne : b.reqs ≠ []) :
    match u.retractDecode cfg b picks retractDecodeSteps with
    | .error e => e = .outOfMemoryAfterRetracting
    | .ok (v, b', retracted) => b'.reqs ≠ [] ∧ (b'.reqs ++ retracted).Perm b.reqs ∧
        Shrinks cfg s v retracted ∧ v.IsBatch b' ∧
        newTokensRequiredNextDecode cfg (v.reqs b'.reqs) ≤ v.memory.allocator.availableSize := by
  have hperm : (u.sortedIndices b).reverse.Perm (range b.reqs.length) :=
    (reverse_perm _).trans (mergeSort_perm _ _)
  have hids : ((u.sortedIndices b).reverse.map (b.reqs.getD · 0)).Perm b.reqs := by
    have := hperm.map (b.reqs.getD · 0)
    rwa [map_getD_range] at this
  have hrev : (u.sortedIndices b).reverse ≠ [] := by
    intro h0
    rw [h0] at hids
    exact hne (nil_perm.mp hids)
  obtain ⟨v, lost, kept, hloop, hsplit, hkept, hv, hfit⟩ := retractLoop_spec picks
    retractDecodeSteps true hrev h (by simpa using hids.nodup_iff.mpr hb.nodup) fun i hi => by
      have hmem : b.reqs.getD i 0 ∈ b.reqs := hids.mem_iff.mp (mem_map_of_mem hi)
      exact ⟨hb.live _ hmem, hb.known _ hmem⟩
  have hlt : ∀ i ∈ kept.reverse, i < b.reqs.length := fun i hi =>
    mem_range.mp (hperm.mem_iff.mp (hsplit ▸ mem_append_right _ (mem_reverse.mp hi)))
  -- the filtered batch
  obtain ⟨hreqs, hseq⟩ : ((b.filterBatch kept.reverse).reqs).Perm (kept.map (b.reqs.getD · 0)) ∧
      (b.filterBatch kept.reverse).seqLens =
        (b.filterBatch kept.reverse).reqs.map fun id => (s.heap id).seqLen := by
    by_cases hlen : kept.reverse.length = b.reqs.length
    · have hlost : lost = [] := by
        have := hperm.length_eq
        rw [hsplit, length_append, length_range] at this
        rw [length_reverse] at hlen
        exact eq_nil_of_length_eq_zero (by omega)
      rw [hsplit, hlost, nil_append] at hids
      rw [DecodeBatch.filterBatch, if_neg (by simpa using hkept), if_pos hlen]
      exact ⟨hids.symm, hb.seqLens⟩
    · rw [filterBatch_eq hb (by simpa using hkept) hlt hlen]
      exact ⟨(reverse_perm kept).map _, rfl⟩
  have hall : ((b.filterBatch kept.reverse).reqs ++ lost.map (b.reqs.getD · 0)).Perm b.reqs := by
    rw [hsplit, map_append] at hids
    exact (hreqs.append_right _).trans (perm_append_comm.trans hids)
  have hneq : (b.filterBatch kept.reverse).reqs ≠ [] := fun h0 => by
    rw [h0] at hreqs
    exact hkept (map_eq_nil_iff.mp (nil_perm.mp hreqs))
  have hnot : ∀ id ∈ (b.filterBatch kept.reverse).reqs, id ∉ lost.map (b.reqs.getD · 0) :=
    fun id hid hg => (nodup_append.mp (hall.nodup_iff.mpr hb.nodup)).2.2 id hid id hg rfl
  have hneed : ∀ {w : ServingState η β}, Shrinks cfg s w (lost.map (b.reqs.getD · 0)) →
      newTokensRequiredNextDecode cfg (w.reqs (b.filterBatch kept.reverse).reqs) =
        newTokensRequiredNextDecode cfg (s.reqs (kept.map (b.reqs.getD · 0))) := by
    intro w hw
    rw [hw.reqs hnot]
    exact congrArg (· * cfg.pageSize) ((hreqs.map s.heap).countP_eq _)
  simp only [retractDecode, hloop]
  by_cases hone : kept.length ≤ 1
  · simp only [if_pos hone]
    obtain ⟨hw, henough⟩ := hv.checkDecodeMem (picks (2 * b.reqs.length))
      (v.reqs (kept.map (b.reqs.getD · 0)))
    split
    next e heq =>
      split at heq
      · cases heq
      · cases heq
        rfl
    next w b' retracted heq =>
    split at heq
    next htrue =>
      cases heq
      refine ⟨hneq, hall, hw, hw.isBatch hb hall hseq, ?_⟩
      rw [hneed hw, ← hv.reqs fun id hid => hnot id (hreqs.mem_iff.mpr hid)]
      exact henough htrue
    · cases heq
  · simp only [if_neg hone, if_true]
    refine ⟨hneq, hall, hv, hv.isBatch hb hall hseq, ?_⟩
    rw [hneed hv]
    exact hfit.resolve_left hone

end Retract

/-- Whenever room was found for the next token of the requests kept, the decode step is prepared
without running out of memory. The batch is split in those kept and those sent back, whose pages
and rows are free; nobody is lost or sent back twice. -/
theorem decode_memory_check_suffices (h : EncoderPagesRun cfg s) (hb : s.IsBatch b)
    (hne : b.reqs ≠ []) (picks : ℕ → List (List Page) → ℕ) (retractDecodeSteps : ℕ)
    (testRetract : Bool) :
    match s.makeRoom cfg b picks retractDecodeSteps testRetract with
    | .error e => e = .outOfMemoryAfterRetracting
    | .ok (t, b', retracted) => b'.reqs ≠ [] ∧ (b'.reqs ++ retracted).Perm b.reqs ∧
        (∀ id ∈ retracted, Released cfg s t id) ∧ EncoderPagesRun cfg t ∧
        ∀ pick, ∃ u, t.prepareForDecode cfg b' pick = .ok u := by
  obtain ⟨hcheck, henough⟩ := (Shrinks.refl h).checkDecodeMem (picks (2 * b.reqs.length + 1))
    (s.reqs b.reqs)
  simp only [makeRoom]
  split
  next e heq =>
    split at heq
    · have hspec := retractDecode_spec picks retractDecodeSteps hcheck hb hne
      rw [heq] at hspec
      exact hspec
    · cases heq
  next t b' retracted heq =>
  split at heq
  · have hspec := retractDecode_spec picks retractDecodeSteps hcheck hb hne
    rw [heq] at hspec
    obtain ⟨hne', hall, ht, hb', hfit⟩ := hspec
    exact ⟨hne', hall, ht.released, ht.run, prepareForDecode_succeeds ht.run.consistent hb' hfit⟩
  next hno =>
  cases heq
  have hb' := hcheck.isBatch hb (by simp) hb.seqLens
  rw [Bool.or_eq_true, not_or] at hno
  have hfit := henough (by simpa using hno.1)
  exact ⟨hne, by simp, by simp, hcheck.run,
    prepareForDecode_succeeds hcheck.run.consistent hb' hfit⟩

/-- A prefill of seven tokens, the first `encoderLen` of them an image, and its sampled token. -/
def sevenTokenEvents (encoderLen : ℕ) : List ServingOp :=
  [.receive { originInputIds := [1, 2, 3, 4, 5, 6, 7], encoderLen }, .admitReq 0 none,
    .extend [0] fun _ => 0, .results false [.sample 0 8]]

def twoPageStart : ServingState (List (List Token)) (List (List Token)) :=
  create (chainConfig 4) 8 1 false (.radixCache false (RadixCache.reset (chainConfig 4) {}))

theorem started_twoPageStart : Started (chainConfig 4) twoPageStart :=
  ⟨by decide, 8, 1, false, _, by simp [startCaches], rfl⟩

instance (s : ServingState η β) (b : DecodeBatch) : Decidable (s.IsBatch b) :=
  decidable_of_iff (b.reqs.Nodup ∧ (∀ id ∈ b.reqs, id ∈ s.live) ∧
    (∀ id ∈ b.reqs, (s.heap id).kvCommittedLen ≤ (s.heap id).tokens.length) ∧
    b.seqLens = b.reqs.map fun id => (s.heap id).seqLen)
    ⟨fun h => ⟨h.1, h.2.1, h.2.2.1, h.2.2.2⟩, fun h => ⟨h.1, h.2, h.3, h.4⟩⟩

/-- The image fills a page: the check passes and the step is prepared. -/
theorem decode_memory_check_suffices_twoPageStart :
    ∃ s, EncoderPagesRun (chainConfig 4) s ∧ s.IsBatch ⟨[0], [3]⟩ ∧
      ∃ t, s.makeRoom (chainConfig 4) ⟨[0], [3]⟩ (fun _ _ => 0) 20 false = .ok (t, ⟨[0], [3]⟩, []) ∧
        ∀ pick, ∃ u, t.prepareForDecode (chainConfig 4) ⟨[0], [3]⟩ pick = .ok u := by
  obtain ⟨s, hs, hb, ⟨t, b', retracted⟩, hroom, hr⟩ :
      ∃ s, EncoderPagesRun (chainConfig 4) s ∧ s.IsBatch ⟨[0], [3]⟩ ∧
      ∃ r, s.makeRoom (chainConfig 4) ⟨[0], [3]⟩ (fun _ _ => 0) 20 false = .ok r ∧
        r.2 = (⟨[0], [3]⟩, []) :=
    Library.exists_reachable started_twoPageStart (sevenTokenEvents 4) (by decide +kernel)
  have hready := decode_memory_check_suffices hs hb (by decide) (fun _ _ => 0) 20 false
  cases hr
  rw [hroom] at hready
  exact ⟨s, hs, hb, t, hroom, hready.2.2.2.2⟩

/-- An image of three tokens: the check counts the seven tokens of the request, which leave room in
its last page, and the allocation counts four, which fill theirs. -/
theorem decode_memory_check_misses_encoder :
    ∃ s, Reachable (step (chainConfig 4)) (Started (chainConfig 4))
        (fun s op => s.Allowed (chainConfig 4) ResultAllowed op) s ∧
      s.IsBatch ⟨[0], [4]⟩ ∧
      ∃ r, s.makeRoom (chainConfig 4) ⟨[0], [4]⟩ (fun _ _ => 0) 20 false = .ok r ∧
        r.2 = (⟨[0], [4]⟩, []) ∧
        r.1.prepareForDecode (chainConfig 4) ⟨[0], [4]⟩ (fun _ => 0) =
          .error (.decodeOutOfMemory 1) :=
  Library.exists_reachable started_twoPageStart (sevenTokenEvents 3) (by decide +kernel)

end ServingState

end LLM42
