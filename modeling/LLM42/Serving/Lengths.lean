import LLM42.Serving.Requests

/-! # The two lengths of a request

`kv_committed_len` is kept by the request and `seq_lens` by the batch. The encoder part of an
encoder-decoder request counts in the first only, so the two agree modulo the page size when it
fills whole pages. -/

namespace LLM42

open List

namespace MemReq

/-- A request that has not been released; its encoder part fills whole pages. -/
structure Unreleased (pageSize : ℕ) (r : MemReq) : Prop where
  committed : r.kvCommittedFreed = false
  overallocated : r.kvOverallocatedFreed = false
  encoderPages : r.encoderLen % pageSize = 0
  encoderLe : r.encoderLen ≤ r.originInputIds.length

/-- A request with a row; nothing is over-allocated, and its two lengths end alike in a page. -/
structure Seated (pageSize : ℕ) (r : MemReq) : Prop extends Unreleased pageSize r where
  row : r.reqPoolIdx ≠ none
  fill : r.encoderLen ≤ r.fillIds.length
  allocated : r.kvCommittedLen = r.kvAllocatedLen
  lens : r.seqLen % pageSize = r.kvCommittedLen % pageSize

variable {pageSize : ℕ} {r : MemReq}

theorem sub_mod_of_dvd {n k : ℕ} (hle : k ≤ n) (hk : k % pageSize = 0) :
    (n - k) % pageSize = n % pageSize := by
  obtain ⟨c, rfl⟩ := Nat.dvd_of_mod_eq_zero hk
  obtain ⟨d, rfl⟩ := Nat.exists_eq_add_of_le hle
  rw [Nat.add_sub_cancel_left, Nat.add_comm, Nat.add_mul_mod_self_left]

theorem Unreleased.extended (h : r.Unreleased pageSize) (hfill : r.encoderLen ≤ r.fillIds.length)
    (idx : ℕ) : (r.extended idx).Seated pageSize where
  toUnreleased := { h with }
  row := by simp [MemReq.extended]
  fill := hfill
  allocated := rfl
  lens := sub_mod_of_dvd hfill h.encoderPages

theorem Seated.decoded (h : r.Seated pageSize) : r.decoded.Seated pageSize where
  toUnreleased := { h with }
  row := h.row
  fill := h.fill
  allocated := congrArg (· + 1) h.allocated
  lens := by
    simp only [MemReq.decoded]
    rw [Nat.add_mod, h.lens, ← Nat.add_mod]

end MemReq

namespace ServingState

variable {η β : Type*} {cfg : RadixConfig η β} {s t : ServingState η β} {m : PagedMemory η β}
  {memory : PagedMemory η β} {r : MemReq}

/-- The allocator serves the page size of the cache, and every request has the fields its place
tells. -/
structure Consistent (cfg : RadixConfig η β) (s : ServingState η β) : Prop where
  queues : s.Queues
  wf : s.memory.allocator.Wf
  pageSize : s.memory.allocator.pageSize = cfg.pageSize
  waiting : ∀ id ∈ s.waitingQueue,
    (s.heap id).Unreleased cfg.pageSize ∧ (s.heap id).reqPoolIdx = none
  canRun : ∀ id ∈ s.canRunList, (s.heap id).Unreleased cfg.pageSize ∧
    (s.heap id).reqPoolIdx = none ∧ (s.heap id).encoderLen ≤ (s.heap id).fillIds.length
  live : ∀ id ∈ s.live, (s.heap id).Seated cfg.pageSize

/-- Requests whose encoder part fills whole pages; all those of decoder-only models. -/
def EncoderPages (cfg : RadixConfig η β) : ServingOp → Prop
  | .receive r => r.encoderLen % cfg.pageSize = 0
  | _ => True

instance (cfg : RadixConfig η β) (op : ServingOp) : Decidable (EncoderPages cfg op) := by
  delta EncoderPages
  induction op using ServingOp.casesOn <;> infer_instance

section Disjoint

variable {id id' : ℕ} (h : s.Queues)

include h

theorem Queues.ne_waiting_live (hw : id ∈ s.waitingQueue) (hl : id' ∈ s.live) : id ≠ id' := by
  rintro rfl
  exact (nodup_append.mp h.nodup).2.2 id (mem_append_left _ hw) id hl rfl

theorem Queues.ne_canRun_live (hc : id ∈ s.canRunList) (hl : id' ∈ s.live) : id ≠ id' := by
  rintro rfl
  exact (nodup_append.mp h.nodup).2.2 id (mem_append_right _ hc) id hl rfl

theorem Queues.ne_waiting_canRun (hw : id ∈ s.waitingQueue) (hc : id' ∈ s.canRunList) :
    id ≠ id' := by
  rintro rfl
  exact (nodup_append.mp (nodup_append.mp h.nodup).1).2.2 id hw id hc rfl

theorem Queues.nodup_live : s.live.Nodup := (nodup_append.mp h.nodup).2.1

theorem Queues.nodup_waiting : s.waitingQueue.Nodup :=
  (nodup_append.mp (nodup_append.mp h.nodup).1).1

end Disjoint

def Serves (cfg : RadixConfig η β) (a : KVAllocator) : Prop := a.Wf ∧ a.pageSize = cfg.pageSize

theorem Serves.free {a : KVAllocator} (h : Serves cfg a) (slots : List ℕ) :
    Serves cfg (a.free slots) :=
  ⟨h.1.free slots, (a.pageSize_free slots).trans h.2⟩

theorem Consistent.serves (h : s.Consistent cfg) : Serves cfg s.memory.allocator := ⟨h.wf, h.pageSize⟩

theorem Consistent.setMemory (h : s.Consistent cfg) (hm : Serves cfg memory.allocator) :
    ({ s with memory } : ServingState η β).Consistent cfg :=
  ⟨{ h.queues with }, hm.1, hm.2, h.waiting, h.canRun, h.live⟩

theorem Consistent.setLive (h : s.Consistent cfg) {id : ℕ} (hid : id ∈ s.live)
    (hr : r.Seated cfg.pageSize) (hm : Serves cfg memory.allocator) :
    ({ s.setReq id r with memory } : ServingState η β).Consistent cfg := by
  refine ⟨{ h.queues with }, hm.1, hm.2, fun x hx => ?_, fun x hx => ?_, fun x hx => ?_⟩
  · have hne := h.queues.ne_waiting_live hx hid
    simpa [setReq, hne] using h.waiting x hx
  · have hne := h.queues.ne_canRun_live hx hid
    simpa [setReq, hne] using h.canRun x hx
  · by_cases hx' : x = id
    · subst hx'
      simpa [setReq] using hr
    · simpa [setReq, hx'] using h.live x hx

theorem serves_cacheFinishedReq (h : Serves cfg m.allocator) (r : MemReq) (idx : ℕ)
    (isInsert : Bool) : Serves cfg (m.cacheFinishedReq cfg r idx isInsert).allocator := by
  unfold PagedMemory.cacheFinishedReq
  split
  · exact h.free _
  · exact h.free _
  · cases isInsert <;> exact (h.free _).free _

theorem serves_cacheUnfinishedReq {m m' : PagedMemory η β} (h : Serves cfg m.allocator)
    {r r' : MemReq} {idx : ℕ} (hok : m.cacheUnfinishedReq cfg r idx = .ok (r', m')) :
    Serves cfg m'.allocator ∧ ∃ prefixIndices cacheProtectedLen lastNode,
      r' = { r with prefixIndices, cacheProtectedLen, lastNode } := by
  unfold PagedMemory.cacheUnfinishedReq at hok
  dsimp only at hok
  split at hok
  · cases hok
    exact ⟨h, _, _, _, rfl⟩
  · cases hok
    exact ⟨h, _, _, _, rfl⟩
  · split at hok
    · cases hok
    · cases hok
      exact ⟨h.free _, _, _, _, rfl⟩

theorem seated_rollback (h : r.Seated cfg.pageSize) {outputIds : List Token} (idx : ℕ)
    (hlen : r.kvCommittedLen + 1 = r.tokens.length)
    (hle : outputIds.length ≤ r.outputIds.length) :
    (m.rollback r idx outputIds).1.Seated cfg.pageSize where
  toUnreleased := { h with }
  row := h.row
  fill := h.fill
  allocated := congrArg (· - _) h.allocated
  lens := by
    simp only [MemReq.tokens, length_append] at hlen
    simp only [PagedMemory.rollback]
    congr 1
    omega

theorem Consistent.applyResult {op : ResultOp} (h : s.Consistent cfg) (hop : s.ResultAllowed op)
    (hstep : s.applyResult cfg op = .ok t) : t.Consistent cfg := by
  have hq := h.queues.applyResult hstep
  cases op with
  | sample id token =>
    cases hstep
    have hl := h.live id hop
    refine h.setLive hop ?_ h.serves
    exact ⟨{ hl with }, hl.row, hl.fill, hl.allocated, hl.lens⟩
  | cacheUnfinished id =>
    simp only [ServingState.applyResult] at hstep
    split at hstep
    · cases hstep
    · split at hstep
      · cases hstep
      next r m' hok =>
      cases hstep
      obtain ⟨hserves, _, _, _, rfl⟩ := serves_cacheUnfinishedReq h.serves hok
      have hl := h.live id hop.1
      refine h.setLive hop.1 ?_ hserves
      exact ⟨{ hl with }, hl.row, hl.fill, hl.allocated, hl.lens⟩
  | finish id isInsert =>
    simp only [ServingState.applyResult] at hstep
    split at hstep
    · cases hstep
    next r m' hok =>
    cases hstep
    obtain ⟨idx, hidx, rfl, rfl⟩ := PagedMemory.releaseKvCache_ok hok
    have hserves := serves_cacheFinishedReq h.serves (s.heap id) idx isInsert
    refine ⟨hq, hserves.1, hserves.2, fun x hx => ?_, fun x hx => ?_, fun x hx => ?_⟩
    · have hne := h.queues.ne_waiting_live hx hop.1
      simpa [setReq, hne] using h.waiting x hx
    · have hne := h.queues.ne_canRun_live hx hop.1
      simpa [setReq, hne] using h.canRun x hx
    · obtain ⟨hne, hx⟩ := (Nodup.mem_erase_iff h.queues.nodup_live).mp hx
      simpa [setReq, hne] using h.live x hx
  | rollback id outputIds =>
    simp only [ServingState.applyResult] at hstep
    split at hstep
    · cases hstep
    next idx hidx =>
    cases hstep
    exact h.setLive hop.1 (seated_rollback (h.live id hop.1) idx hop.2.1 hop.2.2.2.1)
      (h.serves.free _)

theorem serves_evictFromTreeCache (h : Serves cfg m.allocator) (pick : List (List Page) → ℕ)
    (n : ℕ) :
    Serves cfg (m.evict cfg pick n).allocator ∧
      Serves cfg (m.evictFromTreeCache cfg pick n).allocator :=
  PagedMemory.evictFromTreeCache_preserves (P := Serves cfg) (fun _ slots h => h.free slots) h n

theorem encoderLen_le_fill {truncLen : Option ℕ} (htrunc : truncLen = none ∨ r.encoderLen = 0)
    (hle : r.encoderLen ≤ r.originInputIds.length) (n : ℕ) : r.encoderLen ≤
      (r.tokens.take (n + truncLen.getD (r.tokens.length - n))).length := by
  rcases htrunc with rfl | h0
  · simp only [Option.getD_none, length_take, MemReq.tokens, length_append]
    omega
  · omega

/-- One call keeps the lengths of a request in order. -/
theorem Consistent.step {op : ServingOp} (h : s.Consistent cfg)
    (hop : s.Allowed cfg ResultAllowed op) (henc : EncoderPages cfg op)
    (hstep : s.step cfg op = .ok t) : t.Consistent cfg := by
  have hq := h.queues.step hop hstep
  cases op with
  | receive r =>
    cases hstep
    have hlt : ∀ {x}, x ∈ s.waitingQueue ∨ x ∈ s.canRunList ∨ x ∈ s.live → x ≠ s.nextId :=
      fun hx => (h.queues.lt _ (by simpa using hx)).ne
    refine ⟨hq, h.wf, h.pageSize, fun x hx => ?_, fun x hx => ?_, fun x hx => ?_⟩
    · rcases mem_append.mp hx with hx | hx
      · have hne := hlt (.inl hx)
        simpa [hne] using h.waiting x hx
      · obtain rfl := mem_singleton.mp hx
        obtain ⟨-, hrow, -, -, hc, ho, hle⟩ := hop
        simpa using ⟨⟨hc, ho, henc, hle⟩, hrow⟩
    · have hne := hlt (.inr (.inl hx))
      simpa [hne] using h.canRun x hx
    · have hne := hlt (.inr (.inr hx))
      simpa [hne] using h.live x hx
  | lookup key =>
    cases hstep
    exact h.setMemory h.serves
  | admitReq id truncLen =>
    cases hstep
    refine ⟨hq, h.wf, h.pageSize, fun x hx => ?_, fun x hx => ?_, fun x hx => ?_⟩
    · obtain ⟨hne, hx⟩ := (Nodup.mem_erase_iff h.queues.nodup_waiting).mp hx
      simpa [setReq, hne] using h.waiting x hx
    · rcases mem_append.mp hx with hx | hx
      · have hne := (h.queues.ne_waiting_canRun hop.1 hx).symm
        simpa [setReq, hne] using h.canRun x hx
      · obtain rfl := mem_singleton.mp hx
        obtain ⟨hu, hrow⟩ := h.waiting x hop.1
        rw [heap_setReq_self]
        exact ⟨{ hu with }, hrow, encoderLen_le_fill hop.2 hu.encoderLe _⟩
    · have hne := (h.queues.ne_waiting_live hop.1 hx).symm
      simpa [setReq, hne] using h.live x hx
  | nextChunk id truncLen =>
    cases hstep
    have hl := h.live id hop.1
    refine h.setLive hop.1 ?_ h.serves
    exact ⟨{ hl with }, hl.row, encoderLen_le_fill hop.2.2 hl.encoderLe _, hl.allocated, hl.lens⟩
  | extend ids pick =>
    simp only [ServingState.step] at hstep
    split at hstep
    · cases hstep
    next rs m' hext =>
    cases hstep
    obtain ⟨row, out, hspec, rfl⟩ := PagedMemory.prepareForExtend_ok hop.1 hext
    have hserves : Serves cfg m'.allocator := by
      obtain ⟨n, -, halloc⟩ := hspec.evicted
      have hev := (serves_evictFromTreeCache h.serves pick n).2
      have := hev.1.allocExtend (ids.map fun id => (s.heap id).extendEntry)
        (PagedMemory.extendNumTokens (ids.map s.heap))
      rw [halloc] at this
      exact ⟨this.1, this.2.trans hev.2⟩
    have hseated : ∀ x ∈ ids, ((s.heap x).extended (row x)).Seated cfg.pageSize := by
      intro x hx
      rcases hop.2 x hx with hc | hl
      · exact (h.canRun x hc).1.extended (h.canRun x hc).2.2 _
      · exact (h.live x hl.1).toUnreleased.extended (h.live x hl.1).fill _
    rw [setReqs_eq hop.1] at hq ⊢
    refine ⟨hq, hserves.1, hserves.2, fun x hx => ?_, fun x hx => ?_, fun x hx => ?_⟩
    · have hnot : x ∉ ids := fun hmem => by
        rcases hop.2 x hmem with hc | hl
        · exact h.queues.ne_waiting_canRun hx hc rfl
        · exact h.queues.ne_waiting_live hx hl.1 rfl
      simpa [hnot] using h.waiting x hx
    · obtain ⟨hx, hnot⟩ := mem_filter.mp hx
      have hnot : x ∉ ids := by simpa using hnot
      simpa [hnot] using h.canRun x hx
    · dsimp only
      by_cases hmem : x ∈ ids
      · rw [if_pos hmem]
        exact hseated x hmem
      · rw [if_neg hmem]
        rcases mem_append.mp hx with hx | hx
        · exact h.live x hx
        · exact absurd (mem_filter.mp hx).1 hmem
  | decode ids pick =>
    simp only [ServingState.step] at hstep
    split at hstep
    · cases hstep
    next rs m' hdec =>
    cases hstep
    obtain ⟨rfl, out, hspec⟩ := PagedMemory.prepareForDecode_ok hdec
    have hserves : Serves cfg m'.allocator := by
      obtain ⟨n, -, halloc⟩ := hspec.evicted
      have hev := (serves_evictFromTreeCache h.serves pick n).2
      have := hev.1.allocDecode (s.memory.decodeRows (s.reqs ids))
      rw [halloc] at this
      exact ⟨this.1, this.2.trans hev.2⟩
    rw [reqs, map_map, setReqs_eq hop.1] at hq ⊢
    refine ⟨hq, hserves.1, hserves.2, fun x hx => ?_, fun x hx => ?_, fun x hx => ?_⟩
    · have hnot : x ∉ ids := fun hmem => h.queues.ne_waiting_live hx (hop.2 x hmem).1 rfl
      simpa [hnot] using h.waiting x hx
    · have hnot : x ∉ ids := fun hmem => h.queues.ne_canRun_live hx (hop.2 x hmem).1 rfl
      simpa [hnot] using h.canRun x hx
    · dsimp only
      split
      · exact (h.live x hx).decoded
      · exact h.live x hx
  | results grouped ops =>
    refine step_results_invariant (fun s h => ?_) (fun s h => ?_) ?_ hop h hstep
    · exact h.setMemory ⟨h.wf.freeGroupBegin, by simpa using h.pageSize⟩
    · exact h.setMemory ⟨h.wf.freeGroupEnd, by simpa using h.pageSize⟩
    · exact fun s op t h hop hstep => h.applyResult hop hstep
  | retract id numTokens pick =>
    simp only [ServingState.step, releaseReq] at hstep
    split at hstep
    · cases hstep
    next r m' hok =>
    cases hstep
    obtain ⟨idx, hidx, rfl, rfl⟩ := PagedMemory.releaseKvCache_ok hok
    have hserves := (serves_evictFromTreeCache
      (m := { s.memory.cacheFinishedReq cfg (s.heap id) idx false with
        rows := (s.memory.cacheFinishedReq cfg (s.heap id) idx false).rows.freeRow idx })
      (serves_cacheFinishedReq h.serves (s.heap id) idx false) pick numTokens).2
    refine ⟨hq, hserves.1, hserves.2, fun x hx => ?_, fun x hx => ?_, fun x hx => ?_⟩
    · rcases mem_append.mp hx with hx | hx
      · have hne := h.queues.ne_waiting_live hx hop.1
        simpa [setReq, hne] using h.waiting x hx
      · obtain rfl := mem_singleton.mp hx
        have hl := h.live x hop.1
        rw [heap_setReq_self]
        exact ⟨⟨rfl, rfl, hl.encoderPages, hl.encoderLe⟩, rfl⟩
    · have hne := h.queues.ne_canRun_live hx hop.1
      simpa [setReq, hne] using h.canRun x hx
    · obtain ⟨hne, hx⟩ := (Nodup.mem_erase_iff h.queues.nodup_live).mp hx
      simpa [setReq, hne] using h.live x hx
  | evict numTokens pick =>
    cases hstep
    exact h.setMemory (serves_evictFromTreeCache h.serves pick numTokens).1

theorem started_consistent (h : Started cfg s) : s.Consistent cfg := by
  obtain ⟨hps, size, numRows, needSort, cache, -, rfl⟩ := h
  constructor
  · constructor <;> simp [create]
  · exact KVAllocator.wf_create hps
  · exact KVAllocator.pageSize_create
  all_goals simp [create]

end ServingState

end LLM42
