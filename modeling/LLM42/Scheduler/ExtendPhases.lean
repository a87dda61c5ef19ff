import LLM42.Scheduler.Live

/-! # The phases of an extend batch

An extend batch that returns, taken apart: prefix match, allocation, the result loop and the merge
into the running batch, each with its effect on the requests of the batch. -/

namespace LLM42

open List

namespace Req

def shared (start : ℕ) (indices : List ℕ) (node : Option NodeRef) (r : Req) : Req :=
  { r with kv := { r.kv with
      cacheProtectedLen := start, prefixIndices := indices, lastNode := node } }

theorem maxPrefixLen_le (r : Req) :
    r.maxPrefixLen ≤ r.originInputIds.length + r.outputIds.length - 1 := by
  unfold maxPrefixLen
  split
  · exact Nat.min_le_left _ _
  · exact le_refl _

/-- What `match_prefix` may find for a request; one token is always left to compute. -/
structure PrefixMatch (r : Req) (indices : List ℕ) (node : Option NodeRef) : Prop where
  length_le : indices.length ≤ r.originInputIds.length + r.outputIds.length - 1
  node_eq : (node = none ∧ indices = []) ∨
    node = some ⟨r.extraKey, (r.originInputIds ++ r.outputIds).take indices.length⟩

/-- The prefill result loop, for a request `r` that has its token. -/
inductive PrefillOutcome (r : Req) (token : Token) : Req → Prop
  | finished : r.finished → PrefillOutcome r token (r.release.acceptToken token)
  | shared (start : ℕ) (indices : List ℕ) (node : Option NodeRef) : ¬ r.finished →
      (node = r.kv.lastNode ∧ start = r.kv.cacheProtectedLen) ∨
        (node = some ⟨r.extraKey, r.kv.fillIds⟩ ∧ start = r.kv.fillIds.length) →
      PrefillOutcome r token ((r.shared start indices node).acceptToken token)

end Req

/-- An extend batch, seen from one request. -/
inductive RequestExtend (cfg : SchedulerConfig) (rejected : Prop) (token : Token)
    (logits : LogitsRow) (row : ℕ) (r : Req) : Req → Option StreamMessage → Prop
  | mk {indices : List ℕ} {node : Option NodeRef} {r₁ r₂ r₃ r' : Req}
      {message : Option StreamMessage} :
      r.PrefixMatch indices node →
      ((r.matched indices node).assigned row).AbortedIf rejected r₁ →
      (r₁.prefillToken cfg.args.enableLlm42 token logits).PrefillOutcome token r₂ →
      r₂.AbortedIf rejected r₃ → r' = (r₃.streamOutput cfg.args).1 →
      message = (r₃.streamOutput cfg.args).2 →
      RequestExtend cfg rejected token logits row r r' message

section RequestExtend

variable {cfg : SchedulerConfig} {rejected : Prop} {token : Token} {logits : LogitsRow}
  {row : ℕ} {r r' : Req} {message : Option StreamMessage}

theorem Queued.live (h : Queued cfg r) {indices : List ℕ} {node : Option NodeRef} {r₁ : Req}
    (h₁ : ((r.matched indices node).assigned row).AbortedIf rejected r₁) (token : Token)
    (logits : LogitsRow) (id : ReqId) :
    Live cfg 0 0 ⟨id, 0, token, r.originInputIds.length + r.outputIds.length, row⟩
      (r₁.prefillToken cfg.args.enableLlm42 token logits) := by
  -- a pending abort changes no field that matters here
  obtain ⟨hkv, (horigin : _ = r.originInputIds), (hout : _ = r.outputIds),
    (hver : _ = r.llm42VerifiedTokens), hsamp⟩ := h₁.fields
  have hcomp : r₁.completed = r.completed := (Req.completed_congr h₁.core_eq).trans rfl
  have hdet : r₁.isDeterministic = r.isDeterministic :=
    congrArg SamplingParams.isDeterministic hsamp
  have hle := h.verified_le
  refine ⟨?_, ?_, ?_, ?_, by simp, ?_, ?_, ?_, ?_, ?_, ?_⟩
  · simp [hkv, Req.assigned]
  · simp only [Req.prefillToken_kv, Req.prefillToken_originInputIds, Req.length_prefillToken, hkv,
      horigin, hout, Req.assigned, Req.matched, length_append]
    omega
  · simp [hkv, Req.assigned]
  · simp [hkv, Req.assigned, Req.matched]
  · simp [hkv, Req.assigned]
  · simpa [hkv, Req.assigned, Req.matched] using h.committedFreed
  · simpa [hkv, Req.assigned, Req.matched] using h.overallocatedFreed
  · simpa [hcomp] using h.completed
  · rw [Req.prefillToken_llm42VerifiedTokens, Req.length_prefillToken, hver, hout]
    split
    · omega
    · omega
  · intro henable hd
    rw [Req.prefillToken_isDeterministic, hdet] at hd
    rw [Req.prefillToken_llm42VerifiedTokens, hver, hout, hdet]
    split
    · exact Nat.one_pos
    next hnil => exact h.verified_pos henable hd fun hout => hnil ⟨hd, henable, hout⟩

theorem RequestExtend.settled (h : Queued cfg r)
    (hx : RequestExtend cfg rejected token logits row r r' message) (id : ReqId) :
    Settled cfg ⟨id, 0, token, r.originInputIds.length + r.outputIds.length, row⟩ r' := by
  obtain ⟨_, h₁, hout, h₃, rfl, _⟩ := hx
  have hlive := h.live h₁ token logits id
  refine Settled.congr ?_ (h₃.streamOutput_core cfg.args)
  cases hout with
  | finished hf => exact .inl ((gone_release hf).congr (Req.acceptToken_core _ _))
  | shared start indices node hf _ =>
    refine .inr ⟨?_, ?_⟩
    · rw [Req.finished_congr (Req.acceptToken_core _ _)]
      exact hf
    · refine Live.congr ?_ (Req.acceptToken_core _ _)
      exact { hlive with }

end RequestExtend

theorem TreeCache.prefixMatch (t : TreeCache) (r : Req) : r.PrefixMatch
      (t.matchPrefix r.extraKey ((r.originInputIds ++ r.outputIds).take r.maxPrefixLen)).1
      (t.matchPrefix r.extraKey ((r.originInputIds ++ r.outputIds).take r.maxPrefixLen)).2.1 := by
  have hle := t.length_matchPrefix_le r.extraKey
    ((r.originInputIds ++ r.outputIds).take r.maxPrefixLen)
  have hmax := r.maxPrefixLen_le
  rw [length_take] at hle
  refine ⟨by omega, ?_⟩
  cases t with
  | chunkCache => exact .inl ⟨rfl, rfl⟩
  | radixCache f d =>
    refine .inr (Eq.trans (b := some ⟨r.extraKey, _⟩) rfl ?_)
    rw [take_take]
    exact congrArg (fun n => some (NodeRef.mk _ (take n _))) (min_eq_left (hle.trans (min_le_left _ _)))

namespace Scheduler

variable {cfg : SchedulerConfig} {s t : Scheduler} {tokens : ReqId → Token}
  {logitsOf : ReqId → LogitsRow} {victims : List NodeRef} {ids : List ReqId}

theorem matchLoop_spec (hnd : ids.Nodup) (s : Scheduler) :
    (∀ id ∈ ids, ∃ indices node, (s.heap id).PrefixMatch indices node ∧
        (ids.foldl initNextRoundInput s).heap id = (s.heap id).matched indices node) ∧
      (∀ j ∉ ids, (ids.foldl initNextRoundInput s).heap j = s.heap j) ∧
      (ids.foldl initNextRoundInput s).runningBatch = s.runningBatch ∧
      (ids.foldl initNextRoundInput s).nextId = s.nextId ∧
      (ids.foldl initNextRoundInput s).waitingQueue = s.waitingQueue ∧
      (ids.foldl initNextRoundInput s).memory.rows = s.memory.rows := by
  induction ids generalizing s with
  | nil => simp
  | cons id ids ih =>
    obtain ⟨hid, hnd⟩ := nodup_cons.mp hnd
    obtain ⟨h1, h2, h3, h4, h5, h6⟩ := ih hnd (s.initNextRoundInput id)
    have hother : ∀ j, j ≠ id → (s.initNextRoundInput id).heap j = s.heap j := by
      intro j hj
      simp [initNextRoundInput, setReq, setMemory, hj]
    simp only [foldl_cons]
    refine ⟨?_, ?_, h3, h4, h5, h6⟩
    · intro j hj
      rcases mem_cons.mp hj with rfl | hj
      · refine ⟨_, _, s.memory.tree.prefixMatch (s.heap j), ?_⟩
        rw [h2 j hid]
        simp [initNextRoundInput, setReq, setMemory, Req.matched]
      · have hne : j ≠ id := fun h => hid (h ▸ hj)
        obtain ⟨indices, node, hmatch, heq⟩ := h1 j hj
        rw [hother j hne] at hmatch heq
        exact ⟨indices, node, hmatch, heq⟩
    · intro j hj
      obtain ⟨hj1, hj2⟩ := not_or.mp (mem_cons.not.mp hj)
      rw [h2 j hj2, hother j hj1]

theorem assignRows_frame (xs : List (ReqId × ℕ)) (locs : List ℕ) (s : Scheduler) :
    (assignRows xs locs s).runningBatch = s.runningBatch ∧
      (assignRows xs locs s).nextId = s.nextId ∧
      (assignRows xs locs s).waitingQueue = s.waitingQueue ∧
      (assignRows xs locs s).memory.allocator = s.memory.allocator ∧
      (assignRows xs locs s).memory.tree = s.memory.tree := by
  induction xs generalizing locs s with
  | nil => exact ⟨rfl, rfl, rfl, rfl, rfl⟩
  | cons x xs ih =>
    exact ih (locs.drop (s.heap x.1).extendInputLen)
      (s.assignRow x.1 x.2 (locs.take (s.heap x.1).extendInputLen))

theorem assignRows_spec (hnd : ids.Nodup) (rows locs : List ℕ)
    (hlen : rows.length = ids.length) (s : Scheduler) :
    (∀ x ∈ ids.zip rows, (assignRows (ids.zip rows) locs s).heap x.1 = (s.heap x.1).assigned x.2) ∧
      ∀ j ∉ ids, (assignRows (ids.zip rows) locs s).heap j = s.heap j := by
  induction ids generalizing rows locs s with
  | nil => simp [assignRows]
  | cons id ids ih =>
    cases rows with
    | nil => simp at hlen
    | cons row rows =>
      obtain ⟨hid, hnd⟩ := nodup_cons.mp hnd
      have hother : ∀ j ls, j ≠ id → (s.assignRow id row ls).heap j = s.heap j := by
        intro j ls hj
        simp [assignRow, setReq, setMemory, hj]
      simp only [zip_cons_cons, assignRows]
      obtain ⟨h1, h2⟩ := ih hnd rows (locs.drop (s.heap id).extendInputLen) (by simpa using hlen)
        (s.assignRow id row (locs.take (s.heap id).extendInputLen))
      constructor
      · intro x hx
        rcases mem_cons.mp hx with rfl | hx
        · rw [h2 _ hid]
          simp [assignRow, setReq, setMemory, Req.assigned]
        · have hmem : x.1 ∈ ids := (of_mem_zip hx).1
          have hne : x.1 ≠ id := fun h => hid (h ▸ hmem)
          rw [h1 x hx, hother _ _ hne]
      · intro j hj
        obtain ⟨hj1, hj2⟩ := not_or.mp (mem_cons.not.mp hj)
        rw [h2 j hj2, hother j _ hj1]

/-- An extend batch up to its forward pass. -/
structure AssignPhases (s : Scheduler) (ids : List ReqId) where
  rows : List ℕ
  locs : List ℕ
  rowsTaken : Memory
  memory : Memory
  matched : Scheduler
  assigned : Scheduler
  nodup : ids.Nodup
  mem_queue : ∀ id ∈ ids, id ∈ s.waitingQueue
  matched_eq : matched = ids.foldl initNextRoundInput
    { s with waitingQueue := s.waitingQueue.filter fun id => decide (id ∉ ids) }
  rows_eq : rows = matched.memory.rows.freeSlots.take ids.length
  length_rows : rows.length = ids.length
  rowsTaken_eq : rowsTaken = { matched.memory with rows := { matched.memory.rows with
    freeSlots := matched.memory.rows.freeSlots.drop ids.length } }
  allocated : rowsTaken.Allocated (ids.map fun id => (matched.heap id).extendInputLen).sum locs memory
  assigned_eq : assigned = assignRows (ids.zip rows) locs (matched.setMemory memory)

structure ExtendPhases (cfg : SchedulerConfig) (s : Scheduler) (ids : List ReqId)
    (tokens : ReqId → Token) (logitsOf : ReqId → LogitsRow) (t : Scheduler) extends
    AssignPhases s ids where
  accepted : Scheduler
  accepted_eq : ids.foldlM (prefillResult cfg ids tokens logitsOf) assigned = .ok accepted
  final_eq : t = { accepted.streamOutput cfg.args ids with
    runningBatch := (accepted.streamOutput cfg.args ids).runningBatch ++
      (assigned.extendEntries tokens (ids.zip rows)).filter fun e =>
        (accepted.streamOutput cfg.args ids).isUnfinished e.req }

theorem allocForExtend_ok {rows : List ℕ} {u : Scheduler} (hnd : ids.Nodup)
    (hmem : ∀ id ∈ ids, id ∈ s.waitingQueue)
    (h : (ids.foldl initNextRoundInput { s with
      waitingQueue := s.waitingQueue.filter fun id => decide (id ∉ ids) }).allocForExtend ids victims =
        .ok (rows, u)) : ∃ P : AssignPhases s ids, P.rows = rows ∧ P.assigned = u := by
  obtain ⟨⟨rows', m₁⟩, hrows, h⟩ := Library.bind_eq_ok h
  obtain ⟨⟨locs, m₂⟩, hlocs, h⟩ := Library.bind_eq_ok h
  cases h
  unfold Memory.allocReqSlots at hrows
  split at hrows
  · cases hrows
  next hfree =>
  cases hrows
  refine ⟨⟨_, locs, _, m₂, _, _, hnd, hmem, rfl, rfl, ?_, rfl,
    Memory.allocTokenSlots_ok hlocs, rfl⟩, rfl, rfl⟩
  rw [length_take]
  omega

theorem extendPhases_of_ok (hids : ids.Nodup ∧ ∀ id ∈ ids, id ∈ s.waitingQueue)
    (h : s.extend cfg ids tokens logitsOf victims = .ok t) :
    Nonempty (ExtendPhases cfg s ids tokens logitsOf t) := by
  unfold extend at h
  rw [if_pos hids] at h
  obtain ⟨⟨rows, assigned⟩, halloc, h⟩ := Library.bind_eq_ok h
  obtain ⟨accepted, hacc, h⟩ := Library.bind_eq_ok h
  simp only [Except.ok.injEq] at h
  obtain ⟨P, rfl, rfl⟩ := allocForExtend_ok hids.1 hids.2 halloc
  exact ⟨⟨P, accepted, hacc, h.symm⟩⟩

theorem extend_eq_of_not (hids : ¬ (ids.Nodup ∧ ∀ id ∈ ids, id ∈ s.waitingQueue))
    (h : s.extend cfg ids tokens logitsOf victims = .ok t) : t = s := by
  unfold extend at h
  rw [if_neg hids] at h
  exact (Except.ok.inj h).symm

/-- A prefill step goes through its phases, or admits nobody. -/
theorem extend_ok (h : s.extend cfg ids tokens logitsOf victims = .ok t) :
    t = s ∨ Nonempty (ExtendPhases cfg s ids tokens logitsOf t) := by
  by_cases hids : ids.Nodup ∧ ∀ id ∈ ids, id ∈ s.waitingQueue
  · exact .inr (extendPhases_of_ok hids h)
  · exact .inl (extend_eq_of_not hids h)

theorem PrefillEffect.outcome {m m' : Memory} {r r' : Req} {token : Token}
    (h : PrefillEffect m r token m' r') : r.PrefillOutcome token r' := by
  cases h with
  | finished hf _ => exact .finished hf
  | @cached row r'' _ hf _ hc =>
    obtain ⟨start, indices, node, heq⟩ := hc.req_eq
    have hnode := hc.node_eq
    subst heq
    exact .shared start indices node hf hnode

def RejectedBy (s : Scheduler) (ids : List ReqId) (tokens : ReqId → Token) : Prop :=
  ∃ id ∈ ids, (s.heap id).Rejects (tokens id)

namespace AssignPhases

variable (P : AssignPhases s ids)

theorem mem_zip {id : ReqId} (hid : id ∈ ids) : ∃ row, (id, row) ∈ ids.zip P.rows := by
  obtain ⟨i, hi, rfl⟩ := getElem_of_mem hid
  have hi' : i < P.rows.length := P.length_rows.symm ▸ hi
  refine ⟨P.rows[i], mem_iff_getElem.mpr ⟨i, ?_, ?_⟩⟩
  · rw [length_zip]
    omega
  · simp

theorem matched_frame :
    (∀ j ∉ ids, P.matched.heap j = s.heap j) ∧ P.matched.runningBatch = s.runningBatch ∧
      P.matched.nextId = s.nextId ∧
      P.matched.waitingQueue = s.waitingQueue.filter fun id => decide (id ∉ ids) := by
  obtain ⟨_, h2, h3, h4, h5, _⟩ := matchLoop_spec P.nodup
    { s with waitingQueue := s.waitingQueue.filter fun id => decide (id ∉ ids) }
  rw [P.matched_eq]
  exact ⟨h2, h3, h4, h5⟩

theorem assigned_heap {x : ReqId × ℕ} (hx : x ∈ ids.zip P.rows) :
    ∃ indices node, (s.heap x.1).PrefixMatch indices node ∧
      P.assigned.heap x.1 = ((s.heap x.1).matched indices node).assigned x.2 := by
  obtain ⟨h1, _⟩ := matchLoop_spec P.nodup
    { s with waitingQueue := s.waitingQueue.filter fun id => decide (id ∉ ids) }
  obtain ⟨indices, node, hmatch, heq⟩ := h1 x.1 (of_mem_zip hx).1
  refine ⟨indices, node, hmatch, ?_⟩
  have hassign := (assignRows_spec P.nodup P.rows P.locs P.length_rows
    (P.matched.setMemory P.memory)).1 x hx
  rw [P.assigned_eq, hassign]
  refine congrArg (Req.assigned x.2) ?_
  rw [← heq, ← P.matched_eq]
  rfl

theorem assigned_frame :
    (∀ j ∉ ids, P.assigned.heap j = s.heap j) ∧ P.assigned.runningBatch = s.runningBatch ∧
      P.assigned.nextId = s.nextId ∧
      P.assigned.waitingQueue = s.waitingQueue.filter fun id => decide (id ∉ ids) := by
  obtain ⟨hm2, hm3, hm4, hm5⟩ := P.matched_frame
  have h2 := (assignRows_spec P.nodup P.rows P.locs P.length_rows (P.matched.setMemory P.memory)).2
  obtain ⟨h3, h4, h5, _⟩ := assignRows_frame (ids.zip P.rows) P.locs (P.matched.setMemory P.memory)
  rw [← P.assigned_eq] at h2 h3 h4 h5
  exact ⟨fun j hj => (h2 j hj).trans (hm2 j hj), h3.trans hm3, h4.trans hm4, h5.trans hm5⟩

theorem found {p : Prop} {j : ReqId} {r : Req} (hj : j ∈ ids) (hunf : ¬ (s.heap j).finished)
    (hpre : (P.assigned.heap j).AbortedIf p r) : ∃ row indices node,
      (s.heap j).PrefixMatch indices node ∧
      (((s.heap j).matched indices node).assigned row).AbortedIf p r ∧
      ¬ r.finished ∧ r.kv.isRetracted = false := by
  obtain ⟨row, hrow⟩ := P.mem_zip hj
  obtain ⟨indices, node, hmatch, heq⟩ := P.assigned_heap hrow
  rw [show P.assigned.heap j = _ from heq] at hpre
  refine ⟨row, indices, node, hmatch, hpre, ?_, ?_⟩
  · rw [Req.finished_congr (r := ((s.heap j).matched indices node).assigned row) hpre.core_eq]
    exact hunf
  · exact congrArg KvFields.isRetracted (Req.kv_congr hpre.core_eq)

end AssignPhases

namespace ExtendPhases

variable (P : ExtendPhases cfg s ids tokens logitsOf t)

theorem accepted_spec (hunf : ∀ id ∈ ids, ¬ (s.heap id).finished) :
    (∀ x ∈ ids.zip P.rows, ∃ indices node r₁ r₂, (s.heap x.1).PrefixMatch indices node ∧
        (((s.heap x.1).matched indices node).assigned x.2).AbortedIf (s.RejectedBy ids tokens) r₁ ∧
        (r₁.prefillToken cfg.args.enableLlm42 (tokens x.1) (logitsOf x.1)).PrefillOutcome
          (tokens x.1) r₂ ∧
        r₂.AbortedIf (s.RejectedBy ids tokens) (P.accepted.heap x.1)) ∧
      (∀ j ∉ ids, (s.heap j).AbortedIf (s.RejectedBy ids tokens) (P.accepted.heap j)) ∧
      P.accepted.runningBatch = s.runningBatch ∧ P.accepted.nextId = s.nextId ∧
      P.accepted.waitingQueue.Sublist (s.waitingQueue.filter fun id => decide (id ∉ ids)) := by
  obtain ⟨hother, hrun, hnext, hwait⟩ := P.assigned_frame
  have hloop := foldlM_heap (s := P.assigned) (t := P.accepted) id (p := s.RejectedBy ids tokens)
    (fun id r r' => (r.prefillToken cfg.args.enableLlm42 (tokens id) (logitsOf id)).PrefillOutcome
      (tokens id) r') (by simpa using P.nodup) ?_ P.accepted_eq
  · obtain ⟨h1, h2, h3, h4, h5⟩ := hloop
    refine ⟨?_, ?_, h3.trans hrun, h4.trans hnext, hwait ▸ h5⟩
    · intro x hx
      obtain ⟨indices, node, hmatch, heq⟩ := P.assigned_heap hx
      obtain ⟨r₁, r₂, hr₁, hout, hr₂⟩ := h1 x.1 (of_mem_zip hx).1
      have hr₁' : (P.assigned.heap x.1).AbortedIf (s.RejectedBy ids tokens) r₁ := hr₁
      rw [heq] at hr₁'
      exact ⟨indices, node, r₁, r₂, hmatch, hr₁', hout, hr₂⟩
    · intro j hj
      have h := h2 j (by simpa using hj)
      rwa [hother j hj] at h
  · intro u j v hj hpre _ hstep
    obtain ⟨row, indices, node, _, hpre', hfin, hret⟩ := P.found hj (hunf j hj) hpre
    obtain ⟨hframe, heff⟩ := prefillResult_ok hj hfin hret hstep
    have hrej : (u.heap j).Rejects (tokens j) → s.RejectedBy ids tokens := by
      rintro ⟨g, hg, ha⟩
      have hgram : (u.heap j).grammar = (s.heap j).grammar := hpre'.grammar
      exact ⟨j, hj, g, hgram ▸ hg, ha⟩
    exact ⟨hframe.imp hrej, heff.outcome⟩

def entry (s : Scheduler) (tokens : ReqId → Token) (x : ReqId × ℕ) : BatchEntry :=
  ⟨x.1, 0, tokens x.1, (s.heap x.1).originInputIds.length + (s.heap x.1).outputIds.length, x.2⟩

def message (id : ReqId) : Option StreamMessage :=
  ((P.accepted.heap id).streamOutput cfg.args).2

theorem requests (hunf : ∀ id ∈ ids, ¬ (s.heap id).finished) :
    (∀ x ∈ ids.zip P.rows, RequestExtend cfg (s.RejectedBy ids tokens) (tokens x.1)
        (logitsOf x.1) x.2 (s.heap x.1) (t.heap x.1) (P.message x.1)) ∧
      (∀ j ∉ ids, (s.heap j).AbortedIf (s.RejectedBy ids tokens) (t.heap j)) ∧
      t.runningBatch = s.runningBatch ++
        ((ids.zip P.rows).map (entry s tokens)).filter (fun e => t.isUnfinished e.req) ∧
      t.nextId = s.nextId ∧
      t.waitingQueue.Sublist (s.waitingQueue.filter fun id => decide (id ∉ ids)) := by
  obtain ⟨ha, ha', harun, hanext, hawait⟩ := P.accepted_spec hunf
  obtain ⟨_, hbatch, hnext, hwait, _⟩ := streamOutput_spec cfg.args P.accepted ids
  have ht : ∀ j, t.heap j = if j ∈ ids then ((P.accepted.heap j).streamOutput cfg.args).1
      else P.accepted.heap j := fun j =>
    (congrArg (fun u : Scheduler => u.heap j) P.final_eq).trans
      (streamOutput_heap cfg.args P.nodup P.accepted j)
  refine ⟨?_, fun j hj => ?_, ?_, (congrArg (·.nextId) P.final_eq).trans (hnext.trans hanext), ?_⟩
  · intro x hx
    obtain ⟨indices, node, r₁, r₂, hmatch, hr₁, hout, hr₂⟩ := ha x hx
    exact ⟨hmatch, hr₁, hout, hr₂, by rw [ht, if_pos (of_mem_zip hx).1], rfl⟩
  · rw [ht, if_neg hj]
    exact ha' j hj
  · have hentries : P.assigned.extendEntries tokens (ids.zip P.rows) =
        (ids.zip P.rows).map (entry s tokens) := by
      refine map_congr_left fun x hx => ?_
      obtain ⟨indices, node, _, heq⟩ := P.assigned_heap hx
      have hlen : (P.assigned.heap x.1).kv.fillIds.length =
          (s.heap x.1).originInputIds.length + (s.heap x.1).outputIds.length := by
        rw [heq]
        exact length_append
      rw [hlen]
      rfl
    have hfin := congrArg (·.runningBatch) P.final_eq
    dsimp only at hfin
    rw [hfin, hbatch, harun, hentries]
    congr 2
    funext e
    have hu := congrArg (fun u : Scheduler => u.isUnfinished e.req) P.final_eq
    exact hu.symm
  · rw [show t.waitingQueue = P.accepted.waitingQueue from
      (congrArg (·.waitingQueue) P.final_eq).trans hwait]
    exact hawait

include P in
/-- The requests of the batch that go on join the running batch. -/
theorem running_eq (hunf : ∀ id ∈ ids, ¬ (s.heap id).finished) :
    t.running = s.running ++ ids.filter t.isUnfinished := by
  obtain ⟨_, _, hbatch, _, _⟩ := P.requests hunf
  have hfst : (ids.zip P.rows).map Prod.fst = ids := map_fst_zip P.length_rows.ge
  rw [running, hbatch, map_append, filter_map, map_map]
  conv_rhs => rw [← hfst, filter_map]
  rfl

end ExtendPhases

end Scheduler

end LLM42
