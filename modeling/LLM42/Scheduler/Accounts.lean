import LLM42.Scheduler.Anchored

/-! # The ledger through a step

Every phase of a decode step and of an extend batch keeps the books, as long as no rollback reaches
into a shared prefix. -/

namespace LLM42

open Scheduler List

abbrev Scheduler.kv (s : Scheduler) (id : ReqId) : KvFields := (s.heap id).kv

/-- The books of the first `n` requests, inside a free group or not; `chunk` says that there is no
prefix cache. -/
structure Books (slotsAside rowsAside : List ℕ) (n : ℕ) (grouped : Bool) (chunk : Prop)
    (s : Scheduler) : Prop where
  ledger : Ledger slotsAside rowsAside n s.kv s.memory
  group : s.memory.allocator.isNotInFreeGroup = !grouped
  chunk : chunk → s.memory.tree = .chunkCache

variable {cfg : SchedulerConfig} {slotsAside rowsAside locs : List ℕ} {n : ℕ} {grouped : Bool}
  {chunk : Prop} {s t u : Scheduler} {id : ReqId} {e : BatchEntry} {r : Req}

namespace Books

theorem congr (h : Books slotsAside rowsAside n grouped chunk s)
    (hkv : ∀ j < n, t.kv j = s.kv j) (hmem : t.memory = s.memory) :
    Books slotsAside rowsAside n grouped chunk t := by
  refine ⟨?_, hmem ▸ h.group, fun hc => hmem ▸ h.chunk hc⟩
  rw [hmem]
  exact h.ledger.congr fun j hj => by rw [hkv j hj]; exact ⟨rfl, rfl, rfl⟩

theorem freeGroupBegin (h : Books slotsAside rowsAside n false chunk s) :
    Books slotsAside rowsAside n true chunk s.freeGroupBegin := by
  refine ⟨?_, rfl, h.chunk⟩
  have hheld := TokenToKVPoolAllocator.held_freeGroupBegin (a := s.memory.allocator) h.group
  refine h.ledger.of_pool rfl rfl ?_ (List.Perm.refl _) fun _ => le_rfl
  simp only [Memory.pooled, Scheduler.freeGroupBegin, setMemory, hheld]
  exact List.Perm.refl _

theorem freeGroupEnd (h : Books slotsAside rowsAside n true chunk s) :
    Books slotsAside rowsAside n false chunk s.freeGroupEnd := by
  refine ⟨?_, by simp [Scheduler.freeGroupEnd, setMemory], h.chunk⟩
  have hheld := TokenToKVPoolAllocator.held_freeGroupEnd (a := s.memory.allocator) h.group
  refine h.ledger.of_pool (by simp [Scheduler.freeGroupEnd, setMemory]) rfl ?_ (List.Perm.refl _)
    fun _ => le_rfl
  exact (hheld.append_right _).append_right _

/-- The finish path, or nothing, for a request whose tokens and slots agree. -/
theorem effect (h : Books slotsAside rowsAside n grouped chunk s) (hid : id < n)
    (hr : r.kv = s.kv id) (hlive : Live cfg 0 0 e r) (hanch : Anchored r)
    (heff : MemoryEffect s.memory r t.memory (t.kv id)) (hother : ∀ j < n, j ≠ id → t.kv j = s.kv j) :
    Books slotsAside rowsAside n grouped chunk t := by
  generalize hk : t.kv id = k at heff
  generalize hm : t.memory = m at heff
  cases heff with
  | same =>
    refine h.congr (fun j hj => ?_) hm
    by_cases hne : j = id
    · rw [hne, hk, hr]
    · exact hother j hj hne
  | released hrel =>
    refine ⟨?_, ?_, fun hc => ?_⟩
    · have hcov : s.memory.Covered r
          ((r.originInputIds ++ r.outputIds).take r.kv.kvCommittedLen) := by
        rw [hlive.take_committed]
        exact h.ledger.covered hid hr hlive.committedFreed hlive.length_committed hanch
      rw [hm]
      exact h.ledger.released hid hr hrel hcov hother (by rw [hk, hr])
    · rw [hm, hrel.group, h.group]
    · rw [hm]
      exact hrel.chunk (h.chunk hc)

end Books

theorem ledger_extendRows {es : ScheduleBatch} (hnd : (es.map (·.req)).Nodup)
    (hlen : locs.length = es.length)
    (hes : ∀ e ∈ es, e.req < n ∧ (s.kv e.req).reqPoolIdx = some e.reqPoolIdx ∧
      e.seqLen = (s.kv e.req).kvCommittedLen ∧
      (s.kv e.req).cacheProtectedLen ≤ (s.kv e.req).kvCommittedLen)
    (h : Ledger (locs ++ slotsAside) rowsAside n s.kv s.memory) :
    Ledger slotsAside rowsAside n (extendRows es locs s).kv (extendRows es locs s).memory := by
  induction es generalizing locs s with
  | nil =>
    cases locs with
    | nil => exact h
    | cons => simp at hlen
  | cons e es ih =>
    cases locs with
    | nil => simp at hlen
    | cons loc locs =>
      rw [map_cons, nodup_cons] at hnd
      obtain ⟨hlt, hrow, hseq, hle⟩ := hes e (by simp)
      have hother : ∀ j, j ≠ e.req → (s.extendRow e loc).kv j = s.kv j := by
        intro j hj
        simp [extendRow, setReq, setMemory, kv, hj]
      refine ih (s := s.extendRow e loc) hnd.2 (by simpa using hlen) ?_ ?_
      · intro e' he'
        have hne : e'.req ≠ e.req := fun h => hnd.1 (h ▸ mem_map_of_mem he')
        rw [hother _ hne]
        exact hes e' (by simp [he'])
      · have hself : (s.extendRow e loc).kv e.req = (s.heap e.req).advanced.kv := by
          simp [extendRow, setReq, setMemory, kv]
        have hx := h.extended hlt hrow hle (fun j _ hj => hother j hj) hself
        rw [← hseq] at hx
        exact hx

section

variable (h : Books slotsAside rowsAside n grouped chunk s)

include h

theorem Books.decodeResult {tokens : ReqId → Token} {logitsOf : ReqId → LogitsRow} (hid : id < n)
    (hrun : id ∈ s.running) (hlive : Live cfg 1 0 e (s.heap id)) (hanch : Anchored (s.heap id))
    (hstep : decodeResult cfg tokens logitsOf s id = .ok t) :
    Books slotsAside rowsAside n grouped chunk t := by
  obtain ⟨hframe, _, heff⟩ := decodeResult_ok hrun hstep
  refine h.effect hid (r := (s.heap id).decodeToken (tokens id) (logitsOf id)) ?_
    (hlive.decodeToken _ _) (hanch.decodeToken _ _) heff fun j _ hj => (hframe.other j hj).fields.1
  simp

theorem Books.recheck (hid : id < n) (hacc : Accepted cfg e (s.heap id))
    (hanch : Anchored (s.heap id)) (hstep : Scheduler.recheck s id = .ok t) :
    Books slotsAside rowsAside n grouped chunk t := by
  rcases hacc with hgone | ⟨hlive, _⟩
  · have hskip : Scheduler.recheck s id = .ok s := by simp [Scheduler.recheck, hgone.completed]
    rw [hskip] at hstep
    cases hstep
    exact h
  · obtain ⟨hframe, _, heff⟩ := recheck_ok hstep
    exact h.effect hid (r := (s.heap id).checkFinished) (by simp) hlive.checkFinished
      hanch.checkFinished heff fun j _ hj => ((hframe False).other j hj).fields.1

theorem Books.rollback {x : ReqId × ℕ} (hid : x.1 < n) (hlive : Live cfg x.2 x.2 e (s.heap x.1))
    (hanch : Anchored (s.heap x.1)) (hstep : rollback s x = .ok t) :
    Books slotsAside rowsAside n grouped chunk t := by
  obtain ⟨hframe, hheap, row, hrow, hmem⟩ := rollback_ok hstep
  have hother : ∀ j < n, j ≠ x.1 → t.kv j = s.kv j := fun j _ hj =>
    ((hframe False).other j hj).fields.1
  have hcomm := hlive.committed
  have hpos := hlive.output_pos
  have hle := hanch.le
  rw [length_append, length_dropLast] at hle
  have hself : t.kv x.1 = { s.kv x.1 with
      kvCommittedLen := (s.heap x.1).originInputIds.length + ((s.heap x.1).outputIds.length - 1)
      kvAllocatedLen := (s.kv x.1).kvAllocatedLen - x.2
      decodeBatchIdx := (s.kv x.1).decodeBatchIdx - x.2 } := by
    have hlen : (s.kv x.1).kvCommittedLen - x.2 =
        (s.heap x.1).originInputIds.length + ((s.heap x.1).outputIds.length - 1) := by
      change (s.heap x.1).kv.kvCommittedLen - x.2 = _
      omega
    rw [← hlen, kv, hheap]
    rfl
  refine ⟨?_, ?_, fun hc => ?_⟩
  · rw [hmem]
    refine h.ledger.rolledBack hid hrow ?_ hle (Nat.le_add_right _ _) hother hself
    change (s.heap x.1).kv.kvCommittedLen = _
    omega
  · rw [hmem]
    simpa [Memory.free] using h.group
  · rw [hmem]
    exact h.chunk hc

end

open LLM42Worker in
theorem Books.passed {w : LLM42Worker} {v : Verdict} {ids : List ReqId} {vs : VerifyState Unit}
    {results : List (ReqId × ℕ)} (h : Books slotsAside rowsAside n grouped chunk s)
    (hpass : Passed w v ids s.toVerifyState vs results) :
    Books slotsAside rowsAside n grouped chunk (s.ofVerifyState vs) := by
  have hkv : ∀ j, (s.ofVerifyState vs).kv j = s.kv j := by
    intro j
    by_cases hj : j ∈ ids
    · obtain ⟨net, hout, _⟩ := hpass.outcome j hj
      exact hout.outcome.kv_eq
    · exact congrArg Req.kv (hpass.other j hj).1
  refine ⟨?_, hpass.group.trans h.group, h.chunk⟩
  have hledger : Ledger slotsAside rowsAside n s.kv (s.ofVerifyState vs).memory :=
    h.ledger.of_pool hpass.size rfl
      ((hpass.held.append_right _).append_right _) (Perm.refl _) fun _ => le_rfl
  exact hledger.congr fun j _ => by rw [hkv j]; exact ⟨rfl, rfl, rfl⟩

/-- Sharing facts of all requests of the batch. -/
structure Sharing (cfg : SchedulerConfig) (s : Scheduler) : Prop where
  anchored : ∀ id ∈ s.running, Anchored (s.heap id)
  guarded : cfg.args.enableLlm42 → ∀ id ∈ s.running, Guarded (s.heap id)

theorem mem_running_of_filterBatch {e : BatchEntry} (he : e ∈ s.filterBatch.runningBatch) :
    e.req ∈ s.running := s.filterBatch_sublist.subset (mem_map_of_mem he)

section Decode

variable {tokens : ReqId → Token} {logitsOf : ReqId → LogitsRow} {verdict : Verdict}
  {victims : List NodeRef} (hc : Consistent cfg s) (hs : Sharing cfg s)
  (h : Books slotsAside rowsAside s.nextId false chunk s)

include hc

namespace Scheduler.ResultPhases

variable (P : ResultPhases cfg s tokens logitsOf)

theorem lt_of_mem_accepted {e : BatchEntry} (he : e ∈ P.accepted.runningBatch) :
    e.req < s.nextId := by
  have hmem : e.req ∈ s.filterBatch.running := P.accepted_running hc ▸ mem_map_of_mem he
  exact hc.lt _ (mem_append_left _ (s.filterBatch_sublist.subset hmem))

include hs

theorem accepted_anchored : ∀ e ∈ P.accepted.runningBatch,
    Anchored (P.accepted.heap e.req) ∧ (cfg.args.enableLlm42 → Guarded (P.accepted.heap e.req)) := by
  rw [P.accepted_runningBatch hc]
  intro e' he'
  obtain ⟨e, he, rfl⟩ := mem_map.mp he'
  obtain ⟨r, h₁, h₂⟩ := (P.accepted_spec hc).1 e he
  have hrun := mem_running_of_filterBatch he
  have hadv : Anchored (s.heap e.req).advanced := hs.anchored e.req hrun
  refine ⟨((hadv.congr h₁.core_eq).decoded _ _ cfg).congr h₂.core_eq, fun henable => ?_⟩
  have hg : Guarded (s.heap e.req).advanced := hs.guarded henable e.req hrun
  exact ((hg.congr h₁.core_eq).decoded _ _ cfg).congr h₂.core_eq

include h

theorem books_prepared : Books slotsAside rowsAside s.nextId false chunk P.prepared := by
  have hstart : Ledger (P.locs ++ slotsAside) rowsAside s.nextId
      (s.filterBatch.setMemory P.memory).kv (s.filterBatch.setMemory P.memory).memory :=
    h.ledger.allocated P.allocated
  have hrows := ledger_extendRows (nodup_filterBatch hc) P.allocated.length_eq ?_ hstart
  · obtain ⟨_, _, halloc, htree⟩ := P.prepared_frame
    refine ⟨?_, ?_, fun hchunk => ?_⟩
    · rw [P.prepared_eq]
      exact hrows
    · rw [halloc, P.allocated.group]
      exact h.group
    · rw [htree]
      exact P.allocated.chunk (h.chunk hchunk)
  · intro e he
    have hlive := live_of_mem_filterBatch hc he
    have hrun := mem_running_of_filterBatch he
    have hle := (hs.anchored e.req hrun).le
    rw [hlive.length_committed] at hle
    exact ⟨hc.lt _ (mem_append_left _ hrun), hlive.row, hlive.seqLen, hle⟩

theorem books_accepted : Books slotsAside rowsAside s.nextId true chunk P.accepted := by
  refine P.accepted_invariant hc (P.books_prepared hc hs h).freeGroupBegin ?_
  intro e he u v hmem hlive hcore hbooks hstep
  have hrun := mem_running_of_filterBatch he
  have hanch : Anchored (s.heap e.req).advanced := hs.anchored e.req hrun
  exact hbooks.decodeResult (hc.lt _ (mem_append_left _ hrun)) hmem hlive (hanch.congr hcore) hstep

end Scheduler.ResultPhases

include hs h

namespace Scheduler.DecodePhases

variable (P : DecodePhases cfg s tokens logitsOf verdict t)

theorem books_rechecked : Books slotsAside rowsAside s.nextId true chunk P.rechecked := by
  have hbooks := P.books_accepted hc hs h
  refine P.rechecked_invariant hc hbooks (fun _ _ hpass => hbooks.passed hpass) ?_ ?_
  · intro e he henable hcand u net w hout hu hstep
    obtain ⟨hlive, _⟩ := (P.accepted_entries hc e he).verifiable henable hcand
    obtain ⟨hanch, hguard⟩ := P.accepted_anchored hc hs e he
    exact hu.rollback (P.lt_of_mem_accepted hc he) (hlive.verified hout.outcome)
      (hanch.verified (hguard henable) (isDeterministic_of_isCandidate hcand) hout.outcome) hstep
  · intro e he henable e' u w hreq hverify hu hstep
    have hacc := P.accepted_entries hc e he
    obtain ⟨hanch, hguard⟩ := P.accepted_anchored hc hs e he
    exact hu.recheck (P.lt_of_mem_accepted hc he) (hverify.accepted hacc henable)
      (hverify.anchored hacc henable hanch (hguard henable)).1 hstep

end Scheduler.DecodePhases

theorem Books.decode (hd : s.decode cfg tokens logitsOf verdict victims = .ok t) :
    Books slotsAside rowsAside t.nextId false chunk t := by
  rcases decode_ok hd with ⟨_, rfl⟩ | ⟨⟨P⟩⟩
  · exact h.congr (fun _ _ => rfl) rfl
  · obtain ⟨hcore, _, _, _, hmem⟩ := streamOutput_spec cfg.args P.rechecked P.rechecked.running
    have hbooks : Books slotsAside rowsAside s.nextId true chunk
        (P.rechecked.streamOutput cfg.args P.rechecked.running) :=
      (P.books_rechecked hc hs h).congr (fun j _ => Req.kv_congr (hcore j)) hmem
    rw [(P.requests hc).2.2.1]
    have hend := hbooks.freeGroupEnd
    rwa [← P.final_eq] at hend

end Decode

end LLM42
