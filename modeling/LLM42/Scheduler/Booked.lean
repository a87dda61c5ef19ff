import LLM42.Scheduler.Accounts

/-! # The ledger over whole runs

An extend batch keeps the books as well, and so does every other event that is not `flush_cache`. -/

namespace LLM42

open Scheduler Library List

variable {cfg : SchedulerConfig} {slotsAside rowsAside locs rows : List ℕ} {n : ℕ} {grouped : Bool}
  {chunk : Prop} {s t u : Scheduler} {id : ReqId} {ids : List ReqId}

theorem Books.matchLoop (hnd : ids.Nodup)
    (hids : ∀ id ∈ ids, id < n ∧ (s.kv id).reqPoolIdx = none ∧ (s.kv id).lastNode = none)
    (h : Books slotsAside rowsAside n grouped chunk s) :
    Books slotsAside rowsAside n grouped chunk (ids.foldl initNextRoundInput s) := by
  induction ids generalizing s with
  | nil => exact h
  | cons id ids ih =>
    obtain ⟨hid, hnd⟩ := nodup_cons.mp hnd
    obtain ⟨hlt, hrow, hnode⟩ := hids id (by simp)
    have hother : ∀ j, j ≠ id → (s.initNextRoundInput id).kv j = s.kv j := by
      intro j hj
      simp [initNextRoundInput, setReq, setMemory, kv, hj]
    rw [foldl_cons]
    refine ih hnd ?_ ?_
    · intro j hj
      have hne : j ≠ id := fun h => hid (h ▸ hj)
      rw [hother j hne]
      exact hids j (by simp [hj])
    · refine ⟨?_, h.group, fun hc => ?_⟩
      · refine h.ledger.matched hlt hrow ?_ (fun j _ hj => hother j hj) ?_ ?_
        · simp [KvFields.lockPaths, hnode]
        · simpa [initNextRoundInput, setReq, setMemory, kv, Req.matched] using hrow
        · simp [initNextRoundInput, setReq, setMemory, kv, Req.matched]
      · have hchunk := h.chunk hc
        simp [initNextRoundInput, setReq, setMemory, hchunk, TreeCache.matchPrefix,
          TreeCache.incLockRef]

theorem ledger_assignRows (hnd : ids.Nodup) (hlen : rows.length = ids.length)
    (hlocs : locs.length = (ids.map fun id => (s.heap id).extendInputLen).sum)
    (hids : ∀ id ∈ ids, id < n ∧ (s.kv id).reqPoolIdx = none ∧
      (s.kv id).cacheProtectedLen = (s.kv id).prefixIndices.length ∧
      (s.kv id).prefixIndices.length ≤ (s.kv id).fillIds.length)
    (h : Ledger (locs ++ slotsAside) (rows ++ rowsAside) n s.kv s.memory) :
    Ledger slotsAside rowsAside n (assignRows (ids.zip rows) locs s).kv
      (assignRows (ids.zip rows) locs s).memory := by
  induction ids generalizing rows locs s with
  | nil =>
    simp only [map_nil, sum_nil, length_eq_zero_iff, length_nil] at hlocs hlen
    subst hlocs hlen
    exact h
  | cons id ids ih =>
    cases rows with
    | nil => simp at hlen
    | cons row rows =>
      obtain ⟨hid, hnd⟩ := nodup_cons.mp hnd
      obtain ⟨hlt, hrow, hprot, hle⟩ := hids id (by simp)
      rw [map_cons, sum_cons] at hlocs
      generalize hk : (s.heap id).extendInputLen = k at hlocs
      have hother : ∀ j, j ≠ id → (s.assignRow id row (locs.take k)).heap j = s.heap j := by
        intro j hj
        simp [assignRow, setReq, setMemory, hj]
      simp only [zip_cons_cons, assignRows, hk]
      refine ih (s := s.assignRow id row (locs.take k)) hnd (by simpa using hlen) ?_ ?_ ?_
      · rw [length_drop, hlocs]
        have hsame : (ids.map fun j => ((s.assignRow id row (locs.take k)).heap j).extendInputLen) =
            ids.map fun j => (s.heap j).extendInputLen := by
          refine map_congr_left fun j hj => ?_
          rw [hother j fun h => hid (h ▸ hj)]
        rw [hsame]
        omega
      · intro j hj
        have hne : j ≠ id := fun h => hid (h ▸ hj)
        simp only [kv, hother j hne]
        exact hids j (by simp [hj])
      · have hsplit : locs ++ slotsAside = locs.take k ++ (locs.drop k ++ slotsAside) := by
          rw [← append_assoc, take_append_drop]
        rw [hsplit] at h
        have hself : (s.assignRow id row (locs.take k)).kv id = ((s.heap id).assigned row).kv := by
          simp [assignRow, setReq, setMemory, kv]
        refine h.assigned hlt hrow (fun j _ hj => congrArg Req.kv (hother j hj)) ?_ ?_ ?_ ?_
        · rw [hself]
          rfl
        · rw [hself]
          exact hprot
        · rw [hself]
          have hlen' : (locs.take k).length = k := by
            rw [length_take]
            omega
          have hk' : (s.kv id).fillIds.length - (s.kv id).prefixIndices.length = k := hk
          rw [hlen']
          change (s.kv id).fillIds.length = (s.kv id).prefixIndices.length + k
          omega
        · rw [hself]
          rfl

theorem Books.prefillResult {tokens : ReqId → Token} {logitsOf : ReqId → LogitsRow} {r : Req}
    {row : ℕ} {indices : List ℕ} {node : Option NodeRef}
    (h : Books slotsAside rowsAside n grouped chunk s) (hlt : id < n) (hid : id ∈ ids)
    (hq : Queued cfg r) (hmatch : r.PrefixMatch indices node)
    (hpre : ((r.matched indices node).assigned row).AbortedIf True (s.heap id))
    (hstep : prefillResult cfg ids tokens logitsOf s id = .ok t) :
    Frame True s t id ∧ Books slotsAside rowsAside n grouped chunk t := by
  obtain ⟨hkv, horigin, hout, _, _⟩ := hpre.fields
  have hfin : (s.heap id).finished = r.finished :=
    Req.finished_congr (r := (r.matched indices node).assigned row) hpre.core_eq
  obtain ⟨hframe, heff⟩ := prefillResult_ok hid (by rw [hfin]; exact hq.unfinished)
    (by rw [hkv]; rfl) hstep
  have hlive := hq.live hpre (tokens id) (logitsOf id) id
  have hanch := hmatch.anchored hpre cfg.args.enableLlm42 (tokens id) (logitsOf id)
  have hother : ∀ j < n, j ≠ id → t.kv j = s.kv j := fun j _ hj => (hframe.other j hj).fields.1
  have hr : ((s.heap id).prefillToken cfg.args.enableLlm42 (tokens id) (logitsOf id)).kv =
      s.kv id := Req.prefillToken_kv _ _ _ _
  have hfill : ((s.heap id).prefillToken cfg.args.enableLlm42 (tokens id) (logitsOf id)).kv.fillIds =
      r.originInputIds ++ r.outputIds := by
    rw [Req.prefillToken_kv, hkv]
    rfl
  have hcomm : ((s.heap id).prefillToken cfg.args.enableLlm42 (tokens id)
      (logitsOf id)).kv.fillIds.length = ((s.heap id).prefillToken cfg.args.enableLlm42 (tokens id)
      (logitsOf id)).kv.kvCommittedLen := by
    rw [Req.prefillToken_kv, hkv]
    rfl
  have hkey : Ledger.OnKey
      ((s.heap id).prefillToken cfg.args.enableLlm42 (tokens id) (logitsOf id)).kv
      ((s.heap id).prefillToken cfg.args.enableLlm42 (tokens id) (logitsOf id)).extraKey
      (r.originInputIds ++ r.outputIds) := by
    have := hmatch.onKey hpre
    simpa using this
  refine ⟨hframe.imp fun _ => trivial, ?_⟩
  generalize (s.heap id).prefillToken cfg.args.enableLlm42 (tokens id) (logitsOf id) = r₁
    at heff hlive hanch hr hfill hcomm hkey
  generalize hrt : t.heap id = rt at heff
  generalize hm : t.memory = m at heff
  cases heff with
  | finished _ hrel =>
    refine h.effect hlt hr hlive hanch ?_ hother
    rw [hm, kv, hrt, Req.acceptToken_kv]
    exact .released hrel
  | @cached row' r'' _ _ hrow hc =>
    refine ⟨?_, ?_, fun hchunk => ?_⟩
    · rw [hm]
      refine h.ledger.cached hlt hr hrow hlive.committedFreed hc ?_ hother ?_
      · refine h.ledger.covered hlt hr hlive.committedFreed ?_ (hfill ▸ hkey)
        exact hcomm
      · rw [kv, hrt, Req.acceptToken_kv]
    · rw [hm, hc.group, h.group]
    · rw [hm]
      exact hc.chunk (h.chunk hchunk)

section Extend

variable {tokens : ReqId → Token} {logitsOf : ReqId → LogitsRow} {victims : List NodeRef}
  (hc : Consistent cfg s) (h : Books slotsAside rowsAside s.nextId false chunk s)

include h

theorem Books.receive (r : Req) :
    Books slotsAside rowsAside (s.receive r).nextId false chunk (s.receive r) := by
  unfold Scheduler.receive
  split
  next hnew =>
    refine ⟨h.ledger.received (fun j hj => ?_) ?_ ?_, h.group, h.chunk⟩
    · simp [Scheduler.kv, hj.ne]
    · simp [Scheduler.kv, (Req.initial_of_isNew hnew).kv]
    · simp [Scheduler.kv, (Req.initial_of_isNew hnew).kv]
  · exact h

include hc

namespace Scheduler.AssignPhases

variable (P : AssignPhases s ids)

omit hc h in
theorem matched_heap {id : ReqId} (hid : id ∈ ids) : ∃ indices node,
    (s.heap id).PrefixMatch indices node ∧ P.matched.heap id = (s.heap id).matched indices node := by
  obtain ⟨h1, _⟩ := matchLoop_spec P.nodup
    { s with waitingQueue := s.waitingQueue.filter fun id => decide (id ∉ ids) }
  rw [P.matched_eq]
  exact h1 id hid

theorem books_matched : Books slotsAside rowsAside s.nextId false chunk P.matched := by
  rw [P.matched_eq]
  refine Books.matchLoop P.nodup (fun id hid => ?_) (h.congr (fun _ _ => rfl) rfl)
  have hmem := P.mem_queue id hid
  exact ⟨hc.lt id (mem_append_right _ hmem), (hc.queued id hmem).row, (hc.queued id hmem).lastNode⟩

theorem books_assigned : Books slotsAside rowsAside s.nextId false chunk P.assigned := by
  have hbooks := P.books_matched hc h
  have htaken : Ledger slotsAside (P.rows ++ rowsAside) s.nextId P.matched.kv P.rowsTaken := by
    rw [P.rowsTaken_eq]
    refine hbooks.ledger.of_pool rfl rfl (Perm.refl _) ?_ fun _ => le_rfl
    rw [P.rows_eq, ← append_assoc]
    refine Perm.append_right _ ?_
    refine perm_append_comm.trans ?_
    rw [take_append_drop]
  have halloc : Ledger (P.locs ++ slotsAside) (P.rows ++ rowsAside) s.nextId
      (P.matched.setMemory P.memory).kv (P.matched.setMemory P.memory).memory :=
    htaken.allocated P.allocated
  obtain ⟨_, _, _, hmem, htree⟩ := assignRows_frame (ids.zip P.rows) P.locs
    (P.matched.setMemory P.memory)
  rw [P.assigned_eq]
  refine ⟨ledger_assignRows P.nodup P.length_rows P.allocated.length_eq (fun id hid => ?_) halloc,
    ?_, fun hchunk => ?_⟩
  · have hqueue := P.mem_queue id hid
    obtain ⟨indices, node, hmatch, heq⟩ := P.matched_heap hid
    have hle := hmatch.length_le
    refine ⟨hc.lt id (mem_append_right _ hqueue), ?_⟩
    change (P.matched.heap id).kv.reqPoolIdx = none ∧ _
    rw [show (P.matched.setMemory P.memory).kv id = ((s.heap id).matched indices node).kv from
      congrArg Req.kv heq, heq]
    refine ⟨(hc.queued id hqueue).row, rfl, ?_⟩
    simp only [Req.matched, length_append]
    omega
  · rw [hmem]
    change P.memory.allocator.isNotInFreeGroup = _
    rw [P.allocated.group, P.rowsTaken_eq]
    exact hbooks.group
  · rw [htree]
    refine P.allocated.chunk ?_
    rw [P.rowsTaken_eq]
    exact hbooks.chunk hchunk

end Scheduler.AssignPhases

namespace Scheduler.ExtendPhases

variable (P : ExtendPhases cfg s ids tokens logitsOf t)

theorem books_accepted : Books slotsAside rowsAside s.nextId false chunk P.accepted := by
  refine foldlM_heap_invariant (p := True) id _ (by simpa using P.nodup) ?_ P.accepted_eq
    (P.books_assigned hc h)
  intro u j v hj hpre _ hu hstep
  have hmem := P.mem_queue j hj
  obtain ⟨row, indices, node, hmatch, hpre', _, _⟩ := P.found hj (hc.queued j hmem).unfinished hpre
  exact hu.prefillResult (hc.lt j (mem_append_right _ hmem)) hj (hc.queued j hmem) hmatch
    hpre' hstep

end Scheduler.ExtendPhases

theorem Books.extend (he : s.extend cfg ids tokens logitsOf victims = .ok t) :
    Books slotsAside rowsAside t.nextId false chunk t := by
  rcases extend_ok he with rfl | ⟨⟨P⟩⟩
  · exact h
  · obtain ⟨hcore, _, _, _, hmem⟩ := streamOutput_spec cfg.args P.accepted ids
    rw [(P.requests fun id hid => (hc.queued id (P.mem_queue id hid)).unfinished).2.2.2.1]
    have hbooks : Books slotsAside rowsAside s.nextId false chunk
        (P.accepted.streamOutput cfg.args ids) :=
      (P.books_accepted hc h).congr (fun j _ => Req.kv_congr (hcore j)) hmem
    refine hbooks.congr (fun j _ => ?_) ?_
    · have hkv := congrArg (fun u : Scheduler => u.kv j) P.final_eq
      exact hkv
    · have hmemory := congrArg (·.memory) P.final_eq
      exact hmemory

theorem Books.retract {victims : ReqId → List NodeRef} (hs : Sharing cfg s)
    (hr : s.retract ids victims = .ok t) : Books slotsAside rowsAside t.nextId false chunk t := by
  rcases retract_ok hr with ⟨-, rfl⟩ | ⟨⟨hnd, hmem, -⟩, u, hu, _, _, _, hnext, _, rfl⟩
  · exact h.congr (fun _ _ => rfl) rfl
  · have hbooks : Books slotsAside rowsAside s.nextId false chunk u := by
      refine foldlM_heap_invariant (p := False) id _ (by simpa using hnd) ?_ hu
        (h.congr (t := s.filterBatch) (fun _ _ => rfl) rfl)
      intro v j w hj hpre _ hv hstep
      have hheap : v.heap j = s.heap j := hpre.eq_of_not not_false
      obtain ⟨hframe, hself, row, r', m, hrel, hkeep⟩ := releaseReq_ok hstep
      obtain ⟨e, he, rfl⟩ := mem_running.mp (hmem j hj)
      have hlive := live_of_mem_filterBatch hc he
      have hrun := mem_running_of_filterBatch he
      have hlt : e.req < s.nextId := hc.lt _ (mem_append_left _ hrun)
      have hother : ∀ k < s.nextId, k ≠ e.req → w.kv k = v.kv k := fun k _ hk =>
        ((hframe False).other k hk).fields.1
      have hanch := hs.anchored e.req hrun
      rw [← hheap] at hlive hanch
      have hcov : v.memory.Covered (v.heap e.req)
          (((v.heap e.req).originInputIds ++ (v.heap e.req).outputIds).take
            (v.heap e.req).kv.kvCommittedLen) := by
        rw [hlive.take_committed]
        exact hv.ledger.covered hlt rfl hlive.committedFreed hlive.length_committed hanch
      refine ⟨hframe _, ?_, ?_, fun hchunk => ?_⟩
      · have hrelk : Ledger slotsAside rowsAside s.nextId
            (Function.update v.kv e.req (Memory.releasedKv (v.kv e.req))) m :=
          hv.ledger.released hlt rfl hrel hcov (fun k _ hk => Function.update_of_ne hk _ _)
            (Function.update_self _ _ _)
        refine (hrelk.keeps hkeep).congr fun k hk => ?_
        by_cases hke : k = e.req
        · subst hke
          rw [Function.update_self, kv, hself]
          simp [resetForRetract, Memory.releasedKv, KvFields.lockPaths, Memory.owned]
        · rw [Function.update_of_ne hke, hother k hk hke]
          exact ⟨rfl, rfl, rfl⟩
      · rw [hkeep.group, hrel.group]
        exact hv.group
      · exact hkeep.chunk (hrel.chunk (hv.chunk hchunk))
    rw [show nextId _ = s.nextId from hnext]
    exact hbooks.congr (fun _ _ => rfl) rfl

end Extend

section Sharing

variable {tokens : ReqId → Token} {logitsOf : ReqId → LogitsRow} {verdict : Verdict}
  {victims : List NodeRef}

theorem Sharing.of_core (h : Sharing cfg s) (hrun : ∀ id ∈ t.running, id ∈ s.running)
    (hcore : ∀ id ∈ t.running, (t.heap id).core = (s.heap id).core) : Sharing cfg t :=
  ⟨fun id hid => (h.anchored id (hrun id hid)).congr (hcore id hid),
    fun he id hid => (h.guarded he id (hrun id hid)).congr (hcore id hid)⟩

theorem Sharing.receive (h : Sharing cfg s) (hc : Consistent cfg s) (r : Req) :
    Sharing cfg (s.receive r) := by
  have hrun : (s.receive r).running = s.running := by
    unfold Scheduler.receive
    split <;> rfl
  refine h.of_core (fun id hid => hrun ▸ hid) fun id hid => ?_
  have hlt := hc.lt id (mem_append_left _ (hrun ▸ hid))
  unfold Scheduler.receive
  split
  · simp [hlt.ne]
  · rfl

theorem Sharing.decode (h : Sharing cfg s) (hc : Consistent cfg s)
    (hd : s.decode cfg tokens logitsOf verdict victims = .ok t) : Sharing cfg t := by
  rcases decode_ok hd with ⟨_, rfl⟩ | ⟨⟨P⟩⟩
  · exact h.of_core (fun id hid => s.filterBatch_sublist.subset hid) fun _ _ => rfl
  · obtain ⟨hreq, _⟩ := P.requests hc
    have hall : ∀ id ∈ t.running, Anchored (t.heap id) ∧
        (cfg.args.enableLlm42 → Guarded (t.heap id)) := by
      intro id hid
      obtain ⟨e', he', rfl⟩ := mem_running.mp hid
      obtain ⟨e, he, heq, hstep⟩ := exists_of_mem_forall₂ hreq he'
      have hrun := mem_running_of_filterBatch he
      rw [heq]
      exact hstep.anchored (live_of_mem_filterBatch hc he) (h.anchored _ hrun)
        fun henable => h.guarded henable _ hrun
    exact ⟨fun id hid => (hall id hid).1, fun he id hid => (hall id hid).2 he⟩

theorem Books.cacheProtectedLen_eq_zero {e : BatchEntry} {r : Req}
    (h : Books slotsAside rowsAside n grouped True s) (hid : id < n) (hr : r.kv = s.kv id)
    (hlive : Live cfg 0 0 e r) (hanch : Anchored r) : r.kv.cacheProtectedLen = 0 := by
  have hcov := h.ledger.covered hid hr hlive.committedFreed hlive.length_committed hanch
  have hdepth := hcov.depth
  rw [h.chunk trivial] at hdepth
  exact Nat.le_zero.mp hdepth

theorem Sharing.extend (h : Sharing cfg s) (hc : Consistent cfg s)
    (hbooks : Books slotsAside rowsAside t.nextId false chunk t)
    (hsafe : chunk ∨ (cfg.args.enableLlm42 → ∀ id ∈ ids, (s.heap id).isDeterministic →
      (s.heap id).unverified = []))
    (he : s.extend cfg ids tokens logitsOf victims = .ok t) : Sharing cfg t := by
  have hct := hc.extend he
  rcases extend_ok he with rfl | ⟨⟨P⟩⟩
  · exact h
  · obtain ⟨hreq, hother, hbatch, _, _⟩ :=
      P.requests fun id hid => (hc.queued id (P.mem_queue id hid)).unfinished
    have hcases : ∀ id ∈ t.running, (id ∈ s.running ∧ (t.heap id).core = (s.heap id).core) ∨
        ∃ row, id ∈ ids ∧ (t.heap id).finished = false ∧
          RequestExtend cfg (s.RejectedBy ids tokens) (tokens id) (logitsOf id) row (s.heap id)
            (t.heap id) (P.message id) := by
      intro id hid
      obtain ⟨e, he, rfl⟩ := mem_running.mp hid
      rw [hbatch] at he
      rcases mem_append.mp he with he | he
      · have hrun : e.req ∈ s.running := mem_map_of_mem he
        exact .inl ⟨hrun, (hother _ fun hmem =>
          hc.not_mem_running (P.mem_queue _ hmem) hrun).core_eq⟩
      · obtain ⟨he, hunf⟩ := mem_filter.mp he
        obtain ⟨x, hx, rfl⟩ := mem_map.mp he
        refine .inr ⟨x.2, (of_mem_zip hx).1, ?_, hreq x hx⟩
        simpa [isUnfinished] using hunf
    have hanch : ∀ id ∈ t.running, Anchored (t.heap id) := by
      intro id hid
      rcases hcases id hid with ⟨hrun, hcore⟩ | ⟨row, _, _, hstep⟩
      · exact (h.anchored id hrun).congr hcore
      · exact hstep.anchored
    refine ⟨hanch, fun henable id hid => ?_⟩
    rcases hcases id hid with ⟨hrun, hcore⟩ | ⟨row, hmem, hfin, hstep⟩
    · exact (h.guarded henable id hrun).congr hcore
    · rcases hsafe with hchunk | hver
      · obtain ⟨e, he, rfl⟩ := mem_running.mp hid
        rcases hct.settled e he with hgone | ⟨_, hlive⟩
        · exact absurd hgone.finished (by simp [hfin])
        · intro _
          have hzero := Books.cacheProtectedLen_eq_zero
            ⟨hbooks.ledger, hbooks.group, fun _ => hbooks.chunk hchunk⟩
            (hct.lt _ (mem_append_left _ hid)) rfl hlive (hanch _ hid)
          omega
      · exact hstep.guarded (hver henable id hmem)

theorem Sharing.retract {victims : ReqId → List NodeRef} (h : Sharing cfg s)
    (hr : s.retract ids victims = .ok t) : Sharing cfg t := by
  rcases retract_ok hr with ⟨-, rfl⟩ | ⟨-, u, _, _, hout, hbatch, _, _, rfl⟩
  · exact h.of_core (fun id hid => s.filterBatch_sublist.subset hid) fun _ _ => rfl
  · refine h.of_core (fun id hid => ?_) fun id hid => ?_
    · obtain ⟨e, he, rfl⟩ := mem_running.mp hid
      have hmem := (mem_filter.mp he).1
      rw [hbatch] at hmem
      exact mem_running_of_filterBatch hmem
    · obtain ⟨e, he, rfl⟩ := mem_running.mp hid
      have hne := of_decide_eq_true (mem_filter.mp he).2
      exact congrArg Req.core (hout e.req hne)

end Sharing

/-- What the verification pool keeps out of circulation. -/
def LLM42Worker.reservedSlots (w : LLM42Worker) : List ℕ :=
  (w.fixedPool.map FixedSizeVerificationPool.slots).getD []

def LLM42Worker.reservedRows (w : LLM42Worker) : List ℕ :=
  (w.fixedPool.map FixedSizeVerificationPool.dummyReqPoolIndices).getD []

/-- Consistent queues, balanced books, and no shared prefix in reach of a rollback. -/
structure Booked (cfg : SchedulerConfig) (chunk : Prop) (s : Scheduler) : Prop where
  consistent : Consistent cfg s
  sharing : Sharing cfg s
  books : Books cfg.worker.reservedSlots cfg.worker.reservedRows s.nextId false chunk s

theorem TreeCache.slots_reset (tree : TreeCache) : tree.reset.slots = [] := by
  cases tree <;> rfl

theorem Scheduler.Boots.books (h : Boots cfg s) (hchunk : chunk → s.memory.tree = .chunkCache) :
    Books cfg.worker.reservedSlots cfg.worker.reservedRows s.nextId false chunk s := by
  have hslots : s.memory.tree.slots = [] := by
    rw [h.tree]
    exact s.memory.tree.slots_reset
  obtain ⟨size, needSort, numRows, hpools⟩ := h.pools
  have hcreate : (TokenToKVPoolAllocator.create size needSort).held = range' 1 size :=
    TokenToKVPoolAllocator.held_clear _
  unfold LLM42Worker.reservedSlots LLM42Worker.reservedRows
  rw [h.nextId]
  cases hp : cfg.worker.fixedPool with
  | none =>
    rw [hp] at hpools
    obtain ⟨ha, hr⟩ := hpools
    refine ⟨⟨?_, ?_, fun q _ => Nat.zero_le _⟩, by rw [ha]; rfl, hchunk⟩
    · simp [Memory.pooled, hslots, ha, hcreate, holdings]
      rfl
    · simp [hr, holdings, ReqToTokenPool.create, nodup_range]
  | some pool =>
    rw [hp] at hpools
    obtain ⟨hperm, hrows, hsize, hgroup⟩ := FixedSizeVerificationPool.create_some hpools
    refine ⟨⟨?_, ?_, fun q _ => Nat.zero_le _⟩, hgroup, hchunk⟩
    · rw [hsize, hcreate] at *
      simp only [Memory.pooled, hslots, holdings, range_zero, flatMap_nil,
        append_nil, Option.map_some, Option.getD_some]
      exact perm_append_comm.trans hperm
    · simp only [holdings, range_zero, flatMap_nil, append_nil, Option.map_some, Option.getD_some]
      refine perm_append_comm.nodup ?_
      rw [hrows]
      exact nodup_range

theorem Scheduler.Boots.booked (h : Boots cfg s) (hchunk : chunk → s.memory.tree = .chunkCache) :
    Booked cfg chunk s := by
  refine ⟨h.consistent, ⟨?_, ?_⟩, h.books hchunk⟩
  · simp [running, h.runningBatch]
  · simp [running, h.runningBatch]

theorem Booked.of_core (h : Booked cfg chunk s) (hnext : t.nextId = s.nextId)
    (hbatch : t.runningBatch = s.runningBatch) (hwait : t.waitingQueue.Sublist s.waitingQueue)
    (hmem : t.memory = s.memory) (hcore : ∀ id, (t.heap id).core = (s.heap id).core) :
    Booked cfg chunk t := by
  have hrun : t.running = s.running := congrArg (map _) hbatch
  refine ⟨h.consistent.of_core hnext hbatch hwait hcore,
    h.sharing.of_core (fun id hid => hrun ▸ hid) fun id _ => hcore id, ?_⟩
  rw [hnext]
  exact h.books.congr (fun j _ => Req.kv_congr (hcore j)) hmem

/-- No deterministic request that still has unverified output is prefilled again. -/
def SchedulerEvent.PrefillsVerified (cfg : SchedulerConfig) (s : Scheduler) : SchedulerEvent → Prop
  | .extend ids _ _ _ => cfg.args.enableLlm42 → ∀ id ∈ ids, (s.heap id).isDeterministic →
      (s.heap id).unverified = []
  | _ => True

/-- Every event but `flush_cache` keeps the books, under a prefix cache as long as nothing
unverified gets into the tree. -/
theorem Booked.step (h : Booked cfg chunk s) {event : SchedulerEvent}
    (hflush : event ≠ .flushCache) (hsafe : chunk ∨ event.PrefillsVerified cfg s)
    (hs : s.step cfg event = .ok t) : Booked cfg chunk t := by
  have hc := h.consistent.step hs
  cases event with
  | receive r =>
    cases hs
    exact ⟨hc, h.sharing.receive h.consistent r, h.books.receive r⟩
  | extend ids tokens logitsOf victims =>
    have hbooks := h.books.extend h.consistent hs
    exact ⟨hc, h.sharing.extend h.consistent hbooks hsafe hs, hbooks⟩
  | decode tokens logitsOf verdict victims =>
    exact ⟨hc, h.sharing.decode h.consistent hs, h.books.decode h.consistent h.sharing hs⟩
  | retract ids victims =>
    exact ⟨hc, h.sharing.retract hs, h.books.retract h.consistent h.sharing hs⟩
  | abort rid abortAll =>
    cases hs
    exact h.of_core rfl rfl filter_sublist rfl fun id =>
      (s.abortRequest_aborted [] rid abortAll id).core_eq
  | runningTimeout overdue =>
    cases hs
    exact h.of_core rfl rfl (Sublist.refl _) rfl fun id =>
      (s.abortOnRunningTimeout_aborted overdue id).core_eq
  | flushCache => exact absurd rfl hflush

end LLM42
