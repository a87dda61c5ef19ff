import LLM42.Scheduler.ExtendPhases
import LLM42.Scheduler.Requests

/-! # Consistency of queues and batch

In every reachable state, whatever happened before, each request is in one place and fits it. -/

namespace LLM42

open List

variable {cfg : SchedulerConfig} {r r' : Req}

theorem Queued.congr (h : Queued cfg r) (hc : r'.core = r.core) : Queued cfg r' := by
  have hcore : Queued cfg r'.core := by
    rw [hc]
    exact { h with }
  exact { hcore with }

theorem Queued.of_isNew (hnew : r.isNew) : Queued cfg r := by
  have h := Req.initial_of_isNew hnew
  have hkv := h.kv
  exact ⟨by simp [Req.finished, h.finishedReason], h.completed, by simp [hkv], by simp [hkv],
    by simp [hkv], by simp [hkv], by simp [h.verified], fun _ _ hne => absurd h.outputIds hne⟩

def Req.retracted (r : Req) : Req :=
  Scheduler.resetForRetract { r with kv := Memory.releasedKv r.kv }

theorem Live.retracted {e : BatchEntry} (h : Live cfg 0 0 e r) (hf : ¬ r.finished) :
    Queued cfg r.retracted :=
  ⟨hf, h.completed, rfl, rfl, rfl, rfl, h.verified_le, fun hl hd _ => h.verified_pos hl hd⟩

open Scheduler

variable {s t : Scheduler} {tokens : ReqId → Token} {logitsOf : ReqId → LogitsRow}
  {verdict : Verdict} {victims : List NodeRef} {ids : List ReqId}

theorem Scheduler.Boots.consistent (h : Boots cfg s) : Consistent cfg s := by
  refine ⟨?_, ?_, ?_, ?_, ?_⟩
  · simp [running, h.runningBatch, h.waitingQueue]
  · simp [running, h.runningBatch, h.waitingQueue]
  · simp [h.runningBatch]
  · simp [h.waitingQueue]
  · simp [h.nextId]

theorem row_congr (hc : r'.core = r.core) : r'.kv.reqPoolIdx = r.kv.reqPoolIdx :=
  congrArg KvFields.reqPoolIdx (Req.kv_congr hc)

section

variable (h : Consistent cfg s)

include h

theorem Consistent.of_core (hnext : t.nextId = s.nextId) (hbatch : t.runningBatch = s.runningBatch)
    (hwait : t.waitingQueue.Sublist s.waitingQueue)
    (hcore : ∀ id, (t.heap id).core = (s.heap id).core) : Consistent cfg t := by
  have hrun : t.running = s.running := congrArg (map _) hbatch
  have hall := (Sublist.refl s.running).append hwait
  refine ⟨hrun ▸ hall.nodup h.nodup, fun id hid => ?_, fun e he => ?_, fun id hid => ?_,
    fun id hid hnot => ?_⟩
  · rw [hrun] at hid
    rw [hnext]
    exact h.lt id (hall.subset hid)
  · exact (h.settled e (hbatch ▸ he)).congr (hcore e.req)
  · exact (h.queued id (hwait.subset hid)).congr (hcore id)
  · rw [row_congr (hcore id)]
    exact h.parked id (hnext ▸ hid) (hrun ▸ hnot)

theorem Consistent.parked_filterBatch {id : ReqId} (hid : id < s.nextId)
    (hnot : id ∉ s.filterBatch.running) : (s.heap id).kv.reqPoolIdx = none := by
  by_cases hrun : id ∈ s.running
  · obtain ⟨e, he, rfl⟩ := mem_running.mp hrun
    rcases h.settled e he with hgone | ⟨hf, _⟩
    · exact hgone.row
    · exact absurd (mem_running.mpr ⟨e, mem_filterBatch.mpr ⟨he, hf⟩, rfl⟩) hnot
  · exact h.parked id hid hrun

theorem Consistent.filterBatch : Consistent cfg s.filterBatch := by
  have hall := s.filterBatch_sublist.append (Sublist.refl s.waitingQueue)
  exact ⟨hall.nodup h.nodup, fun id hid => h.lt id (hall.subset hid),
    fun e he => h.settled e (mem_filterBatch.mp he).1, h.queued,
    fun id hid hnot => h.parked_filterBatch hid hnot⟩

theorem Consistent.receive (r : Req) : Consistent cfg (s.receive r) := by
  unfold Scheduler.receive
  split
  next hnew =>
    have hfresh : ∀ id ∈ s.running ++ s.waitingQueue, id ≠ s.nextId := fun id hid =>
      (h.lt id hid).ne
    have hold : ∀ id ∈ s.running ++ s.waitingQueue,
        Function.update s.heap s.nextId r id = s.heap id := fun id hid =>
      Function.update_of_ne (hfresh id hid) _ _
    refine ⟨?_, ?_, ?_, ?_, ?_⟩
    · rw [← append_assoc, nodup_append]
      refine ⟨h.nodup, nodup_singleton _, ?_⟩
      intro a ha b hb
      rw [mem_singleton.mp hb]
      exact hfresh a ha
    · intro id hid
      rw [← append_assoc] at hid
      rcases mem_append.mp hid with hid | hid
      · exact (h.lt id hid).trans (Nat.lt_succ_self _)
      · rw [mem_singleton.mp hid]
        exact Nat.lt_succ_self _
    · intro e he
      have hid : e.req ∈ s.running ++ s.waitingQueue := mem_append_left _ (mem_map_of_mem he)
      dsimp only
      rw [hold _ hid]
      exact h.settled e he
    · intro id hid
      dsimp only at hid ⊢
      rcases mem_append.mp hid with hid | hid
      · rw [hold _ (mem_append_right _ hid)]
        exact h.queued id hid
      · rw [mem_singleton.mp hid, Function.update_self]
        exact .of_isNew hnew
    · intro id hid hnot
      dsimp only at hid ⊢
      by_cases hnext : id = s.nextId
      · rw [hnext, Function.update_self, (Req.initial_of_isNew hnew).kv]
      · rw [Function.update_of_ne hnext]
        exact h.parked id (Nat.lt_of_le_of_ne (Nat.le_of_lt_succ hid) hnext) hnot
  · exact h

theorem Consistent.flushCache : Consistent cfg s.flushCache := by
  unfold Scheduler.flushCache
  split
  · exact h.of_core rfl rfl (List.Sublist.refl _) fun _ => rfl
  · exact h

theorem Consistent.not_mem_running {id : ReqId} (hid : id ∈ s.waitingQueue) :
    id ∉ s.running := fun hrun =>
  (nodup_append.mp h.nodup).2.2 id hrun id hid rfl

end

theorem Scheduler.DecodePhases.running_eq (P : DecodePhases cfg s tokens logitsOf verdict t)
    (h : Consistent cfg s) : t.running = s.filterBatch.running := by
  obtain ⟨hreq, _⟩ := P.requests h
  exact running_eq_of_forall₂ (hreq.imp fun _ _ hR => hR.1)

theorem Consistent.decode (h : Consistent cfg s)
    (hd : s.decode cfg tokens logitsOf verdict victims = .ok t) : Consistent cfg t := by
  rcases decode_ok hd with ⟨_, rfl⟩ | ⟨⟨P⟩⟩
  · exact h.filterBatch
  · obtain ⟨hreq, hother, hnext, hwait⟩ := P.requests h
    have hrun := P.running_eq h
    have hall := s.filterBatch_sublist.append hwait
    refine ⟨hrun ▸ hall.nodup h.nodup, fun id hid => ?_, fun e' he' => ?_, fun id hid => ?_,
      fun id hid hnot => ?_⟩
    · rw [hrun] at hid
      rw [hnext]
      exact h.lt id (hall.subset hid)
    · obtain ⟨e, he, heq, hstep⟩ := exists_of_mem_forall₂ hreq he'
      rw [heq]
      exact hstep.settled (live_of_mem_filterBatch h he)
    · have hmem := hwait.subset hid
      refine (h.queued id hmem).congr (hother id fun hrun' => ?_).core_eq
      exact h.not_mem_running hmem (s.filterBatch_sublist.subset hrun')
    · rw [hrun] at hnot
      rw [row_congr (hother id hnot).core_eq]
      exact h.parked_filterBatch (hnext ▸ hid) hnot

theorem nodup_move {xs ys ids : List ReqId} (h : (xs ++ ys).Nodup) (hids : ids.Nodup)
    (hmem : ∀ id ∈ ids, id ∈ ys) : ((xs ++ ids) ++ ys.filter fun id => decide (id ∉ ids)).Nodup := by
  obtain ⟨hx, hy, hdisj⟩ := nodup_append.mp h
  rw [append_assoc, nodup_append, nodup_append]
  refine ⟨hx, ⟨hids, hy.filter _, ?_⟩, ?_⟩
  · rintro a ha b hb rfl
    exact (of_decide_eq_true (mem_filter.mp hb).2) ha
  · intro a ha b hb
    refine hdisj a ha b ?_
    rcases mem_append.mp hb with hb | hb
    · exact hmem b hb
    · exact (mem_filter.mp hb).1

theorem Consistent.extend (h : Consistent cfg s)
    (he : s.extend cfg ids tokens logitsOf victims = .ok t) : Consistent cfg t := by
  rcases extend_ok he with rfl | ⟨⟨P⟩⟩
  · exact h
  · have hqueued : ∀ id ∈ ids, Queued cfg (s.heap id) := fun id hid =>
      h.queued id (P.mem_queue id hid)
    obtain ⟨hreq, hother, hbatch, hnext, hwait⟩ :=
      P.requests fun id hid => (hqueued id hid).unfinished
    have hentries : (((ids.zip P.rows).map (ExtendPhases.entry s tokens)).filter
        (fun e => t.isUnfinished e.req)).map (·.req) |>.Sublist ids := by
      refine (filter_sublist.map _).trans ?_
      rw [map_map]
      have hfst : (ids.zip P.rows).map ((·.req) ∘ ExtendPhases.entry s tokens) = ids :=
        map_fst_zip P.length_rows.ge
      rw [hfst]
    have hrun : t.running.Sublist (s.running ++ ids) := by
      rw [running, hbatch, map_append]
      exact (Sublist.refl _).append hentries
    have hall := hrun.append hwait
    refine ⟨hall.nodup (nodup_move h.nodup P.nodup P.mem_queue), fun id hid => ?_, fun e he => ?_,
      fun id hid => ?_, fun id hid hnot => ?_⟩
    · rw [hnext]
      refine h.lt id ?_
      rcases mem_append.mp (hall.subset hid) with hid | hid
      · rcases mem_append.mp hid with hid | hid
        · exact mem_append_left _ hid
        · exact mem_append_right _ (P.mem_queue id hid)
      · exact mem_append_right _ (mem_filter.mp hid).1
    · rw [hbatch] at he
      rcases mem_append.mp he with he | he
      · refine (h.settled e he).congr (hother e.req fun hid => ?_).core_eq
        exact h.not_mem_running (P.mem_queue _ hid) (mem_map_of_mem he)
      · obtain ⟨x, hx, rfl⟩ := mem_map.mp (mem_filter.mp he).1
        exact (hreq x hx).settled (hqueued _ (of_mem_zip hx).1) x.1
    · have hmem := mem_filter.mp (hwait.subset hid)
      exact (h.queued id hmem.1).congr (hother id (of_decide_eq_true hmem.2)).core_eq
    · rw [running, hbatch, map_append, mem_append, not_or] at hnot
      by_cases hmem : id ∈ ids
      · obtain ⟨row, hrow⟩ := P.mem_zip hmem
        rcases (hreq _ hrow).settled (hqueued id hmem) id with hgone | ⟨hf, _⟩
        · exact hgone.row
        · refine absurd (mem_map.mpr ⟨ExtendPhases.entry s tokens (id, row), ?_, rfl⟩) hnot.2
          refine mem_filter.mpr ⟨mem_map_of_mem hrow, ?_⟩
          simpa [isUnfinished, ExtendPhases.entry] using hf
      · rw [row_congr (hother id hmem).core_eq]
        exact h.parked id (hnext ▸ hid) hnot.1

def Scheduler.Retracts (s : Scheduler) (ids : List ReqId) : Prop :=
  ids.Nodup ∧ (∀ id ∈ ids, id ∈ s.filterBatch.running) ∧
    ids.length < s.filterBatch.runningBatch.length

theorem retract_ok {victims : ReqId → List NodeRef} (hr : s.retract ids victims = .ok t) :
    (¬ s.Retracts ids ∧ t = s.filterBatch) ∨ (s.Retracts ids ∧
      ∃ u, ids.foldlM (releaseReq victims) s.filterBatch = .ok u ∧
        (∀ id ∈ ids, u.heap id = (s.heap id).retracted) ∧ (∀ j ∉ ids, u.heap j = s.heap j) ∧
        u.runningBatch = s.filterBatch.runningBatch ∧ u.nextId = s.nextId ∧
        u.waitingQueue.Sublist s.waitingQueue ∧
        t = { u with
          runningBatch := u.runningBatch.filter fun e => decide (e.req ∉ ids)
          waitingQueue := u.waitingQueue ++ ids }) := by
  unfold retract at hr
  dsimp only at hr
  split at hr
  next hids =>
    obtain ⟨u, hu, hr⟩ := Library.bind_eq_ok hr
    simp only [Except.ok.injEq] at hr
    obtain ⟨h1, h2, h3, h4, h5⟩ := foldlM_heap id (p := False) (fun _ r r' => r' = r.retracted)
      (by simpa using hids.1)
      (fun v x w _ _ _ hstep => ⟨(releaseReq_ok hstep).1 _, (releaseReq_ok hstep).2.1⟩) hu
    refine .inr ⟨hids, u, hu, fun j hj => ?_, fun j hj => ?_, h3, h4, h5, hr.symm⟩
    · obtain ⟨r, r', hfirst, heff, hlast⟩ := h1 j hj
      have hl : u.heap j = r' := hlast.eq_of_not not_false
      have hf : r = s.heap j := hfirst.eq_of_not not_false
      rw [hl, heff, hf]
    · exact (h2 j (by simpa using hj)).eq_of_not not_false
  next hids => exact .inl ⟨hids, (Except.ok.inj hr).symm⟩

theorem Consistent.retract (h : Consistent cfg s) {victims : ReqId → List NodeRef}
    (hr : s.retract ids victims = .ok t) : Consistent cfg t := by
  rcases retract_ok hr with ⟨-, rfl⟩ | ⟨⟨hnd, hmem, -⟩, u, _, hin, hout, hbatch, hnext, hwait, rfl⟩
  · exact h.filterBatch
  · have hc := h.filterBatch
    have hrun : running { u with
        runningBatch := u.runningBatch.filter fun e => decide (e.req ∉ ids)
        waitingQueue := u.waitingQueue ++ ids } =
        s.filterBatch.running.filter fun id => decide (id ∉ ids) := by
      simp only [running, hbatch, filter_map]
      rfl
    have hperm := nodup_move (perm_append_comm.nodup hc.nodup) hnd hmem
    refine ⟨?_, fun id hid => ?_, fun e he => ?_, fun id hid => ?_, fun id hid hnot => ?_⟩
    · rw [hrun]
      have hsub := (hwait.append (Sublist.refl ids)).append
        (Sublist.refl (s.filterBatch.running.filter fun id => decide (id ∉ ids)))
      exact perm_append_comm.nodup (hsub.nodup hperm)
    · rw [hrun] at hid
      rw [hnext]
      refine h.lt id (s.filterBatch_sublist.append (Sublist.refl _) |>.subset ?_)
      rcases mem_append.mp hid with hid | hid
      · exact mem_append_left _ (mem_filter.mp hid).1
      · rcases mem_append.mp hid with hid | hid
        · exact mem_append_right _ (hwait.subset hid)
        · exact mem_append_left _ (hmem id hid)
    · obtain ⟨he, hne⟩ := mem_filter.mp he
      rw [hbatch] at he
      rw [hout e.req (of_decide_eq_true hne)]
      exact hc.settled e he
    · rcases mem_append.mp hid with hid | hid
      · have hq := hwait.subset hid
        rw [hout id fun hids => hc.not_mem_running hq (hmem id hids)]
        exact h.queued id hq
      · rw [hin id hid]
        obtain ⟨e, he, rfl⟩ := mem_running.mp (hmem id hid)
        exact (live_of_mem_filterBatch h he).retracted (mem_filterBatch.mp he).2
    · rw [hrun] at hnot
      by_cases hids : id ∈ ids
      · rw [hin id hids]
        rfl
      · rw [hout id hids]
        refine h.parked_filterBatch (hnext ▸ hid) fun hrun' => hnot ?_
        exact mem_filter.mpr ⟨hrun', decide_eq_true hids⟩

/-- One event keeps the scheduler consistent. -/
theorem Consistent.step (h : Consistent cfg s) {event : SchedulerEvent}
    (hs : s.step cfg event = .ok t) : Consistent cfg t := by
  cases event with
  | receive r =>
    cases hs
    exact h.receive r
  | extend ids tokens logitsOf victims => exact h.extend hs
  | decode tokens logitsOf verdict victims => exact h.decode hs
  | retract ids victims => exact h.retract hs
  | abort rid abortAll =>
    cases hs
    exact h.of_core rfl rfl filter_sublist fun id =>
      (s.abortRequest_aborted [] rid abortAll id).core_eq
  | runningTimeout overdue =>
    cases hs
    exact h.of_core rfl rfl (Sublist.refl _) fun id =>
      (s.abortOnRunningTimeout_aborted overdue id).core_eq
  | flushCache =>
    cases hs
    exact h.flushCache

end LLM42
