import LLM42.Scheduler.Booked

/-! # How a step can fail

In a consistent state a decode step fails for want of slots or inside a verification pass, and an
extend batch for want of slots, rows, or in the prefix tree. No assertion of `release_kv_cache`
ever fails. -/

namespace LLM42

open Scheduler Library

variable {cfg : SchedulerConfig} {s t : Scheduler} {id : ReqId} {e : BatchEntry} {r : Req}
  {tokens : ReqId → Token} {logitsOf : ReqId → LogitsRow} {verdict : Verdict}
  {victims : List NodeRef} {ids : List ReqId} {c : SchedulerError}

theorem Live.finishReq_isOk (h : Live cfg 0 0 e r) (s : Scheduler) (id : ReqId) :
    ∃ t, s.finishReq id r = .ok t := by
  obtain ⟨⟨r', m⟩, hrel⟩ := Memory.releaseKvCache_isOk (m := s.memory) (r := r)
    (by rw [h.row]; rfl) h.committedFreed h.overallocatedFreed h.allocated.symm
  exact ⟨_, by rw [finishReq, hrel]; rfl⟩

theorem Live.decodeResult_isOk (h : Live cfg 1 0 e (s.heap id)) (tokens : ReqId → Token)
    (logitsOf : ReqId → LogitsRow) : ∃ t, decodeResult cfg tokens logitsOf s id = .ok t := by
  obtain ⟨u, hu⟩ := (h.decodeToken (tokens id) (logitsOf id)).finishReq_isOk s id
  unfold decodeResult
  dsimp only
  split
  · exact ⟨_, by rw [hu]; rfl⟩
  · exact ⟨_, rfl⟩

theorem Accepted.recheck_isOk (h : Accepted cfg e (s.heap id)) : ∃ t, recheck s id = .ok t := by
  unfold recheck
  dsimp only
  rcases h with hgone | ⟨hlive, _⟩
  · rw [if_pos hgone.completed]
    split
    · exact ⟨_, rfl⟩
    · exact ⟨_, rfl⟩
  · split_ifs
    · exact ⟨_, rfl⟩
    · exact ⟨_, rfl⟩
    · exact hlive.checkFinished.finishReq_isOk s id
    · exact ⟨_, rfl⟩

theorem decodeResults_isOk (hc : Consistent cfg s) (tokens : ReqId → Token)
    (logitsOf : ReqId → LogitsRow) {prepared : Scheduler}
    (hrun : prepared.running = s.filterBatch.running)
    (hheap : ∀ e ∈ s.filterBatch.runningBatch, prepared.heap e.req = (s.heap e.req).advanced) :
    ∃ t, prepared.running.foldlM (decodeResult cfg tokens logitsOf) prepared.freeGroupBegin =
      .ok t := by
  cases hloop : prepared.running.foldlM (decodeResult cfg tokens logitsOf)
      prepared.freeGroupBegin with
  | ok t => exact ⟨t, rfl⟩
  | error c =>
    exfalso
    have hnd : (prepared.running.map id).Nodup := by
      rw [List.map_id, hrun]
      exact nodup_filterBatch hc
    obtain ⟨j, hj, u, hpre, hstep⟩ := foldlM_heap_error (p := True)
      (s := prepared.freeGroupBegin) id hnd
      (fun u x v hx _ hb hok => ((decodeResult_ok (by rw [running, hb]; exact hx) hok).1).imp
        fun _ => trivial) hloop
    rw [hrun] at hj
    obtain ⟨e, he, rfl⟩ := mem_running.mp hj
    have hpre' : (prepared.heap e.req).AbortedIf True (u.heap e.req) := hpre
    rw [hheap e he] at hpre'
    have hlive : Live cfg 1 0 (e.stepped (tokens e.req)) (u.heap e.req) :=
      (live_of_mem_filterBatch hc he).advanced.congr hpre'.core_eq
    obtain ⟨v, hv⟩ := hlive.decodeResult_isOk tokens logitsOf
    exact absurd (hv.symm.trans hstep) (by simp)

theorem verifyAndRollback_error (hc : Consistent cfg s) (P : ResultPhases cfg s tokens logitsOf)
    (henable : cfg.args.enableLlm42 = true)
    (h : P.accepted.verifyAndRollback cfg verdict = .error c) :
    P.accepted.verifyRequests cfg verdict = .error c := by
  have hnd : P.accepted.running.Nodup := P.accepted_running hc ▸ nodup_filterBatch hc
  rcases bind_eq_error h with hver | ⟨⟨passed, results⟩, hver, h⟩
  · exact hver
  · exfalso
    obtain ⟨v, rfl, hpass⟩ := verifyRequests_ok hnd henable (P.accepted_entries hc) hver
    rcases bind_eq_error h with hroll | ⟨rolledBack, hroll, hre⟩
    · obtain ⟨x, hx, u, hpre, hstep⟩ := foldlM_heap_error (p := False) (·.1) hpass.nodup
        (fun u x v _ _ _ hok => (rollback_ok hok).1 _) hroll
      have hheap : u.heap x.1 = v.heap x.1 := hpre.eq_of_not not_false
      have hplan := hpass.mem_ids (List.mem_map_of_mem hx)
      obtain ⟨hmem, hcand⟩ := LLM42Worker.candidate_of_mem_plannedIds hplan
      obtain ⟨e, he, hreq⟩ := List.mem_map.mp hmem
      obtain ⟨net, hout, _⟩ := hpass.outcome x.1 hplan
      have hacc := P.accepted_entries hc e he
      rw [hreq] at hacc
      have hlive := ((hacc.verifiable henable hcand).1).verified hout.outcome
      rw [← hheap] at hlive
      simp only [rollback, hlive.row] at hstep
      cases hstep
    · obtain ⟨hreqs, _⟩ := rolledBack_requests hpass hroll
      have hrun : rolledBack.running = P.accepted.running :=
        running_eq_of_forall₂ (hreqs.imp fun _ _ h => h.1)
      obtain ⟨j, hj, u, hpre, hstep⟩ := foldlM_heap_error (p := False) id
        (by rw [List.map_id, hrun]; exact hnd) (fun u x v _ _ _ hok => (recheck_ok hok).1 _) hre
      have hheap : u.heap j = rolledBack.heap j := hpre.eq_of_not not_false
      obtain ⟨e', he', rfl⟩ := mem_running.mp hj
      obtain ⟨e, he, hreq, hstep'⟩ := exists_of_mem_forall₂ hreqs he'
      have hacc := hstep'.accepted (P.accepted_entries hc e he) henable
      rw [← hreq, ← hheap] at hacc
      obtain ⟨w, hw⟩ := hacc.recheck_isOk
      exact absurd (hw.symm.trans hstep) (by simp)

/-- A decode step that fails ran out of slots or failed in a verification pass, right after the
result loop. -/
theorem decode_error (hc : Consistent cfg s)
    (h : s.decode cfg tokens logitsOf verdict victims = .error c) :
    (∃ n, c = .outOfMemory n) ∨ ∃ P : ResultPhases cfg s tokens logitsOf,
      cfg.args.enableLlm42 = true ∧ P.accepted.verifyRequests cfg verdict = .error c := by
  unfold decode at h
  split at h
  · cases h
  rcases bind_eq_error h with hprep | ⟨u, hu, h⟩
  · left
    unfold prepareForDecode Memory.allocTokenSlots at hprep
    rcases bind_eq_error hprep with halloc | ⟨x, _, hok⟩
    · dsimp only at halloc
      split at halloc
      · cases halloc
      · cases halloc
        exact ⟨_, rfl⟩
    · cases hok
  · right
    obtain ⟨locs, m, halloc, hprep⟩ := prepareForDecode_ok tokens hu
    have hrun : (u.setOutputIds tokens).running = s.filterBatch.running := by
      rw [hprep]
      simp [running]
    have hheap : ∀ e ∈ s.filterBatch.runningBatch,
        (u.setOutputIds tokens).heap e.req = (s.heap e.req).advanced := by
      intro e he
      rw [hprep]
      exact (extendRows_spec (nodup_filterBatch hc) halloc.length_eq _).1 e he
    obtain ⟨accepted, hacc⟩ := decodeResults_isOk hc tokens logitsOf hrun hheap
    let P : ResultPhases cfg s tokens logitsOf := ⟨locs, m, _, accepted, halloc, hprep, hacc⟩
    rcases bind_eq_error h with hloop | ⟨accepted', hloop, h⟩
    · exact absurd (hacc.symm.trans hloop) (by simp)
    · obtain rfl : accepted = accepted' := Except.ok.inj (hacc.symm.trans hloop)
      split at h
      next henable =>
        refine ⟨P, henable, ?_⟩
        rcases bind_eq_error h with hver | ⟨x, _, hok⟩
        · exact verifyAndRollback_error hc P henable hver
        · cases hok
      next =>
      rcases bind_eq_error h with hver | ⟨x, _, hok⟩
      · cases hver
      · cases hok

theorem prefillResult_error (hunf : ¬ (s.heap id).finished)
    (hret : (s.heap id).kv.isRetracted = false)
    (hlive : Live cfg 0 0 e
      ((s.heap id).prefillToken cfg.args.enableLlm42 (tokens id) (logitsOf id)))
    (h : prefillResult cfg ids tokens logitsOf s id = .error c) :
    ∃ m k, c = .matchAfterInsert m k := by
  unfold prefillResult at h
  rw [if_neg (by simp [hunf, hret])] at h
  dsimp only at h
  generalize (s.heap id).prefillToken cfg.args.enableLlm42 (tokens id) (logitsOf id) = r at h hlive
  split at h
  · rcases bind_eq_error h with hfin | ⟨u, _, hok⟩
    · obtain ⟨u, hu⟩ := hlive.finishReq_isOk s id
      exact absurd (hu.symm.trans hfin) (by simp)
    · cases hok
  · rcases bind_eq_error h with hcache | ⟨u, _, hok⟩
    · unfold cacheUnfinished at hcache
      rw [hlive.row] at hcache
      rcases bind_eq_error hcache with hcache | ⟨x, _, hok⟩
      · unfold Memory.cacheUnfinishedReq at hcache
        dsimp only at hcache
        split at hcache
        · cases hcache
        · split at hcache
          · cases hcache
            exact ⟨_, _, rfl⟩
          · cases hcache
      · cases hok
    · cases hok

theorem prefillResults_error (hc : Consistent cfg s) (P : AssignPhases s ids)
    (h : ids.foldlM (prefillResult cfg ids tokens logitsOf) P.assigned = .error c) :
    ∃ m k, c = .matchAfterInsert m k := by
  have hframe : ∀ u x v, x ∈ ids → (P.assigned.heap (id x)).AbortedIf True (u.heap (id x)) →
      u.runningBatch = P.assigned.runningBatch →
      prefillResult cfg ids tokens logitsOf u x = .ok v → Frame True u v (id x) := by
    intro u x v hx hpre _ hok
    obtain ⟨_, _, _, _, _, hfin, hret⟩ :=
      P.found hx (hc.queued x (P.mem_queue x hx)).unfinished hpre
    exact (prefillResult_ok hx hfin hret hok).1.imp fun _ => trivial
  obtain ⟨j, hj, u, hpre, hstep⟩ := foldlM_heap_error id (by simpa using P.nodup) hframe h
  have hq := hc.queued j (P.mem_queue j hj)
  obtain ⟨row, indices, node, _, hpre', hfin, hret⟩ := P.found hj hq.unfinished hpre
  exact prefillResult_error hfin hret (hq.live hpre' (tokens j) (logitsOf j) j) hstep

theorem extend_error (hc : Consistent cfg s)
    (h : s.extend cfg ids tokens logitsOf victims = .error c) :
    (∃ n, c = .outOfReqSlots n) ∨ (∃ n, c = .outOfMemory n) ∨ ∃ m k, c = .matchAfterInsert m k := by
  unfold extend at h
  split at h
  next hids =>
    rcases bind_eq_error h with halloc | ⟨⟨rows, assigned⟩, halloc, h⟩
    · rcases bind_eq_error halloc with hrows | ⟨⟨rows, m⟩, _, halloc⟩
      · unfold Memory.allocReqSlots at hrows
        split at hrows
        · cases hrows
          exact .inl ⟨_, rfl⟩
        · cases hrows
      · rcases bind_eq_error halloc with hlocs | ⟨x, _, hok⟩
        · unfold Memory.allocTokenSlots at hlocs
          dsimp only at hlocs
          split at hlocs
          · cases hlocs
          · cases hlocs
            exact .inr (.inl ⟨_, rfl⟩)
        · cases hok
    · obtain ⟨P, rfl, rfl⟩ := allocForExtend_ok hids.1 hids.2 halloc
      rcases bind_eq_error h with hloop | ⟨x, _, hok⟩
      · right; right
        exact prefillResults_error hc P hloop
      · cases hok
  · cases h

theorem retract_isOk (hc : Consistent cfg s) (ids : List ReqId) (victims : ReqId → List NodeRef) :
    ∃ t, s.retract ids victims = .ok t := by
  unfold retract
  dsimp only
  split
  next hids =>
    cases hloop : ids.foldlM (releaseReq victims) s.filterBatch with
    | ok u => exact ⟨_, rfl⟩
    | error c =>
      exfalso
      obtain ⟨j, hj, u, hpre, hstep⟩ := foldlM_heap_error (p := False) id
        (by simpa using hids.1) (fun u x v _ _ _ hok => (releaseReq_ok hok).1 _) hloop
      have hheap : u.heap j = s.heap j := hpre.eq_of_not not_false
      obtain ⟨e, he, rfl⟩ := mem_running.mp (hids.2.1 j hj)
      have hlive := live_of_mem_filterBatch hc he
      rw [← hheap] at hlive
      obtain ⟨x, hx⟩ : ∃ x, u.memory.releaseKvCache (u.heap e.req) false = .ok x :=
        Memory.releaseKvCache_isOk (by rw [hlive.row]; rfl) hlive.committedFreed
          hlive.overallocatedFreed hlive.allocated.symm
      have hok : releaseReq victims u e.req = .ok ((u.setMemory (x.2.evict (victims e.req))).setReq
          e.req (resetForRetract x.1)) := by
        rw [releaseReq, hx]
        rfl
      exact absurd (hok.symm.trans hstep) (by simp)
  · exact ⟨_, rfl⟩

end LLM42
