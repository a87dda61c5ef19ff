import LLM42.Scheduler.Consistency
import LLM42.Scheduler.Fixed

/-! # The journey of a request

Every event, seen from one request: it arrives, is prefilled, decodes, is sent back to the queue,
or is left alone. Invariants of requests over whole runs go through this case split. -/

namespace LLM42

open Scheduler List

def SchedulerEvent.Decodes (s : Scheduler) (id : ReqId) : SchedulerEvent → Prop
  | .decode .. => id ∈ s.filterBatch.running
  | _ => False

instance (s : Scheduler) (id : ReqId) (event : SchedulerEvent) :
    Decidable (event.Decodes s id) := by
  unfold SchedulerEvent.Decodes
  split <;> infer_instance

/-- What an event does to request `id`. -/
inductive RequestStep (cfg : SchedulerConfig) (s : Scheduler) (id : ReqId) (t : Scheduler) :
    SchedulerEvent → Prop
  | kept {event : SchedulerEvent} : id < s.nextId →
      (s.heap id).AbortedIf True (t.heap id) →
      (∀ e ∈ t.runningBatch, e.req = id → e ∈ s.runningBatch) →
      (id ∈ t.waitingQueue → id ∈ s.waitingQueue) → ¬ event.Decodes s id →
      t.sentTo id = s.sentTo id → RequestStep cfg s id t event
  | received {r : Req} : id = s.nextId → r.isNew → t.heap id = r → id ∉ t.running →
      t.sentTo id = s.sentTo id → RequestStep cfg s id t (.receive r)
  | extended {ids : List ReqId} {tokens : ReqId → Token} {logitsOf : ReqId → LogitsRow}
      {victims : List NodeRef} {row : ℕ} {message : Option StreamMessage} : id ∈ ids →
      id ∈ s.waitingQueue →
      RequestExtend cfg (s.RejectedBy ids tokens) (tokens id) (logitsOf id) row (s.heap id)
        (t.heap id) message →
      (∀ e ∈ t.runningBatch, e.req = id → e = ExtendPhases.entry s tokens (id, row)) →
      id ∉ t.waitingQueue → t.sentTo id = s.sentTo id ++ message.toList →
      RequestStep cfg s id t (.extend ids tokens logitsOf victims)
  | decoded {tokens : ReqId → Token} {logitsOf : ReqId → LogitsRow} {verdict : Verdict}
      {victims : List NodeRef} {e e' : BatchEntry}
      (P : DecodePhases cfg s tokens logitsOf verdict t) :
      e ∈ s.filterBatch.runningBatch → e.req = id → e' ∈ t.runningBatch → e'.req = id →
      RequestDecode cfg (s.Rejected tokens) (id ∈ P.planned) (tokens id) (logitsOf id) verdict e
        (s.heap id) e' (t.heap id) (P.message id) →
      t.sentTo id = s.sentTo id ++ (P.message id).toList →
      RequestStep cfg s id t (.decode tokens logitsOf verdict victims)
  | retracted {ids : List ReqId} {victims : ReqId → List NodeRef} : id ∈ ids →
      id ∈ s.filterBatch.running → t.heap id = (s.heap id).retracted → id ∉ t.running →
      t.sentTo id = s.sentTo id → RequestStep cfg s id t (.retract ids victims)

variable {cfg : SchedulerConfig} {s t : Scheduler} {tokens : ReqId → Token}
  {logitsOf : ReqId → LogitsRow} {verdict : Verdict} {victims : List NodeRef} {ids : List ReqId}
  {id : ReqId} {event : SchedulerEvent}

theorem Consistent.entry_unique (h : Consistent cfg s) {e e' : BatchEntry}
    (he : e ∈ s.runningBatch) (he' : e' ∈ s.runningBatch) (hreq : e.req = e'.req) : e = e' :=
  inj_on_of_nodup_map (nodup_append.mp h.nodup).1 he he' hreq

theorem RequestStep.of_batch (hid : id < s.nextId) (hbatch : t.runningBatch = s.runningBatch)
    (hwait : t.waitingQueue.Sublist s.waitingQueue) (hheap : (s.heap id).AbortedIf True (t.heap id))
    (hsent : t.messages = s.messages) (hdec : ¬ event.Decodes s id) :
    RequestStep cfg s id t event :=
  .kept hid hheap (fun _ he _ => hbatch ▸ he) (fun hmem => hwait.subset hmem) hdec
    (sentTo_congr hsent id)

theorem RequestStep.filterBatch (s : Scheduler) (hid : id < s.nextId)
    (hdec : ¬ event.Decodes s id) : RequestStep cfg s id s.filterBatch event :=
  .kept hid (.refl _ _) (fun _ he _ => (mem_filterBatch.mp he).1) (fun hmem => hmem) hdec rfl

theorem requestStep_receive (h : Consistent cfg s) (r : Req) (hid : id < (s.receive r).nextId) :
    RequestStep cfg s id (s.receive r) (.receive r) := by
  unfold receive at hid ⊢
  split
  next hnew =>
    rw [if_pos hnew] at hid
    by_cases hlast : id = s.nextId
    · refine .received hlast hnew (by simp [hlast]) (fun hrun => ?_) rfl
      have hlt := h.lt id (mem_append_left _ hrun)
      exact absurd hlast hlt.ne
    · have hlt : id < s.nextId := Nat.lt_of_le_of_ne (Nat.le_of_lt_succ hid) hlast
      refine .kept hlt (.inl (by simp [hlast])) (fun _ he _ => he) (fun hmem => ?_) not_false rfl
      rcases mem_append.mp hmem with hmem | hmem
      · exact hmem
      · exact absurd (mem_singleton.mp hmem) hlast
  next hnew =>
    rw [if_neg hnew] at hid
    exact .of_batch hid rfl (Sublist.refl _) (.refl _ _) rfl not_false

theorem requestStep_extend (h : Consistent cfg s)
    (he : s.extend cfg ids tokens logitsOf victims = .ok t) (hid : id < t.nextId) :
    RequestStep cfg s id t (.extend ids tokens logitsOf victims) := by
  rcases extend_ok he with rfl | ⟨⟨P⟩⟩
  · exact .of_batch hid rfl (Sublist.refl _) (.refl _ _) rfl not_false
  · have hunf : ∀ id ∈ ids, ¬ (s.heap id).finished := fun id hid =>
      (h.queued id (P.mem_queue id hid)).unfinished
    obtain ⟨hreq, hother, hbatch, hnext, hwait⟩ := P.requests hunf
    have hsent := P.sentTo hunf id
    by_cases hmem : id ∈ ids
    · obtain ⟨row, hrow⟩ := P.mem_zip hmem
      refine .extended hmem (P.mem_queue id hmem) (hreq _ hrow) (fun e he heq => ?_) (fun hq => ?_)
        (by rw [hsent, if_pos hmem])
      · -- rows of the batch are distinct, so the one of `id` is the one that came in
        refine (h.extend ‹_›).entry_unique he ?_ heq
        rw [hbatch] at he ⊢
        rcases mem_append.mp he with he | he
        · exact absurd (mem_map_of_mem he) (heq ▸ h.not_mem_running (P.mem_queue id hmem))
        · obtain ⟨x, hx, rfl⟩ := mem_map.mp (mem_filter.mp he).1
          refine mem_append_right _ (mem_filter.mpr ⟨mem_map_of_mem hrow, ?_⟩)
          have hunf := (mem_filter.mp he).2
          rwa [show (ExtendPhases.entry s tokens x).req = id from heq] at hunf
      · exact of_decide_eq_true (mem_filter.mp (hwait.subset hq)).2 hmem
    · refine .kept (hnext ▸ hid) ((hother id hmem).imp fun _ => trivial) (fun e he heq => ?_)
        (fun hq => (mem_filter.mp (hwait.subset hq)).1) not_false
        (by rw [hsent, if_neg hmem, append_nil])
      rw [hbatch] at he
      rcases mem_append.mp he with he | he
      · exact he
      · obtain ⟨x, hx, rfl⟩ := mem_map.mp (mem_filter.mp he).1
        exact absurd (heq ▸ (of_mem_zip hx).1) hmem

theorem requestStep_decode (h : Consistent cfg s)
    (hd : s.decode cfg tokens logitsOf verdict victims = .ok t) (hid : id < t.nextId) :
    RequestStep cfg s id t (.decode tokens logitsOf verdict victims) := by
  rcases decode_ok hd with ⟨hempty, rfl⟩ | ⟨⟨P⟩⟩
  · refine .filterBatch s hid fun hmem => ?_
    obtain ⟨e, he, _⟩ := mem_running.mp hmem
    simp [hempty] at he
  · obtain ⟨hreq, hother, hnext, hwait⟩ := P.requests h
    have hrun := P.running_eq h
    have hsent := P.sentTo h id
    by_cases hmem : id ∈ s.filterBatch.running
    · obtain ⟨e', he', heq'⟩ := mem_running.mp (hrun ▸ hmem : id ∈ t.running)
      obtain ⟨e, he, heq, hstep⟩ := exists_of_mem_forall₂ hreq he'
      have hid' : e.req = id := heq.symm.trans heq'
      rw [hid'] at hstep
      exact .decoded P he hid' he' heq' hstep (by rw [hsent, if_pos hmem])
    · refine .kept (hnext ▸ hid) ((hother id hmem).imp fun _ => trivial) (fun e he heq => ?_)
        (fun hq => hwait.subset hq) hmem (by rw [hsent, if_neg hmem, append_nil])
      exact absurd (hrun ▸ mem_running.mpr ⟨e, he, heq⟩) hmem

theorem requestStep_retract {victims : ReqId → List NodeRef}
    (hr : s.retract ids victims = .ok t) (hid : id < t.nextId) :
    RequestStep cfg s id t (.retract ids victims) := by
  have hsent := sentTo_congr (retract_messages hr) id
  rcases retract_ok hr with ⟨-, rfl⟩ | ⟨⟨-, hmem, -⟩, u, _, hin, hout, hbatch, hnext, hwait, rfl⟩
  · exact .filterBatch s hid not_false
  · have hrest : ∀ e ∈ u.runningBatch.filter (fun e => decide (e.req ∉ ids)),
        e ∈ s.runningBatch ∧ e.req ∉ ids := by
      intro e he
      obtain ⟨he, hne⟩ := mem_filter.mp he
      rw [hbatch] at he
      exact ⟨(mem_filterBatch.mp he).1, of_decide_eq_true hne⟩
    by_cases hids : id ∈ ids
    · refine .retracted hids (hmem id hids) (hin id hids) (fun hrun => ?_) hsent
      obtain ⟨e, he, heq⟩ := mem_running.mp hrun
      exact (hrest e he).2 (heq ▸ hids)
    · refine .kept (hnext ▸ hid) (.inl (hout id hids)) (fun e he _ => (hrest e he).1)
        (fun hq => ?_) not_false hsent
      rcases mem_append.mp hq with hq | hq
      · exact hwait.subset hq
      · exact absurd hq hids

/-- What one event does to one request. -/
theorem Consistent.requestStep (h : Consistent cfg s) (hs : s.step cfg event = .ok t)
    (hid : id < t.nextId) : RequestStep cfg s id t event := by
  cases event with
  | receive r =>
    cases hs
    exact requestStep_receive h r hid
  | extend ids tokens logitsOf victims => exact requestStep_extend h hs hid
  | decode tokens logitsOf verdict victims => exact requestStep_decode h hs hid
  | retract ids victims => exact requestStep_retract hs hid
  | abort rid abortAll =>
    cases hs
    exact .of_batch (s := s) (t := s.abortRequest [] rid abortAll) hid rfl filter_sublist
      (s.abortRequest_aborted [] rid abortAll id) rfl not_false
  | runningTimeout overdue =>
    cases hs
    exact .of_batch (s := s) (t := s.abortOnRunningTimeout overdue) hid rfl (List.Sublist.refl _)
      (s.abortOnRunningTimeout_aborted overdue id) rfl not_false
  | flushCache =>
    cases hs
    have hframe : s.flushCache.heap id = s.heap id ∧ s.flushCache.nextId = s.nextId ∧
        s.flushCache.runningBatch = s.runningBatch ∧
        s.flushCache.waitingQueue = s.waitingQueue ∧ s.flushCache.messages = s.messages := by
      unfold Scheduler.flushCache
      split <;> exact ⟨rfl, rfl, rfl, rfl, rfl⟩
    obtain ⟨hheap, hnext, hbatch, hwait, hsent⟩ := hframe
    exact .of_batch (hnext ▸ hid) hbatch (hwait ▸ List.Sublist.refl _) (.inl hheap) hsent not_false

theorem Consistent.nextId_le (h : Consistent cfg s) (hs : s.step cfg event = .ok t) :
    s.nextId ≤ t.nextId := by
  cases event with
  | receive r =>
    cases hs
    unfold Scheduler.receive
    split
    · exact Nat.le_succ _
    · exact le_rfl
  | extend ids tokens logitsOf victims =>
    rcases extend_ok hs with rfl | ⟨⟨P⟩⟩
    · exact le_rfl
    · obtain ⟨_, _, _, hnext, _⟩ :=
        P.requests fun id hid => (h.queued id (P.mem_queue id hid)).unfinished
      exact hnext.ge
  | decode tokens logitsOf verdict victims =>
    rcases decode_ok hs with ⟨_, rfl⟩ | ⟨⟨P⟩⟩
    · exact le_rfl
    · exact (P.requests h).2.2.1.ge
  | retract ids victims =>
    rcases retract_ok hs with ⟨-, rfl⟩ | ⟨-, u, _, _, _, _, hnext, _, rfl⟩
    · exact le_rfl
    · exact hnext.ge
  | abort rid abortAll =>
    cases hs
    exact le_rfl
  | runningTimeout overdue =>
    cases hs
    exact le_rfl
  | flushCache =>
    cases hs
    unfold Scheduler.flushCache
    split
    · exact le_rfl
    · exact le_rfl

end LLM42
