import LLM42.Scheduler.Live

/-! # What a step does to each request

The invariant of the queues and the batch, and a decode step as a relation between a request with
its row of the batch before and after the step. -/

namespace LLM42

open LLM42Worker List

/-- Every request is in at most one place and fits the place it is in. -/
structure Consistent (cfg : SchedulerConfig) (s : Scheduler) : Prop where
  nodup : (s.running ++ s.waitingQueue).Nodup
  lt : ∀ id ∈ s.running ++ s.waitingQueue, id < s.nextId
  settled : ∀ e ∈ s.runningBatch, Settled cfg e (s.heap e.req)
  queued : ∀ id ∈ s.waitingQueue, Queued cfg (s.heap id)
  parked : ∀ id < s.nextId, id ∉ s.running → (s.heap id).kv.reqPoolIdx = none

def BatchEntry.stepped (token : Token) (e : BatchEntry) : BatchEntry :=
  { e with inputId := e.outputId, outputId := token, seqLen := e.seqLen + 1 }

/-- A request meets its pass, or none. -/
inductive VerifyStep (w : LLM42Worker) (v : Verdict) (planned : Prop) (e : BatchEntry) (r : Req) :
    BatchEntry → Req → Prop
  | verified {net : ℕ} {r' : Req} : planned → isCandidate r → v.Outcome w e.req r r' net →
      VerifyStep w v planned e r (e.refreshed net r') (r'.rolledBack net)
  | skipped : ¬ planned → VerifyStep w v planned e r e r

inductive AfterResult (cfg : SchedulerConfig) (v : Verdict) (planned : Prop) (e : BatchEntry)
    (r : Req) : BatchEntry → Req → Prop
  | on {e' : BatchEntry} {r' : Req} : cfg.args.enableLlm42 = true →
      VerifyStep cfg.worker v planned e r e' r' → AfterResult cfg v planned e r e' r'.rechecked
  | off : cfg.args.enableLlm42 = false → AfterResult cfg v planned e r e r

/-- A decode step, seen from one request: `rejected` says that some grammar of the batch refused
its token, `planned` that a pass of this step treats the request, as it does when it is ready. -/
inductive RequestDecode (cfg : SchedulerConfig) (rejected planned : Prop) (token : Token)
    (logits : LogitsRow) (v : Verdict) (e : BatchEntry) (r : Req) :
    BatchEntry → Req → Option StreamMessage → Prop
  | mk {r₁ r₂ r₃ r' : Req} {e' : BatchEntry} {message : Option StreamMessage} :
      r.advanced.AbortedIf rejected r₁ →
      (r₁.decoded cfg token logits).AbortedIf rejected r₂ →
      AfterResult cfg v planned (e.stepped token) r₂ e' r₃ → r' = (r₃.streamOutput cfg.args).1 →
      message = (r₃.streamOutput cfg.args).2 →
      (isCandidate r₂ → cfg.worker.isReady r₂ → planned) →
      RequestDecode cfg rejected planned token logits v e r e' r' message

theorem Accepted.congr {cfg : SchedulerConfig} {e : BatchEntry} {r r' : Req}
    (h : Accepted cfg e r) (hc : r'.core = r.core) : Accepted cfg e r' := by
  rcases h with h | ⟨h, hdet⟩
  · exact .inl (h.congr hc)
  · refine .inr ⟨h.congr hc, fun hf => ?_⟩
    rw [Req.finished_congr hc] at hf
    rw [Req.isDeterministic_congr hc]
    exact hdet hf

theorem isDeterministic_of_isCandidate {r : Req} (h : isCandidate r) : r.isDeterministic := by
  simp only [isCandidate, Bool.and_eq_true] at h
  exact h.1.1.1

section RequestDecode

variable {cfg : SchedulerConfig} {rejected planned : Prop} {token : Token} {logits : LogitsRow}
  {v : Verdict} {e e' : BatchEntry} {r r₁ r₂ r' : Req} {message : Option StreamMessage}

theorem Live.accepted (h : Live cfg 0 0 e r) (h₁ : r.advanced.AbortedIf rejected r₁)
    (h₂ : (r₁.decoded cfg token logits).AbortedIf rejected r₂) :
    Accepted cfg (e.stepped token) r₂ := by
  have hadv : Live cfg 1 0 (e.stepped token) r.advanced := h.advanced
  exact ((hadv.congr h₁.core_eq).decoded token logits).congr h₂.core_eq

theorem VerifyStep.accepted (hacc : Accepted cfg e r) (henable : cfg.args.enableLlm42)
    (h : VerifyStep cfg.worker v planned e r e' r') : Accepted cfg e' r' := by
  cases h with
  | verified _ hcand hout =>
    obtain ⟨hlive, _⟩ := hacc.verifiable henable hcand
    exact Accepted.verified hlive henable (isDeterministic_of_isCandidate hcand) hout.outcome
  | skipped _ => exact hacc

theorem AfterResult.settled (hacc : Accepted cfg e r) (h : AfterResult cfg v planned e r e' r') :
    Settled cfg e' r' := by
  cases h with
  | on henable hstep => exact (hstep.accepted hacc henable).rechecked
  | off hdis =>
    rcases hacc with hgone | ⟨hlive, hfin⟩
    · exact .inl hgone
    · refine .inr ⟨fun hf => ?_, hlive⟩
      have := (hfin hf).1
      simp [hdis] at this

theorem RequestDecode.settled (hlive : Live cfg 0 0 e r)
    (h : RequestDecode cfg rejected planned token logits v e r e' r' message) : Settled cfg e' r' := by
  obtain ⟨h₁, h₂, hafter, rfl, _, _⟩ := h
  exact (hafter.settled (hlive.accepted h₁ h₂)).congr (Req.streamOutput_core _ _)

end RequestDecode

theorem exists_of_mem_forall₂ {α β : Type*} {R : α → β → Prop} {xs : List α} {ys : List β}
    (h : Forall₂ R xs ys) {y : β} (hy : y ∈ ys) : ∃ x ∈ xs, R x y := by
  induction h with
  | nil => cases hy
  | cons hxy _ ih =>
    rcases mem_cons.mp hy with rfl | hy
    · exact ⟨_, mem_cons_self, hxy⟩
    · obtain ⟨x, hx, hR⟩ := ih hy
      exact ⟨x, mem_cons_of_mem _ hx, hR⟩

namespace Scheduler

variable {cfg : SchedulerConfig} {s t : Scheduler} {tokens : ReqId → Token}
  {logitsOf : ReqId → LogitsRow} {verdict : Verdict}

section Verify

variable {passed : Scheduler} {results : List (ReqId × ℕ)} {v : VerifyState Unit}

theorem running_eq_of_forall₂
    (h : Forall₂ (fun e e' => e'.req = e.req) s.runningBatch t.runningBatch) :
    t.running = s.running := by
  have hmap : Forall₂ Eq s.running t.running := by
    rw [running, running, forall₂_map_left_iff, forall₂_map_right_iff]
    exact h.imp fun _ _ hR => hR.symm
  rw [forall₂_eq_eq_eq] at hmap
  exact hmap.symm

theorem verifyRequests_ok (hnd : s.running.Nodup) (henable : cfg.args.enableLlm42 = true)
    (hacc : ∀ e ∈ s.runningBatch, Accepted cfg e (s.heap e.req))
    (h : s.verifyRequests cfg verdict = .ok (passed, results)) :
    ∃ v, passed = s.ofVerifyState v ∧ Passed cfg.worker verdict
      (cfg.worker.plannedIds s.heap s.runningBatch) s.toVerifyState v results := by
  unfold verifyRequests at h
  split at h
  · cases h
  next v res hver =>
  cases h
  refine ⟨v, rfl, passed_all (cfg.worker.nodup_plannedIds hnd) ?_ hver⟩
  intro id hid
  obtain ⟨hmem, hcand⟩ := candidate_of_mem_plannedIds hid
  obtain ⟨e, he, rfl⟩ := mem_map.mp hmem
  exact ((hacc e he).verifiable henable hcand).2

theorem rollbacks_ok (hnd : (results.map (·.1)).Nodup) (h : results.foldlM rollback s = .ok t) :
    (∀ x ∈ results, t.heap x.1 = (s.heap x.1).rolledBack x.2) ∧
      (∀ j ∉ results.map (·.1), t.heap j = s.heap j) ∧ t.runningBatch = s.runningBatch ∧
      t.nextId = s.nextId ∧ t.waitingQueue.Sublist s.waitingQueue := by
  obtain ⟨h1, h2, hframe⟩ := foldlM_heap (·.1) (p := False) (fun x r r' => r' = r.rolledBack x.2) hnd
    (fun u x v _ _ _ hstep => ⟨(rollback_ok hstep).1 _, (rollback_ok hstep).2.1⟩) h
  refine ⟨fun x hx => ?_, fun j hj => (h2 j hj).eq_of_not not_false, hframe⟩
  obtain ⟨r, r', hr, hr', ht⟩ := h1 x hx
  rw [ht.eq_of_not not_false, hr', hr.eq_of_not not_false]

theorem rechecks_ok (hnd : s.running.Nodup) (h : s.running.foldlM recheck s = .ok t) :
    (∀ id ∈ s.running, t.heap id = (s.heap id).rechecked) ∧
      (∀ j ∉ s.running, t.heap j = s.heap j) ∧ t.runningBatch = s.runningBatch ∧
      t.nextId = s.nextId ∧ t.waitingQueue.Sublist s.waitingQueue := by
  obtain ⟨h1, h2, hframe⟩ := foldlM_heap id (p := False) (fun _ r r' => r' = r.rechecked)
    (by simpa using hnd)
    (fun u x v _ _ _ hstep => ⟨(recheck_ok hstep).1 _, (recheck_ok hstep).2.1⟩) h
  refine ⟨fun j hj => ?_, fun j hj => (h2 j (by simpa using hj)).eq_of_not not_false, hframe⟩
  obtain ⟨r, r', hr, hr', ht⟩ := h1 j hj
  have hlast : t.heap j = r' := ht.eq_of_not not_false
  have hfirst : r = s.heap j := hr.eq_of_not not_false
  rw [hlast, hr', hfirst]

theorem rolledBack_requests (hpass : Passed cfg.worker verdict
      (cfg.worker.plannedIds s.heap s.runningBatch) s.toVerifyState v results)
    (hroll : results.foldlM rollback (s.ofVerifyState v) = .ok t) :
    Forall₂ (fun e e' => e'.req = e.req ∧ VerifyStep cfg.worker verdict
        (e.req ∈ cfg.worker.plannedIds s.heap s.runningBatch) e (s.heap e.req) e' (t.heap e.req))
        s.runningBatch t.runningBatch ∧
      (∀ j ∉ s.running, t.heap j = s.heap j) ∧ t.nextId = s.nextId ∧
      t.waitingQueue.Sublist s.waitingQueue := by
  obtain ⟨hr1, hr2, hrb, hrn, hrw⟩ := rollbacks_ok hpass.nodup hroll
  have hbatch : t.runningBatch = updateBatchState s.runningBatch v.heap (results.map (·.1)) :=
    hrb.trans hpass.batch
  refine ⟨?_, ?_, hrn, hrw⟩
  · rw [hbatch, updateBatchState, forall₂_map_right_iff, forall₂_same]
    intro e he
    refine ⟨by split <;> rfl, ?_⟩
    by_cases hplan : e.req ∈ cfg.worker.plannedIds s.heap s.runningBatch
    · obtain ⟨net, hout, hres⟩ := hpass.outcome e.req hplan
      have hstep := VerifyStep.verified (e := e) hplan (candidate_of_mem_plannedIds hplan).2 hout
      by_cases hnet : 0 < net
      · have hmem : (e.req, net) ∈ results := (hres net).mpr ⟨hnet, rfl⟩
        have hheap : t.heap e.req = (v.heap e.req).rolledBack net := hr1 _ hmem
        have hfst : e.req ∈ results.map (·.1) := mem_map_of_mem hmem
        rw [if_pos hfst, hheap]
        rwa [BatchEntry.refreshed, if_pos hnet] at hstep
      · have hfst : e.req ∉ results.map (·.1) := by
          intro hfst
          obtain ⟨⟨j, n⟩, hmem, hj⟩ := mem_map.mp hfst
          obtain rfl : j = e.req := hj
          obtain ⟨hpos, rfl⟩ := (hres n).mp hmem
          exact hnet hpos
        have hheap : t.heap e.req = (v.heap e.req).rolledBack net := by
          rw [hr2 _ hfst, Nat.eq_zero_of_not_pos hnet, Req.rolledBack_zero]
          rfl
        rw [if_neg hfst, hheap]
        rwa [BatchEntry.refreshed, if_neg hnet] at hstep
    · have hfst : e.req ∉ results.map (·.1) := fun hmem => hplan (hpass.mem_ids hmem)
      rw [if_neg hfst, hr2 _ hfst]
      have hother : v.heap e.req = s.heap e.req := (hpass.other _ hplan).1
      exact hother ▸ .skipped hplan
  · intro j hj
    have hplan : j ∉ cfg.worker.plannedIds s.heap s.runningBatch := fun hmem =>
      hj (candidate_of_mem_plannedIds hmem).1
    have hfst : j ∉ results.map (·.1) := fun hmem => hplan (hpass.mem_ids hmem)
    rw [hr2 j hfst]
    exact (hpass.other j hplan).1

end Verify

theorem mem_running {s : Scheduler} {id : ReqId} :
    id ∈ s.running ↔ ∃ e ∈ s.runningBatch, e.req = id := by
  simp [running]

def Rejected (s : Scheduler) (tokens : ReqId → Token) : Prop :=
  ∃ id ∈ s.filterBatch.running, (s.heap id).Rejects (tokens id)

theorem filterBatch_sublist (s : Scheduler) : s.filterBatch.running.Sublist s.running :=
  Sublist.map _ filter_sublist

theorem mem_filterBatch {s : Scheduler} {e : BatchEntry} :
    e ∈ s.filterBatch.runningBatch ↔ e ∈ s.runningBatch ∧ ¬ (s.heap e.req).finished := by
  simp [filterBatch, isUnfinished]

theorem nodup_filterBatch (h : Consistent cfg s) : s.filterBatch.running.Nodup :=
  s.filterBatch_sublist.nodup (nodup_append.mp h.nodup).1

theorem live_of_mem_filterBatch (h : Consistent cfg s) {e : BatchEntry}
    (he : e ∈ s.filterBatch.runningBatch) : Live cfg 0 0 e (s.heap e.req) := by
  obtain ⟨hmem, hf⟩ := mem_filterBatch.mp he
  rcases h.settled e hmem with hg | ⟨_, hl⟩
  · exact absurd hg.finished hf
  · exact hl

namespace ResultPhases

variable (P : ResultPhases cfg s tokens logitsOf)

def planned : List ReqId := cfg.worker.plannedIds P.accepted.heap P.accepted.runningBatch

theorem prepared_running : P.prepared.running = s.filterBatch.running := by
  rw [P.prepared_eq]
  simp [running]

theorem prepared_heap (h : Consistent cfg s) {e : BatchEntry}
    (he : e ∈ s.filterBatch.runningBatch) :
    P.prepared.heap e.req = (s.heap e.req).advanced := by
  have hspec := extendRows_spec (nodup_filterBatch h) P.allocated.length_eq
    (s.filterBatch.setMemory P.memory)
  rw [P.prepared_eq]
  exact hspec.1 e he

theorem prepared_other (h : Consistent cfg s) {j : ReqId} (hj : j ∉ s.filterBatch.running) :
    P.prepared.heap j = s.heap j := by
  have hspec := extendRows_spec (nodup_filterBatch h) P.allocated.length_eq
    (s.filterBatch.setMemory P.memory)
  rw [P.prepared_eq]
  exact hspec.2 j hj

theorem prepared_frame : P.prepared.nextId = s.nextId ∧ P.prepared.waitingQueue = s.waitingQueue ∧
      P.prepared.memory.allocator = P.memory.allocator ∧
      P.prepared.memory.tree = P.memory.tree := by
  rw [P.prepared_eq]
  exact (extendRows_frame s.filterBatch.runningBatch P.locs (s.filterBatch.setMemory P.memory)).2

section

variable (h : Consistent cfg s)

include h

theorem accepted_spec :
    (∀ e ∈ s.filterBatch.runningBatch, ∃ r, (s.heap e.req).advanced.AbortedIf (s.Rejected tokens) r ∧
        (r.decoded cfg (tokens e.req) (logitsOf e.req)).AbortedIf (s.Rejected tokens)
          (P.accepted.heap e.req)) ∧
      (∀ j ∉ s.filterBatch.running, (s.heap j).AbortedIf (s.Rejected tokens) (P.accepted.heap j)) ∧
      P.accepted.runningBatch = P.prepared.runningBatch ∧ P.accepted.nextId = s.nextId ∧
      P.accepted.waitingQueue.Sublist s.waitingQueue := by
  have hrun := P.prepared_running
  obtain ⟨hnext, hwait, _⟩ := P.prepared_frame
  have hnd : (P.prepared.running.map id).Nodup := by
    rw [map_id, hrun]
    exact nodup_filterBatch h
  have hloop := foldlM_heap (s := P.prepared.freeGroupBegin) (t := P.accepted) id
    (p := s.Rejected tokens) (fun id r r' => r' = r.decoded cfg (tokens id) (logitsOf id))
    hnd ?_ P.accepted_eq
  · obtain ⟨h1, h2, h3, h4, h5⟩ := hloop
    refine ⟨?_, ?_, h3, h4.trans hnext, hwait ▸ h5⟩
    · intro e he
      have hid : e.req ∈ P.prepared.running := hrun ▸ mem_running.mpr ⟨e, he, rfl⟩
      obtain ⟨r, r', hr, rfl, hr'⟩ := h1 e.req hid
      exact ⟨r, P.prepared_heap h he ▸ hr, hr'⟩
    · intro j hj
      have := h2 j (by rwa [map_id, hrun])
      rwa [show P.prepared.freeGroupBegin.heap j = s.heap j from P.prepared_other h hj] at this
  · intro u id v hid hpre hrunning hstep
    have hmem : id ∈ u.running := by
      rw [running, hrunning]
      exact hid
    obtain ⟨hframe, hheap, _⟩ := decodeResult_ok hmem hstep
    have hrej : (u.heap id).Rejects (tokens id) → s.Rejected tokens := by
      rintro ⟨g, hg, ha⟩
      obtain ⟨e, he, rfl⟩ := mem_running.mp (hrun ▸ hid)
      have hgram := hpre.grammar
      refine ⟨e.req, mem_running.mpr ⟨e, he, rfl⟩, g, ?_, ha⟩
      have hadv : (P.prepared.heap e.req).grammar = (s.heap e.req).grammar := by
        rw [P.prepared_heap h he]
        rfl
      exact hadv.symm.trans (hgram.symm.trans hg)
    exact ⟨hframe.imp hrej, hheap⟩

theorem accepted_runningBatch :
    P.accepted.runningBatch = s.filterBatch.runningBatch.map fun e => e.stepped (tokens e.req) := by
  rw [(P.accepted_spec h).2.2.1, P.prepared_eq]
  rfl

theorem accepted_entries :
    ∀ e ∈ P.accepted.runningBatch, Accepted cfg e (P.accepted.heap e.req) := by
  rw [P.accepted_runningBatch h]
  intro e' he'
  obtain ⟨e, he, rfl⟩ := mem_map.mp he'
  obtain ⟨r, h₁, h₂⟩ := (P.accepted_spec h).1 e he
  exact (live_of_mem_filterBatch h he).accepted h₁ h₂

theorem accepted_running : P.accepted.running = s.filterBatch.running := by
  rw [running, P.accepted_runningBatch h, map_map]
  rfl

/-- What the result loop keeps for every request that it meets in the batch, it keeps. -/
theorem accepted_invariant {I : Scheduler → Prop} (hinit : I P.prepared.freeGroupBegin)
    (hstep : ∀ e ∈ s.filterBatch.runningBatch, ∀ u v, e.req ∈ u.running →
      Live cfg 1 0 (e.stepped (tokens e.req)) (u.heap e.req) →
      (u.heap e.req).core = (s.heap e.req).advanced.core → I u →
      decodeResult cfg tokens logitsOf u e.req = .ok v → I v) : I P.accepted := by
  have hnd : (P.prepared.running.map id).Nodup := by
    rw [map_id, P.prepared_running]
    exact nodup_filterBatch h
  refine foldlM_heap_invariant (s := P.prepared.freeGroupBegin) (p := True) id I hnd ?_
    P.accepted_eq hinit
  intro u j v hj hpre hrun hu hok
  have hmem : j ∈ u.running := by
    rw [running, hrun]
    exact hj
  rw [P.prepared_running] at hj
  obtain ⟨e, he, rfl⟩ := mem_running.mp hj
  have hcore : (P.prepared.heap e.req).AbortedIf True (u.heap e.req) := hpre
  rw [P.prepared_heap h he] at hcore
  exact ⟨(decodeResult_ok hmem hok).1.imp fun _ => trivial, hstep e he u v hmem
    ((live_of_mem_filterBatch h he).advanced.congr hcore.core_eq) hcore.core_eq hu hok⟩

end

end ResultPhases

namespace DecodePhases

variable (P : DecodePhases cfg s tokens logitsOf verdict t)

/-- From the end of the result loop to the end of the LLM-42 block. -/
theorem rechecked_requests (h : Consistent cfg s) :
    Forall₂ (fun e e' => e'.req = e.req ∧ AfterResult cfg verdict (e.req ∈ P.planned) e
        (P.accepted.heap e.req) e' (P.rechecked.heap e.req))
        P.accepted.runningBatch P.rechecked.runningBatch ∧
      (∀ j ∉ P.accepted.running, P.rechecked.heap j = P.accepted.heap j) ∧
      P.rechecked.nextId = P.accepted.nextId ∧
      P.rechecked.waitingQueue.Sublist P.accepted.waitingQueue := by
  cases henable : cfg.args.enableLlm42 with
  | true =>
    obtain ⟨passed, results, rolledBack, hver, hroll, hre⟩ := P.verified henable
    have hnd : P.accepted.running.Nodup := P.accepted_running h ▸ nodup_filterBatch h
    obtain ⟨v, rfl, hpass⟩ := verifyRequests_ok hnd henable (P.accepted_entries h) hver
    obtain ⟨hr, hrother, hrnext, hrwait⟩ := rolledBack_requests hpass hroll
    have hrun := running_eq_of_forall₂ (hr.imp fun _ _ h => h.1)
    obtain ⟨ht, htother, hbatch, htnext, htwait⟩ := rechecks_ok (hrun ▸ hnd) hre
    rw [hrun] at ht htother
    refine ⟨?_, fun j hj => (htother j hj).trans (hrother j hj), htnext.trans hrnext,
      htwait.trans hrwait⟩
    rw [hbatch]
    refine Forall₂.imp (fun e e' he => ?_) ((forall₂_and_left
      (p := (· ∈ P.accepted.runningBatch)) _ _).mpr ⟨fun e he => he, hr⟩)
    obtain ⟨hmem, hreq, hstep⟩ := he
    rw [ht _ (mem_map_of_mem hmem)]
    exact ⟨hreq, .on henable hstep⟩
  | false =>
    rw [P.unverified henable]
    exact ⟨forall₂_same.mpr fun e _ => ⟨rfl, .off henable⟩, fun _ _ => rfl, rfl,
      Sublist.refl _⟩

/-- What the passes, every rollback and every second check keep, the LLM-42 block keeps. -/
theorem rechecked_invariant (h : Consistent cfg s) {I : Scheduler → Prop} (hacc : I P.accepted)
    (hpassed : ∀ v results, Passed cfg.worker verdict P.planned P.accepted.toVerifyState v results →
      I (P.accepted.ofVerifyState v))
    (hroll : ∀ e ∈ P.accepted.runningBatch, cfg.args.enableLlm42 = true →
      isCandidate (P.accepted.heap e.req) → ∀ u net w, verdict.Outcome cfg.worker e.req
        (P.accepted.heap e.req) (u.heap e.req) net → I u → rollback u (e.req, net) = .ok w → I w)
    (hre : ∀ e ∈ P.accepted.runningBatch, cfg.args.enableLlm42 = true → ∀ e' u w, e'.req = e.req →
      VerifyStep cfg.worker verdict (e.req ∈ P.planned) e (P.accepted.heap e.req) e'
        (u.heap e.req) → I u → recheck u e.req = .ok w → I w) : I P.rechecked := by
  cases henable : cfg.args.enableLlm42 with
  | false => rwa [P.unverified henable]
  | true =>
    obtain ⟨passed, results, rolledBack, hver, hrollback, hrecheck⟩ := P.verified henable
    have hnd : P.accepted.running.Nodup := P.accepted_running h ▸ nodup_filterBatch h
    obtain ⟨v, rfl, hpass⟩ := verifyRequests_ok hnd henable (P.accepted_entries h) hver
    have hrolled : I rolledBack := by
      refine foldlM_heap_invariant (p := False) (·.1) I hpass.nodup ?_ hrollback (hpassed v _ hpass)
      intro u x w hx hpre _ hu hstep
      have hheap : u.heap x.1 = v.heap x.1 := hpre.eq_of_not not_false
      have hplan := hpass.mem_ids (mem_map_of_mem hx)
      obtain ⟨hmem, hcand⟩ := candidate_of_mem_plannedIds hplan
      obtain ⟨net, hout, hres⟩ := hpass.outcome x.1 hplan
      obtain ⟨_, hnet⟩ := (hres x.2).mp hx
      obtain ⟨e, he, hreq⟩ := mem_map.mp hmem
      rw [← hheap, ← hreq, ← hnet] at hout
      rw [← hreq] at hcand
      refine ⟨(rollback_ok hstep).1 _, hroll e he henable hcand u x.2 w hout hu ?_⟩
      rw [hreq]
      exact hstep
    obtain ⟨hreqs, _⟩ := rolledBack_requests hpass hrollback
    have hrun : rolledBack.running = P.accepted.running :=
      running_eq_of_forall₂ (hreqs.imp fun _ _ h => h.1)
    have hnd' : (rolledBack.running.map id).Nodup := by
      rw [map_id, hrun]
      exact hnd
    refine foldlM_heap_invariant (p := False) id I hnd' ?_ hrecheck hrolled
    intro u j w hj hpre _ hu hstep
    have hheap : u.heap j = rolledBack.heap j := hpre.eq_of_not not_false
    obtain ⟨e', he', rfl⟩ := mem_running.mp hj
    obtain ⟨e, he, hreq, hverify⟩ := exists_of_mem_forall₂ hreqs he'
    rw [hreq] at hheap hstep
    rw [← hheap] at hverify
    exact ⟨hreq ▸ (recheck_ok hstep).1 _, hre e he henable e' u w hreq hverify hu hstep⟩

def message (id : ReqId) : Option StreamMessage :=
  ((P.rechecked.heap id).streamOutput cfg.args).2

theorem requests (h : Consistent cfg s) :
    Forall₂ (fun e e' => e'.req = e.req ∧ RequestDecode cfg (s.Rejected tokens)
        (e.req ∈ P.planned) (tokens e.req) (logitsOf e.req) verdict e (s.heap e.req) e'
        (t.heap e.req) (P.message e.req)) s.filterBatch.runningBatch t.runningBatch ∧
      (∀ j ∉ s.filterBatch.running, (s.heap j).AbortedIf (s.Rejected tokens) (t.heap j)) ∧
      t.nextId = s.nextId ∧ t.waitingQueue.Sublist s.waitingQueue := by
  obtain ⟨ha, ha', _, hanext, hawait⟩ := P.accepted_spec h
  obtain ⟨hr, hr', hrnext, hrwait⟩ := P.rechecked_requests h
  obtain ⟨_, hbatch, hnext, hwait, _⟩ := streamOutput_spec cfg.args P.rechecked P.rechecked.running
  have hrun : P.rechecked.running = s.filterBatch.running :=
    (running_eq_of_forall₂ (hr.imp fun _ _ h => h.1)).trans (P.accepted_running h)
  have ht : ∀ j, t.heap j = if j ∈ s.filterBatch.running
      then ((P.rechecked.heap j).streamOutput cfg.args).1 else P.rechecked.heap j := fun j =>
    (congrArg (fun u : Scheduler => u.heap j) P.final_eq).trans
      (hrun ▸ streamOutput_heap cfg.args (hrun ▸ nodup_filterBatch h) P.rechecked j)
  have htbatch : t.runningBatch = P.rechecked.runningBatch :=
    (congrArg (·.runningBatch) P.final_eq).trans hbatch
  have htnext : t.nextId = P.rechecked.nextId := (congrArg (·.nextId) P.final_eq).trans hnext
  have htwait : t.waitingQueue = P.rechecked.waitingQueue :=
    (congrArg (·.waitingQueue) P.final_eq).trans hwait
  refine ⟨?_, ?_, htnext.trans (hrnext.trans hanext), htwait ▸ hrwait.trans hawait⟩
  · rw [P.accepted_runningBatch h, forall₂_map_left_iff] at hr
    rw [htbatch]
    refine Forall₂.imp (fun e e' he => ?_) ((forall₂_and_left
      (p := (· ∈ s.filterBatch.runningBatch)) _ _).mpr ⟨fun e he => he, hr⟩)
    obtain ⟨hmem, hreq, hafter⟩ := he
    obtain ⟨r, h₁, h₂⟩ := ha e hmem
    have hid : e.req ∈ s.filterBatch.running := mem_running.mpr ⟨e, hmem, rfl⟩
    have hstream : t.heap e.req = ((P.rechecked.heap e.req).streamOutput cfg.args).1 :=
      (ht e.req).trans (if_pos hid)
    refine ⟨hreq, h₁, h₂, hafter, hstream, rfl, fun hcand hready => ?_⟩
    refine mem_plannedIds ?_ hcand hready
    change e.req ∈ P.accepted.running
    rw [P.accepted_running h]
    exact hid
  · intro j hj
    have hj' : j ∉ P.accepted.running := P.accepted_running h ▸ hj
    rw [ht, if_neg hj, hr' j hj']
    exact ha' j hj

end DecodePhases

end Scheduler

end LLM42
