import LLM42.Scheduler.Decode
import LLM42.Verification.Groups
import LLM42.Verification.Outcome

/-! # All passes of one decode step

The passes of one decode step treat disjoint groups, so each request meets at most one of them and
its outcome is decided by its own rows of the verdict. -/

namespace LLM42

open LLM42Info LLM42Worker List

namespace Verdict

variable (v : Verdict)

def rows (id : ReqId) (r : Req) : List Token := (List.range r.unverified.length).map (v.tokens id)

def logprobRows (id : ReqId) (r : Req) : Option (List Logprob) :=
  v.logprobs.map fun lps => (List.range r.unverified.length).map (lps id)

structure Outcome (w : LLM42Worker) (id : ReqId) (r r' : Req) (net : ℕ) : Prop where
  outcome : VerifyOutcome r (v.rows id r) (w.rollbackCount r.unverified (v.rows id r)) r' net
  logprobs : logprobRecord r' = logprobRecord (w.passLogprobs (v.rows id r) (v.logprobRows id r) r)

theorem locate_offsetBy (len : ReqId → ℕ) {group : List ReqId} {id : ReqId} (hid : id ∈ group)
    {j : ℕ} (hj : j < len id) :
    locate (group.map fun x => (x, len x)) (offsetBy len group id + j) = some (id, j) := by
  induction group with
  | nil => cases hid
  | cons x xs ih =>
    simp only [map_cons, locate, offsetBy]
    by_cases hx : x = id
    · subst hx
      simp [hj]
    · have hmem : id ∈ xs := (mem_cons.mp hid).resolve_left fun h => hx h.symm
      rw [if_neg hx, if_neg (by omega), Nat.add_assoc, Nat.add_sub_cancel_left]
      exact ih hmem

end Verdict

variable {w : LLM42Worker} {v : Verdict} {pool : ReqToTokenPool} {group : List ReqId}
  {force : Bool} {numDummies : ℕ} {s s' : VerifyState Unit} {results : List (ReqId × ℕ)}

private theorem zip_map_append {α β : Type*} (xs : List α) (f : α → β) (extra : List β) :
    xs.zip (xs.map f ++ extra) = xs.map fun x => (x, f x) := by
  induction xs with
  | nil => rfl
  | cons x xs ih => simp [ih]

namespace LLM42Worker.PassResult

section

variable (p : w.PassResult v.run pool group force numDummies s s' results)

include p

section

variable (hall : ∀ id ∈ group, Verifiable (s.heap id))

include hall

theorem reqIds_zip :
    p.verifyBatch.reqIds.zip p.verifyBatch.extendLens =
      group.map fun id => (id, w.rowsOf force (s.heap id)) := by
  obtain ⟨dummyLen, hd⟩ := p.describes fun id hid => (hall id hid).unverified
  obtain ⟨locs, _, hbatch, _⟩ := prepareVerifyBatch_ok p.prepared
  have hshape := hd.shapes_eq w.windowSize_pos (by simpa using hall)
  have hext : ((p.info.rows (group.map s.heap)).filterMap fun x => rowShape x.1 x.2.1).map (·.2.2) =
      group.map fun id => w.rowsOf force (s.heap id) := by
    have := congrArg (List.map Prod.snd) hshape
    simpa [map_map, Function.comp_def, rowsOf] using this
  rw [hbatch, assemble]
  rw [hext]
  exact zip_map_append _ _ _

theorem rowsFrom_locate {α : Type} {id : ReqId} (hid : id ∈ group) {n : ℕ}
    (hn : n ≤ w.rowsOf force (s.heap id)) (d : α) (f : ReqId → ℕ → α) :
    rowsFrom (fun i => (Verdict.locate (p.verifyBatch.reqIds.zip p.verifyBatch.extendLens) i).elim d
        fun x => f x.1 x.2) (w.offsetIn force s.heap group id) n = (List.range n).map (f id) := by
  have hzip := p.reqIds_zip hall
  refine map_congr_left fun j hj => ?_
  have hj' : j < w.rowsOf force (s.heap id) := (mem_range.mp hj).trans_le hn
  dsimp only
  rw [hzip, offsetIn, Verdict.locate_offsetBy (fun x => w.rowsOf force (s.heap x)) hid hj']
  rfl

theorem outcome {id : ReqId} (hid : id ∈ group) :
    v.Outcome w id (s.heap id) (s'.heap id)
      (w.netRollback force p.out (w.offsetIn force s.heap group id) (s.heap id)) := by
  have hfull := p.window_eq hall id hid
  have hne := (hall id hid).unverified
  have hle := length_window_le_paddedLen w.alwaysAlign force w.windowSize (s.heap id)
  rw [hfull] at hle
  have hforward : p.out = v.forward p.verifyBatch := (congrArg Prod.fst p.forward_eq).symm
  have htokens : rowsFrom p.out.tokenIds (w.offsetIn force s.heap group id)
      (s.heap id).unverified.length = v.rows id (s.heap id) := by
    rw [hforward]
    exact p.rowsFrom_locate hall hid hle _ _
  have hlogprobs : p.out.logprobs.map (fun lps => rowsFrom lps (w.offsetIn force s.heap group id)
      (s.heap id).unverified.length) = v.logprobRows id (s.heap id) := by
    rw [hforward, Verdict.forward, Option.map_map]
    refine congrArg (fun f => v.logprobs.map f) (funext fun lps => ?_)
    exact p.rowsFrom_locate hall hid hle _ _
  have hout := w.verifyReq_outcome p.out (w.offsetIn force s.heap group id) hne hfull
  have hlps := w.verifyReq_logprobRecord p.out (w.offsetIn force s.heap group id) hne hfull
  rw [htokens] at hout hlps
  rw [hlogprobs] at hlps
  rw [p.heap_of_mem hid]
  exact ⟨hout, hlps⟩

end

theorem batch_eq' : s'.batch = updateBatchState s.batch s'.heap (results.map (·.1)) := by
  rw [p.batch_eq]
  split
  next h => simp [h, updateBatchState]
  · rfl

theorem held : s'.allocator.held.Perm s.allocator.held ∧ s'.allocator.size = s.allocator.size ∧
      s'.allocator.isNotInFreeGroup = s.allocator.isNotInFreeGroup := by
  have heq := p.allocator_eq
  rcases w.assignPadding_ok p.assigned with ⟨h0, hinfo, ha⟩ | ⟨_, ha, fp, locs, hfp, _, _⟩ |
    ⟨hpos, hnone, locs, halloc, hinfo⟩
  · rw [if_neg (by rw [hinfo]; omega), ha] at heq
    rw [heq]
    exact ⟨.refl _, rfl, rfl⟩
  · rw [if_neg (by simp [hfp]), ha] at heq
    rw [heq]
    exact ⟨.refl _, rfl, rfl⟩
  · obtain ⟨hperm, _⟩ := TokenToKVPoolAllocator.alloc_some halloc
    have hsize := s.allocator.alloc_size
      (w.buildInfo (group.map s.heap) force numDummies).totalPaddingCacheSlots
    have hgroup := s.allocator.alloc_isNotInFreeGroup
      (w.buildInfo (group.map s.heap) force numDummies).totalPaddingCacheSlots
    rw [halloc] at hsize hgroup
    have hfree : p.info.freePaddingKvCache p.allocator = p.allocator.free locs := by
      rw [hinfo]
      rfl
    rw [if_pos ⟨by rw [hinfo]; exact hpos, by simp [hnone]⟩, hfree] at heq
    rw [heq]
    exact ⟨(TokenToKVPoolAllocator.held_free _ _).trans hperm, by simp [← hsize],
      by simp [← hgroup]⟩

end

end LLM42Worker.PassResult

theorem updateBatchState_twice {batch : ScheduleBatch} {h₁ h₂ : ReqId → Req} {ids₁ ids₂ : List ReqId}
    (h : ∀ id ∈ ids₁, id ∉ ids₂ → h₁ id = h₂ id) :
    updateBatchState (updateBatchState batch h₁ ids₁) h₂ ids₂ =
      updateBatchState batch h₂ (ids₁ ++ ids₂) := by
  unfold updateBatchState
  rw [map_map]
  refine map_congr_left fun e _ => ?_
  by_cases h1 : e.req ∈ ids₁
  · by_cases h2 : e.req ∈ ids₂
    · simp [h1, h2]
    · simp [h1, h2, h e.req h1 h2]
  · simp [h1]

/-- Passes over `ids` that all returned, seen from each request. -/
structure Passed (w : LLM42Worker) (v : Verdict) (ids : List ReqId) (s s' : VerifyState Unit)
    (results : List (ReqId × ℕ)) : Prop where
  outcome : ∀ id ∈ ids, ∃ net, v.Outcome w id (s.heap id) (s'.heap id) net ∧
    ∀ n, (id, n) ∈ results ↔ 0 < n ∧ n = net
  other : ∀ id ∉ ids, s'.heap id = s.heap id ∧ ∀ n, (id, n) ∉ results
  nodup : (results.map (·.1)).Nodup
  batch : s'.batch = updateBatchState s.batch s'.heap (results.map (·.1))
  held : s'.allocator.held.Perm s.allocator.held
  size : s'.allocator.size = s.allocator.size
  group : s'.allocator.isNotInFreeGroup = s.allocator.isNotInFreeGroup

theorem Passed.mem_ids {ids : List ReqId} (h : Passed w v ids s s' results) {id : ReqId}
    (hid : id ∈ results.map (·.1)) : id ∈ ids := by
  by_contra hn
  obtain ⟨⟨i, n⟩, hmem, rfl⟩ := mem_map.mp hid
  exact (h.other i hn).2 n hmem

private theorem map_fst_filterMap_zip {α β γ : Type*} {f : α × β → Option (α × γ)}
    (hf : ∀ x y, f x = some y → y.1 = x.1) (xs : List α) (ys : List β) :
    (((xs.zip ys).filterMap f).map Prod.fst).Sublist xs := by
  induction xs generalizing ys with
  | nil => simp
  | cons x xs ih =>
    cases ys with
    | nil => simp
    | cons y ys =>
      rw [zip_cons_cons, filterMap_cons]
      split
      · exact (ih ys).cons x
      next z hz =>
        rw [map_cons, hf _ _ hz]
        exact (ih ys).cons_cons x

theorem passed_one (hnd : group.Nodup) (hall : ∀ id ∈ group, Verifiable (s.heap id))
    (h : w.runVerification v.run pool group force numDummies s = .ok (s', results)) :
    Passed w v group s s' results := by
  obtain ⟨p⟩ := runVerification_ok w (fun id hid => (hall id hid).unverified) h
  obtain ⟨hheld, hsize, hgroup⟩ := p.held
  refine ⟨?_, ?_, ?_, p.batch_eq', hheld, hsize, hgroup⟩
  · intro id hid
    refine ⟨_, p.outcome hall hid, fun n => ?_⟩
    rw [p.mem_results hnd]
    exact ⟨fun h => h.2, fun h => ⟨hid, h⟩⟩
  · intro id hid
    refine ⟨p.heap_of_not_mem hid, fun n hn => hid ?_⟩
    exact ((p.mem_results hnd).mp hn).1
  · rw [p.results_eq]
    refine (map_fst_filterMap_zip ?_ _ _).nodup hnd
    intro x y hy
    split at hy
    · exact congrArg Prod.fst (Option.some.inj hy).symm
    · cases hy

/-- A plan's passes together verify each request once. -/
theorem passed_all {passes : List (List ReqId × Bool × ℕ)} (hnd : (passes.flatMap (·.1)).Nodup)
    (hall : ∀ id ∈ passes.flatMap (·.1), Verifiable (s.heap id))
    (h : w.runPasses v.run pool passes s = .ok (s', results)) :
    Passed w v (passes.flatMap (·.1)) s s' results := by
  induction passes generalizing s results with
  | nil =>
    obtain ⟨rfl, rfl⟩ := h
    exact ⟨by simp, by simp, by simp, by simp [updateBatchState], .refl _, rfl, rfl⟩
  | cons pass rest ih =>
    obtain ⟨g, f, nd⟩ := pass
    simp only [runPasses] at h
    obtain ⟨⟨s₁, res₁⟩, h₁, h⟩ := Library.bind_eq_ok h
    obtain ⟨⟨s₂, res₂⟩, h₂, h⟩ := Library.bind_eq_ok h
    cases h
    obtain ⟨hnd₁, hnd₂, hdisj⟩ := nodup_append.mp hnd
    have hp₁ := passed_one hnd₁ (fun id hid => hall id (mem_append_left _ hid)) h₁
    have hnot : ∀ id ∈ rest.flatMap (·.1), id ∉ g := fun id hid hg => hdisj id hg id hid rfl
    have hp₂ := ih hnd₂ (fun id hid => by
      rw [(hp₁.other id (hnot id hid)).1]
      exact hall id (mem_append_right _ hid)) h₂
    have hstay : ∀ id ∈ g, s₂.heap id = s₁.heap id ∧ ∀ n, (id, n) ∉ res₂ := fun id hid =>
      hp₂.other id fun hr => hnot id hr hid
    refine ⟨?_, ?_, ?_, ?_, hp₂.held.trans hp₁.held, hp₂.size.trans hp₁.size,
      hp₂.group.trans hp₁.group⟩
    · intro id hid
      rcases mem_append.mp hid with hg | hr
      · obtain ⟨net, hout, hres⟩ := hp₁.outcome id hg
        obtain ⟨hheap, hres₂⟩ := hstay id hg
        refine ⟨net, hheap ▸ hout, fun n => ?_⟩
        rw [mem_append, ← hres]
        exact ⟨fun h => h.resolve_right (hres₂ n), .inl⟩
      · obtain ⟨net, hout, hres⟩ := hp₂.outcome id hr
        obtain ⟨hheap, hres₁⟩ := hp₁.other id (hnot id hr)
        refine ⟨net, hheap ▸ hout, fun n => ?_⟩
        rw [mem_append, ← hres]
        exact ⟨fun h => h.resolve_left (hres₁ n), .inr⟩
    · intro id hid
      obtain ⟨hg, hr⟩ := not_or.mp (mem_append.not.mp hid)
      obtain ⟨h1, h1'⟩ := hp₁.other id hg
      obtain ⟨h2, h2'⟩ := hp₂.other id hr
      refine ⟨h2.trans h1, fun n hn => ?_⟩
      rcases mem_append.mp hn with hn | hn
      · exact h1' n hn
      · exact h2' n hn
    · rw [map_append, nodup_append]
      refine ⟨hp₁.nodup, hp₂.nodup, ?_⟩
      rintro id h1 _ h2 rfl
      exact hnot id (hp₂.mem_ids h2) (hp₁.mem_ids h1)
    · rw [hp₂.batch, hp₁.batch, map_append]
      refine updateBatchState_twice fun id h1 _ => ?_
      exact (hstay id (hp₁.mem_ids h1)).1.symm

end LLM42
