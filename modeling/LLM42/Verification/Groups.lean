import LLM42.Verification.Worker

/-! # The groups of a decode step

`check_and_verify_deterministic_requests` cuts the ready requests into groups and, with a
verification pool, fills the groups up with requests that are not ready. -/

namespace LLM42.LLM42Worker

open List

variable {w : LLM42Worker} {pool : FixedSizeVerificationPool} {heap : ReqId → Req}
  {batch : ScheduleBatch} {k fuel : ℕ} {ready : List ReqId}

theorem length_drop_le (hk : 0 < k) (hfuel : ready.length ≤ fuel + 1) :
    (ready.drop k).length ≤ fuel := by
  rw [length_drop]
  omega

/-- Each group is a part of the ready requests followed by a part of the others. The former are
used up, in order, and so is a beginning of the latter. -/
theorem fixedGroups_spec (hk : 0 < k) (hfuel : ready.length ≤ fuel) (notReady : List ReqId) :
    ∃ parts : List (List ReqId × List ReqId),
      fixedGroups k fuel ready notReady = parts.map (fun x => x.1 ++ x.2) ∧
      parts.flatMap (·.1) = ready ∧ parts.flatMap (·.2) <+: notReady ∧
      ∀ x ∈ parts, (x.1 ++ x.2).length ≤ k := by
  induction fuel generalizing ready notReady with
  | zero =>
    obtain rfl : ready = [] := by simpa using hfuel
    exact ⟨[], rfl, rfl, List.nil_prefix, by simp⟩
  | succ fuel ih =>
    cases ready with
    | nil => exact ⟨[], rfl, rfl, List.nil_prefix, by simp⟩
    | cons r rest =>
      set n := k - ((r :: rest).take k).length with hn
      obtain ⟨parts, heq, hready, hnot, hlen⟩ :=
        ih (length_drop_le hk hfuel) (notReady.drop (notReady.take n).length)
      refine ⟨((r :: rest).take k, notReady.take n) :: parts, ?_, ?_, ?_, ?_⟩
      · rw [map_cons, ← heq]
        rfl
      · rw [flatMap_cons, hready, take_append_drop]
      · rw [flatMap_cons]
        conv_rhs => rw [← take_append_drop (notReady.take n).length notReady]
        rw [show notReady.take (notReady.take n).length = notReady.take n by
          rw [length_take, take_eq_take_min, Nat.min_assoc, Nat.min_self, ← take_eq_take_min]]
        exact (prefix_append_right_inj _).mpr hnot
      · rintro x (_ | ⟨_, hx⟩)
        · simp only [length_append, length_take, hn]
          omega
        · exact hlen x hx

/-- The loop has ended after as many rounds as there are ready requests. -/
theorem fixedGroups_fuel (hk : 0 < k) {more : ℕ} (hfuel : ready.length ≤ fuel)
    (hmore : ready.length ≤ more) (notReady : List ReqId) :
    fixedGroups k fuel ready notReady = fixedGroups k more ready notReady := by
  induction fuel generalizing more ready notReady with
  | zero =>
    obtain rfl : ready = [] := by simpa using hfuel
    cases more <;> rfl
  | succ fuel ih =>
    cases ready with
    | nil => cases more <;> rfl
    | cons r rest =>
      cases more with
      | zero => cases hmore
      | succ more =>
        simp only [fixedGroups]
        rw [ih (length_drop_le hk hfuel) (length_drop_le hk hmore)]

theorem flatten_chunks {reqs : List ReqId} (hk : 0 < k) (hfuel : reqs.length ≤ fuel) :
    (chunks k fuel reqs).flatten = reqs := by
  induction fuel generalizing reqs with
  | zero =>
    obtain rfl : reqs = [] := by simpa using hfuel
    rfl
  | succ fuel ih =>
    cases reqs with
    | nil => rfl
    | cons r rest =>
      simp only [chunks, flatten_cons]
      rw [ih (length_drop_le hk hfuel), take_append_drop]

/-- Requests that the passes of a decode step treat. -/
def plannedIds (w : LLM42Worker) (heap : ReqId → Req) (batch : ScheduleBatch) : List ReqId :=
  (w.plannedPasses heap batch).flatMap (·.1)

/-- Ready requests are planned as often as the batch lists them, others at most so. -/
theorem plannedIds_perm (w : LLM42Worker) (heap : ReqId → Req) (batch : ScheduleBatch) :
    ∃ filled, (w.plannedIds heap batch).Perm (((batch.map (·.req)).filter fun id =>
        isCandidate (heap id)).filter (fun id => w.isReady (heap id)) ++ filled) ∧
      filled <+: ((batch.map (·.req)).filter fun id => isCandidate (heap id)).filter
        fun id => !w.isReady (heap id) := by
  unfold plannedIds plannedPasses
  dsimp only
  split
  next pool hp =>
    obtain ⟨parts, heq, hready, hnot, -⟩ := fixedGroups_spec pool.fixedSize_pos le_rfl
      (((batch.map (·.req)).filter fun id => isCandidate (heap id)).filter
        fun id => !w.isReady (heap id))
    refine ⟨_, ?_, hnot⟩
    rw [heq, ← hready, map_map, flatMap_map]
    exact (flatMap_append_perm _ _ _).symm
  next hp =>
    refine ⟨[], ?_, List.nil_prefix⟩
    rw [flatMap_map, flatMap_id', flatten_chunks w.fixedRequestsPerVerify_pos le_rfl, append_nil]

theorem count_plannedIds_le (w : LLM42Worker) (heap : ReqId → Req) (batch : ScheduleBatch)
    (x : ReqId) : (w.plannedIds heap batch).count x ≤
      ((batch.map (·.req)).filter fun id => isCandidate (heap id)).count x := by
  obtain ⟨filled, hperm, hfilled⟩ := w.plannedIds_perm heap batch
  rw [hperm.count_eq, count_append]
  refine (Nat.add_le_add_left (hfilled.count_le x) _).trans (le_of_eq ?_)
  rw [← count_append]
  exact (filter_append_perm _ _).count_eq x

theorem nodup_plannedIds (w : LLM42Worker) (hnd : (batch.map (·.req)).Nodup) :
    (w.plannedIds heap batch).Nodup := by
  rw [nodup_iff_count_le_one]
  intro x
  refine (w.count_plannedIds_le heap batch x).trans ?_
  exact nodup_iff_count_le_one.mp (hnd.filter _) x

theorem candidate_of_mem_plannedIds {id : ReqId} (hid : id ∈ w.plannedIds heap batch) :
    id ∈ batch.map (·.req) ∧ isCandidate (heap id) := by
  have hcount := w.count_plannedIds_le heap batch id
  have hpos := count_pos_iff.mpr hid
  have hmem := count_pos_iff.mp (hpos.trans_le hcount)
  simpa using mem_filter.mp hmem

theorem mem_plannedIds {id : ReqId} (hid : id ∈ batch.map (·.req)) (hc : isCandidate (heap id))
    (hr : w.isReady (heap id)) : id ∈ w.plannedIds heap batch := by
  obtain ⟨filled, hperm, -⟩ := w.plannedIds_perm heap batch
  refine hperm.mem_iff.mpr (mem_append_left _ ?_)
  exact mem_filter.mpr ⟨mem_filter.mpr ⟨hid, hc⟩, hr⟩

theorem plannedPasses_form (hpool : w.fixedPool = some pool) {p : List ReqId × Bool × ℕ}
    (hp : p ∈ w.plannedPasses heap batch) :
    p.1.length ≤ pool.fixedSize ∧ p.2 = (true, pool.fixedSize - p.1.length) := by
  unfold plannedPasses at hp
  rw [hpool] at hp
  obtain ⟨g, hg, rfl⟩ := mem_map.mp hp
  obtain ⟨parts, heq, -, -, hlen⟩ := fixedGroups_spec pool.fixedSize_pos le_rfl _
  rw [heq] at hg
  obtain ⟨x, hx, rfl⟩ := mem_map.mp hg
  exact ⟨hlen x hx, rfl⟩

/-- With a verification pool, the groups hold every request that is ready once, with the others
behind them to fill up, all in the order of the batch and never more than the batch lists. Dummies
fill each group up to its size, and the loop ends when the ready requests are used up. -/
theorem fixed_groups_partition (w : LLM42Worker) (hpool : w.fixedPool = some pool)
    (heap : ReqId → Req) (batch : ScheduleBatch) :
    let ids := batch.map (·.req)
    let ready := (ids.filter fun id => isCandidate (heap id)).filter fun id => w.isReady (heap id)
    let others := (ids.filter fun id => isCandidate (heap id)).filter fun id => !w.isReady (heap id)
    let passes := w.plannedPasses heap batch
    (∃ parts : List (List ReqId × List ReqId), passes.map (·.1) = parts.map (fun x => x.1 ++ x.2) ∧
      parts.flatMap (·.1) = ready ∧ parts.flatMap (·.2) <+: others) ∧
    (∀ id, isCandidate (heap id) → w.isReady (heap id) →
      (passes.flatMap (·.1)).count id = ids.count id) ∧
    (∀ id, (passes.flatMap (·.1)).count id ≤ ids.count id) ∧
    (∀ id ∈ passes.flatMap (·.1), id ∈ ids ∧ isCandidate (heap id)) ∧
    (∀ p ∈ passes, p.1.length + p.2.2 = pool.fixedSize) ∧
    ∀ fuel ≥ ready.length, fixedGroups pool.fixedSize fuel ready others = passes.map (·.1) := by
  intro ids ready others passes
  have hgroups : passes.map (·.1) = fixedGroups pool.fixedSize ready.length ready others := by
    simp only [passes, plannedPasses, hpool, map_map]
    exact map_id' _
  obtain ⟨parts, heq, hready, hothers, -⟩ := fixedGroups_spec pool.fixedSize_pos le_rfl others
  have hle := fun id => (w.count_plannedIds_le heap batch id).trans (filter_sublist.count_le id)
  refine ⟨⟨parts, hgroups.trans heq, hready, hothers⟩, fun id hc hr => ?_, hle,
    fun id hid => candidate_of_mem_plannedIds hid, fun p hp => ?_, fun fuel hfuel => ?_⟩
  · obtain ⟨filled, hperm, -⟩ := w.plannedIds_perm heap batch
    refine Nat.le_antisymm (hle id) ?_
    have hcount := hperm.count_eq id
    rw [count_append, count_filter (p := fun id => w.isReady (heap id)) hr,
      count_filter (p := fun id => isCandidate (heap id)) hc] at hcount
    exact (Nat.le_add_right _ _).trans hcount.ge
  · obtain ⟨hlen, hp⟩ := plannedPasses_form hpool hp
    rw [hp]
    exact Nat.add_sub_cancel' hlen
  · rw [hgroups]
    exact fixedGroups_fuel pool.fixedSize_pos hfuel le_rfl others

def pairWorker : LLM42Worker :=
  (LLM42Worker.init true 2 100 .whole 2 (.create 4) (.create 40 false) Nat.two_pos Nat.two_pos).1

def finishedReq (n : ℕ) : Req :=
  { rid := "a", originInputIds := [1], outputIds := [5, 6], llm42VerifiedTokens := n
    finishedReason := some (.length 2), vocabSize := 1000
    samplingParams := { isDeterministic := true }, kv := { reqPoolIdx := some 2 } }

theorem fixed_groups_partition_finished : ((pairWorker.plannedPasses (fun _ => finishedReq 1)
    [⟨0, 0, 0, 2, 2⟩, ⟨1, 0, 0, 2, 2⟩, ⟨2, 0, 0, 2, 2⟩]).flatMap (·.1)).count 2 = 1 := by
  obtain ⟨pool, hpool⟩ : ∃ pool, pairWorker.fixedPool = some pool :=
    Option.isSome_iff_exists.mp (by decide +kernel)
  exact (fixed_groups_partition pairWorker hpool _ _).2.1 2 (by decide) (by decide)

/-- A finished request without unverified tokens is in no group. -/
theorem finished_verified_left_out :
    (finishedReq 2).isDeterministic ∧ (finishedReq 2).kv.reqPoolIdx.isSome ∧
      (finishedReq 2).kv.isRetracted = false ∧ (finishedReq 2).finished ∧
      pairWorker.plannedPasses (fun _ => finishedReq 2) [⟨0, 0, 0, 2, 2⟩] = [] := by
  decide +kernel

end LLM42.LLM42Worker
