import LLM42.Verification.Shape

/-! # Passes of one fixed shape

With a verification pool and no request ahead of its window, every pass replays `fixed_size` windows
of `window_size` tokens, and none of the checks on the way can fail. -/

namespace LLM42

open List

/-- `n` windows of `w` tokens, with one cache location for each. -/
structure VerifyBatch.FixedShape (n w : ℕ) (b : VerifyBatch) : Prop where
  inputIds : b.inputIds.length = n * w
  outCacheLoc : b.outCacheLoc.length = n * w
  extendLens : b.extendLens = List.replicate n w

namespace LLM42Worker

open LLM42Info

variable {K : Type}

/-- The batch that `_run_verification` builds: `from_requests`, `append_dummy_entries`, padding,
`prepare_verify_batch`. -/
def buildVerifyBatch (w : LLM42Worker) (rows : ReqToTokenPool)
    (pass : List ReqId × Bool × ℕ) (heap : ReqId → Req) (a : TokenToKVPoolAllocator) :
    Except VerifyError VerifyBatch := do
  let (info, _) ← w.assignPadding (w.buildInfo (pass.1.map heap) pass.2.1 pass.2.2) a
  let dummies ← w.dummyRows pass.2.2
  info.prepareVerifyBatch rows heap pass.1 dummies

/-- Every batch that is built while the passes of one step run. -/
def passBatches (w : LLM42Worker) (forward : VerifyBatch → K → VerifyOutput × K)
    (rows : ReqToTokenPool) : List (List ReqId × Bool × ℕ) → VerifyState K →
    List (Except VerifyError VerifyBatch)
  | [], _ => []
  | pass :: rest, s =>
    w.buildVerifyBatch rows pass s.heap s.allocator ::
      match w.runVerification forward rows pass.1 pass.2.1 pass.2.2 s with
      | .ok (s, _) => passBatches w forward rows rest s
      | .error _ => []

variable {w : LLM42Worker} {forward : VerifyBatch → K → VerifyOutput × K} {rows : ReqToTokenPool}
  {s : VerifyState K} {pool : FixedSizeVerificationPool}

theorem runVerification_isOk (forward : VerifyBatch → K → VerifyOutput × K)
    {pass : List ReqId × Bool × ℕ} {b : VerifyBatch}
    (h : w.buildVerifyBatch rows pass s.heap s.allocator = .ok b) :
    ∃ x, w.runVerification forward rows pass.1 pass.2.1 pass.2.2 s = .ok x := by
  obtain ⟨⟨info, a⟩, hinfo, h⟩ := Library.bind_eq_ok h
  obtain ⟨dummies, hdummies, hbatch⟩ := Library.bind_eq_ok h
  unfold runVerification
  simp only [hinfo, hdummies, hbatch, bind, Except.bind]
  exact ⟨_, rfl⟩

section OnePass

variable {pool : FixedSizeVerificationPool} {heap : ReqId → Req} {group : List ReqId}

theorem paddedLen_eq (halign : w.alwaysAlign = true) {r : Req} (hr : r.unverified.length ≤ w.windowSize) :
    paddedLen w.alwaysAlign true w.windowSize r = w.windowSize := by
  have hwindow : window true w.windowSize r = r.unverified := by
    unfold window
    rw [if_neg (by simpa using hr)]
  unfold paddedLen shouldPad
  rw [hwindow, halign]
  by_cases hlt : r.unverified.length < w.windowSize
  · simp [hlt]
  · simp [hlt]
    omega

theorem sum_map_eq {α : Type*} {xs : List α} {f : α → ℕ} {c : ℕ} (h : ∀ x ∈ xs, f x = c) :
    (xs.map f).sum = xs.length * c := by
  rw [map_congr_left h, map_const', sum_replicate_nat]

section

variable (hpool : w.fixedPool = some pool)

include hpool

theorem assignPadding_isOk {info : LLM42Info} {k : ℕ} (hk : k ≤ pool.fixedSize)
    (htotal : info.totalPaddingCacheSlots = k * (w.windowSize - 1)) (a : TokenToKVPoolAllocator) :
    ∃ x, w.assignPadding info a = .ok x := by
  unfold assignPadding
  by_cases hzero : info.totalPaddingCacheSlots = 0
  · rw [if_pos hzero]
    exact ⟨_, rfl⟩
  · rw [if_neg hzero, hpool]
    have hwindow := w.fixedPool_windowSize pool hpool
    have hle : info.totalPaddingCacheSlots ≤ pool.fixedSize * (pool.windowSize - 1) := by
      rw [htotal, hwindow]
      exact Nat.mul_le_mul_right _ hk
    dsimp only
    cases hpad : pool.paddingCachePool with
    | none =>
      have := pool.paddingCachePool_none hpad
      omega
    | some l =>
      have hlen := pool.length_paddingCachePool l hpad
      rw [FixedSizeVerificationPool.getPaddingCacheLocs, hpad]
      dsimp only
      rw [if_neg (by omega)]
      exact ⟨_, rfl⟩

/-- The pool gives every row after a context row its padding slot. -/
theorem assignPadding_enough {force : Bool} {info info' : LLM42Info} {reqs : List Req}
    {n dummyLen : ℕ} {a b : TokenToKVPoolAllocator}
    (hd : Describes w.alwaysAlign force w.windowSize reqs n dummyLen info)
    (hnone : info.paddingCacheLocs = none) (hreqs : ∀ r ∈ reqs, r.unverified ≠ [])
    (h : w.assignPadding info a = .ok (info', b)) :
    EnoughPadding info'.paddingCacheLocs 0 (info'.rows reqs) := by
  have hrows := (w.describes_assignPadding force hd h).rows_eq
  have hslots := hd.slots
  rcases w.assignPadding_ok h with ⟨hzero, rfl, -⟩ | ⟨-, -, pool', locs, hpool', hlocs, rfl⟩ |
    ⟨-, hp, -⟩
  · rw [hnone, hrows]
    intro x hx
    obtain ⟨r, hr, rfl⟩ := mem_map.mp hx
    have hpos := paddedLen_pos w.alwaysAlign force w.windowSize_pos (hreqs r hr)
    rw [hzero] at hslots
    have hone := sum_eq_zero_iff.mp hslots.symm _ (mem_map_of_mem hr)
    dsimp only
    omega
  · obtain rfl : pool = pool' := Option.some.inj (hpool.symm.trans hpool')
    unfold FixedSizeVerificationPool.getPaddingCacheLocs at hlocs
    split at hlocs
    · cases hlocs
    split at hlocs
    · cases hlocs
    next hle =>
    cases hlocs
    rw [hrows]
    simp only [EnoughPadding, setPaddingCacheLocs, map_map, Function.comp_def, length_take,
      ← hslots]
    omega
  · rw [hpool] at hp
    cases hp

theorem dummyRows_isOk {n : ℕ} (hn : n ≤ pool.fixedSize) :
    (n = 0 ∧ w.dummyRows n = .ok none) ∨ ∃ data : DummyData,
      w.dummyRows n = .ok (some (data, n, pool.windowSize)) ∧
        data.inputIds.length = n * pool.windowSize ∧
        data.cacheLocs.length = n * pool.windowSize := by
  unfold dummyRows
  by_cases hzero : n = 0
  · exact .inl ⟨hzero, by rw [if_pos hzero]⟩
  · right
    rw [if_neg hzero, hpool]
    have hmul : n * pool.windowSize ≤ pool.fixedSize * pool.windowSize := Nat.mul_le_mul_right _ hn
    dsimp only
    rw [FixedSizeVerificationPool.getDummyData, if_neg (by omega)]
    refine ⟨_, rfl, ?_, ?_⟩
    · simp [pool.length_dummyInputIds, hmul]
    · simp [pool.length_dummyCacheLocs, hmul]

end

/-- Padded groups all have the pool's shape. -/
theorem buildVerifyBatch_fixed (rows : ReqToTokenPool) (hpool : w.fixedPool = some pool)
    (halign : w.alwaysAlign = true) (hlen : group.length ≤ pool.fixedSize)
    (hall : ∀ id ∈ group, Verifiable (heap id) ∧ (heap id).unverified.length ≤ w.windowSize)
    (a : TokenToKVPoolAllocator) :
    ∃ b, w.buildVerifyBatch rows (group, true, pool.fixedSize - group.length) heap a = .ok b ∧
      b.FixedShape pool.fixedSize w.windowSize := by
  have hwin := w.fixedPool_windowSize pool hpool
  have hw := w.windowSize_pos
  have hver : ∀ r ∈ group.map heap, Verifiable r := by
    intro r hr
    obtain ⟨id, hid, rfl⟩ := mem_map.mp hr
    exact (hall id hid).1
  have hpad : ∀ r ∈ group.map heap, paddedLen w.alwaysAlign true w.windowSize r = w.windowSize := by
    intro r hr
    obtain ⟨id, hid, rfl⟩ := mem_map.mp hr
    exact paddedLen_eq halign (hall id hid).2
  have hwins : ∀ r ∈ group.map heap, r.unverified.length ≤ w.windowSize := by
    intro r hr
    obtain ⟨id, hid, rfl⟩ := mem_map.mp hr
    exact (hall id hid).2
  obtain ⟨dummyLen, hd⟩ := w.describes_buildInfo true (fun r hr => (hver r hr).unverified)
    (by simp [hpool] : w.fixedPool = none → pool.fixedSize - group.length = 0)
  have htotal := hd.slots
  rw [sum_map_eq fun r hr => by rw [hpad r hr], length_map] at htotal
  obtain ⟨⟨info, _⟩, hassign⟩ := assignPadding_isOk hpool hlen htotal a
  have hd' := w.describes_assignPadding true hd hassign
  have hrows : ∀ x ∈ info.rows (group.map heap), x.2.1 = w.windowSize ∧ Verifiable x.1 := by
    rw [hd'.rows_eq]
    intro x hx
    obtain ⟨r, hr, rfl⟩ := mem_map.mp hx
    exact ⟨hpad r hr, hver r hr⟩
  have hcount : (info.rows (group.map heap)).length = group.length := by
    rw [hd'.rows_eq, length_map, length_map]
  obtain ⟨pads, hpads, hlocs, hsum⟩ := cacheLocs_eq rows
    (fun x hx => ⟨(hrows x hx).1 ▸ hw, (hrows x hx).2⟩)
    (assignPadding_enough hpool hd (by simp only [buildInfo, hpool]; split <;> rfl)
      (fun r hr => (hver r hr).unverified) hassign)
  set locs := ((info.rows (group.map heap)).zip pads).flatMap
    fun x => ownSlots rows x.1.1 x.1.2.1 ++ x.2
  have hlocsLen : locs.length = group.length * w.windowSize := by
    rw [length_flatMap, sum_map_eq fun x hx => (hsum x hx).trans (hrows _ (of_mem_zip hx).1).1,
      length_zip, hpads, Nat.min_self, hcount]
  have hinputs := hd'.length_inputs hw hver
  rw [sum_map_eq fun r hr => by rw [hpad r hr, max_eq_left (hwins r hr)], length_map] at hinputs
  have hreal : group.map (fun id => paddedLen w.alwaysAlign true w.windowSize (heap id)) =
      List.replicate group.length w.windowSize := by
    refine eq_replicate_iff.mpr ⟨by simp, fun n hn => ?_⟩
    obtain ⟨id, hid, rfl⟩ := mem_map.mp hn
    exact hpad _ (mem_map_of_mem hid)
  have hsplit : group.length * w.windowSize + (pool.fixedSize - group.length) * w.windowSize =
      pool.fixedSize * w.windowSize := by
    rw [← Nat.add_mul, Nat.add_sub_cancel' hlen]
  obtain ⟨dummies, hdummies, hshape⟩ : ∃ dummies,
      w.dummyRows (pool.fixedSize - group.length) = .ok dummies ∧
        (info.assemble heap group dummies locs).FixedShape pool.fixedSize w.windowSize := by
    rcases dummyRows_isOk hpool (Nat.sub_le pool.fixedSize group.length) with
      ⟨hnone, hok⟩ | ⟨data, hok, hin, hloc⟩
    · refine ⟨none, hok, ?_, ?_, ?_⟩
      · simp only [assemble, Option.elim_none, append_nil, hinputs]
        rw [← hsplit, hnone, Nat.zero_mul, Nat.add_zero]
      · simp only [assemble, Option.elim_none, append_nil, hlocsLen]
        rw [← hsplit, hnone, Nat.zero_mul, Nat.add_zero]
      · rw [(hd'.lens_assemble hw (fun id hid => (hall id hid).1) none locs).2, hreal]
        simp only [Option.elim_none, replicate_zero, append_nil]
        congr 1
        omega
    · rw [hwin] at hok hin hloc
      refine ⟨some _, hok, ?_, ?_, ?_⟩
      · simp only [assemble, Option.elim_some, length_append, hinputs, length_take, hin]
        omega
      · simp only [assemble, Option.elim_some, length_append, hlocsLen, length_take, hloc]
        omega
      · rw [(hd'.lens_assemble hw (fun id hid => (hall id hid).1) _ locs).2, hreal]
        simp only [Option.elim_some, replicate_append_replicate]
        congr 1
        omega
  refine ⟨_, ?_, hshape⟩
  have hpaddedLens : ¬ info.paddedLens.length < group.length := by
    rw [hd'.padded]
    simp
  unfold buildVerifyBatch
  simp only [hassign, hdummies, bind, Except.bind]
  unfold prepareVerifyBatch
  rw [if_neg hpaddedLens, hlocs]
  dsimp only [bind, Except.bind]
  rw [if_neg (by rw [hshape.outCacheLoc, hshape.inputIds]; simp)]

end OnePass

/-- All passes, one after the other: their groups are disjoint, so each finds its requests as they
were before the first. -/
theorem passBatches_fixed (hpool : w.fixedPool = some pool) (halign : w.alwaysAlign = true)
    {passes : List (List ReqId × Bool × ℕ)}
    (hform : ∀ p ∈ passes, p.1.length ≤ pool.fixedSize ∧ p.2 = (true, pool.fixedSize - p.1.length))
    (hnd : (passes.flatMap (·.1)).Nodup) (hall : ∀ id ∈ passes.flatMap (·.1),
      Verifiable (s.heap id) ∧ (s.heap id).unverified.length ≤ w.windowSize) :
    (∀ x ∈ w.passBatches forward rows passes s, ∃ b, x = .ok b ∧
        b.FixedShape pool.fixedSize w.windowSize) ∧
      ∃ y, w.runPasses forward rows passes s = .ok y := by
  induction passes generalizing s with
  | nil => exact ⟨by simp [passBatches], _, rfl⟩
  | cons pass rest ih =>
    obtain ⟨group, force, numDummies⟩ := pass
    obtain ⟨hlen, heq⟩ := hform _ mem_cons_self
    dsimp only at hlen heq
    obtain ⟨rfl, rfl⟩ := Prod.mk.inj heq
    obtain ⟨_, hnd', hdisj⟩ := nodup_append.mp hnd
    have hgroup : ∀ id ∈ group,
        Verifiable (s.heap id) ∧ (s.heap id).unverified.length ≤ w.windowSize := fun id hid =>
      hall id (mem_append_left _ hid)
    obtain ⟨b, hb, hshape⟩ := buildVerifyBatch_fixed rows hpool halign hlen hgroup s.allocator
    obtain ⟨⟨s', results⟩, hrun⟩ := runVerification_isOk forward hb
    obtain ⟨p⟩ := runVerification_ok w (fun id hid => (hgroup id hid).1.unverified) hrun
    have hrest : ∀ id ∈ rest.flatMap (·.1),
        Verifiable (s'.heap id) ∧ (s'.heap id).unverified.length ≤ w.windowSize := by
      intro id hid
      rw [p.heap_of_not_mem fun hg => hdisj id hg id hid rfl]
      exact hall id (mem_append_right _ hid)
    obtain ⟨hbatches, ⟨s'', results'⟩, hpasses⟩ :=
      ih (fun q hq => hform q (mem_cons_of_mem _ hq)) hnd' hrest
    refine ⟨fun x hx => ?_, (s'', results ++ results'), ?_⟩
    · simp only [passBatches, hrun] at hx
      rcases mem_cons.mp hx with rfl | hx
      · exact ⟨b, hb, hshape⟩
      · exact hbatches x hx
    · simp only [runPasses, hrun, hpasses, bind, Except.bind]

end LLM42Worker

end LLM42
