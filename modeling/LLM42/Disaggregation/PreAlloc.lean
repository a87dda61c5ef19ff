import LLM42.Memory.KVAllocator
import Mathlib.Tactic.Linarith

/-! # Pre-allocation on the decode server

A decode server takes a row and KV slots for a request before its cache is transferred, and again
when a retracted request comes back. A pass admits requests against one estimate in tokens, while
the allocator hands out whole pages; the tokens reserved for each request have to make up for it. -/

namespace LLM42.Disaggregation

open Library List

structure PreallocReq where
  rid : ℕ := 0
  originInputLen : ℕ
  outputLen : ℕ := 0
  maxNewTokens : ℕ := 0
  waitingForInput : Bool := true
  aborted : Bool := false

def PreallocReq.fillLen (r : PreallocReq) : ℕ := r.originInputLen + (r.outputLen - 1)

/-- Free rows, the KV allocator and the number of free metadata indices. -/
structure PreallocPools where
  freeSlots : List ℕ
  allocator : KVAllocator
  metadataSize : ℕ

/-- "There is a bug in memory estimation." -/
inductive EstimationError
  | reqPoolIndicesFull | kvCacheFull
  deriving DecidableEq

def PreallocPools.preAlloc (p : PreallocPools) (r : PreallocReq) :
    Except EstimationError PreallocPools :=
  match p.freeSlots with
  | [] => .error .reqPoolIndicesFull
  | _ :: freeSlots =>
    match p.allocator.allocExtend [⟨0, r.fillLen, none⟩] r.fillLen with
    | (_, none) => .error .kvCacheFull
    | (allocator, some _) => .ok { p with freeSlots, allocator }

/-- A loop over a queue: whom it skips, whether it takes metadata indices, what an admission costs
and what has to be allocatable for it. -/
structure PreallocPass where
  skips : PreallocReq → Bool
  takesMetadata : Bool
  requiredTokens : PreallocReq → ℤ
  peakTokens : PreallocReq → ℤ

def PreallocPass.run (pass : PreallocPass) :
    List PreallocReq → ℤ → PreallocPools → Except EstimationError PreallocPools
  | [], _, p => .ok p
  | r :: queue, allocatableTokens, p =>
    if pass.skips r then pass.run queue allocatableTokens p
    else if p.freeSlots.length = 0 ∨ pass.takesMetadata ∧ p.metadataSize = 0 then .ok p
    else if allocatableTokens < max (pass.requiredTokens r) (pass.peakTokens r) then .ok p
    else match p.preAlloc r with
      | .error e => .error e
      | .ok q => pass.run queue (allocatableTokens - pass.requiredTokens r)
          { q with metadataSize := p.metadataSize - pass.takesMetadata.toNat }

/-- The pre-allocation queue with what it reads of the scheduler, outside a free group. Requests with
outputs wait in the queue of the retracted ones, or in this one when `pause_generation` has put the
running batch back. -/
structure PreallocQueue where
  pools : PreallocPools
  wf : pools.allocator.Wf
  group : pools.allocator.isNotInFreeGroup
  numReservedDecodeTokens : ℕ
  clipMaxNewToken : ℕ := 4096
  queue : List PreallocReq := []
  retractedQueue : List PreallocReq := []
  runningReqs : List PreallocReq := []
  transferQueueLen : ℕ := 0
  waitingQueueLen : ℕ := 0
  /-- the requests of a last batch that was prebuilt -/
  lastPrebuiltLen : ℕ := 0

namespace PreallocQueue

variable (s : PreallocQueue)

/-- The tokens of a request that runs to its end, as far as they are estimated. -/
def finalLen (r : PreallocReq) : ℤ := r.originInputLen + min r.maxNewTokens s.clipMaxNewToken

def resumeTokens (r : PreallocReq) : ℕ :=
  r.originInputLen + r.outputLen + s.numReservedDecodeTokens

def allocatableTokens (retractableTokens : Option ℤ) (countRetracted : Bool) : ℤ :=
  let needSpaceForSingleReq := retractableTokens.elim 0 fun n =>
    (s.runningReqs.map fun r => s.finalLen r - n).max?.getD 0
  s.pools.allocator.availableSize -
    max ((s.numReservedDecodeTokens *
      (s.runningReqs.length + s.transferQueueLen + s.waitingQueueLen) : ℕ) : ℤ)
      needSpaceForSingleReq -
    (s.numReservedDecodeTokens * s.lastPrebuiltLen : ℕ) -
    (if countRetracted then (s.retractedQueue.map s.resumeTokens).sum else 0 : ℕ)

def unchecked (ridsToCheck : Option (List ℕ)) (r : PreallocReq) : Bool :=
  !ridsToCheck.all (·.contains r.rid)

def resumePass (ridsToCheck : Option (List ℕ)) : PreallocPass where
  skips := unchecked ridsToCheck
  takesMetadata := false
  requiredTokens r := s.resumeTokens r
  peakTokens r := s.resumeTokens r

def resumeRetractedReqs (ridsToCheck : Option (List ℕ)) : Except EstimationError PreallocPools :=
  (s.resumePass ridsToCheck).run s.retractedQueue (s.allocatableTokens none false) s.pools

def retractableTokens : ℕ := (s.runningReqs.map fun r => r.originInputLen + r.outputLen).sum

def popPass (ridsToCheck : Option (List ℕ)) : PreallocPass where
  skips r := unchecked ridsToCheck r || r.aborted || !r.waitingForInput
  takesMetadata := true
  requiredTokens r := (r.originInputLen + s.numReservedDecodeTokens : ℕ)
  peakTokens r := s.finalLen r - s.retractableTokens

def popPreallocated (ridsToCheck : Option (List ℕ)) : Except EstimationError PreallocPools :=
  (s.popPass ridsToCheck).run s.queue (s.allocatableTokens (some s.retractableTokens) true) s.pools

end PreallocQueue

namespace PreallocPools

variable {p : PreallocPools} {pageSize pages : ℕ}

/-- An allocator of `pageSize` with `pages` free pages, outside a free group. -/
structure Ready (pageSize pages : ℕ) (p : PreallocPools) : Prop where
  wf : p.allocator.Wf
  group : p.allocator.isNotInFreeGroup
  pageSize_eq : p.allocator.pageSize = pageSize
  held : p.allocator.held.length = pages

theorem Ready.availableSize (h : p.Ready pageSize pages) :
    p.allocator.availableSize = pages * pageSize := by
  rw [KVAllocator.availableSize_eq h.group, h.held, h.pageSize_eq]

/-- A pre-allocation takes a row and as many pages as the tokens fill, and fails for want of pages
only. -/
theorem Ready.preAlloc (h : p.Ready pageSize pages) (hrows : p.freeSlots.length ≠ 0)
    (r : PreallocReq) :
    if pageCount pageSize r.fillLen ≤ pages then
      ∃ q, p.preAlloc r = .ok q ∧ q.Ready pageSize (pages - pageCount pageSize r.fillLen) ∧
        q.freeSlots.length + 1 = p.freeSlots.length
    else p.preAlloc r = .error .kvCacheFull := by
  have hps : 0 < pageSize := h.pageSize_eq ▸ h.wf.pageSize_pos
  have hnew : KVAllocator.newPages p.allocator.pageSize [⟨0, r.fillLen, none⟩] =
      pageCount pageSize r.fillLen := by
    simp [KVAllocator.newPages, ExtendEntry.numNewPages, h.pageSize_eq, pageCount_zero hps]
  obtain ⟨row, rows, hslots⟩ := exists_cons_of_length_pos (Nat.pos_of_ne_zero hrows)
  have hgrants : ∀ {b out}, p.allocator.allocExtend [⟨0, r.fillLen, none⟩] r.fillLen = (b, some out) →
      pageCount pageSize r.fillLen + b.held.length = pages ∧ b.Wf ∧ b.isNotInFreeGroup ∧
        b.pageSize = pageSize := by
    intro b out hb
    obtain ⟨pages', hg⟩ := KVAllocator.allocExtend_some (by simp) (by simp) hb
    have hlen := hg.held.length_eq
    rw [length_append, length_take, Nat.min_eq_left hg.enough, hnew, h.held] at hlen
    exact ⟨hlen, hg.wf h.wf, hg.group ▸ h.group, hg.pageSize.trans h.pageSize_eq⟩
  simp only [PreallocPools.preAlloc, hslots]
  split
  next hfit =>
    have hfree : KVAllocator.newPages p.allocator.pageSize [⟨0, r.fillLen, none⟩] *
        p.allocator.pageSize ≤ p.allocator.availableSize := by
      rw [hnew, h.availableSize, h.pageSize_eq]
      exact Nat.mul_le_mul_right _ hfit
    obtain ⟨b, out, hb⟩ := KVAllocator.allocExtend_isSome (n := r.fillLen) h.wf (by simp) (by simp)
      hfree
    obtain ⟨hlen, hwf, hgroup, hsize⟩ := hgrants hb
    refine ⟨_, by rw [hb], ⟨hwf, hgroup, hsize, ?_⟩, rfl⟩
    dsimp only
    omega
  next hfull =>
    split
    · rfl
    next b out hb =>
      have := (hgrants hb).1
      omega

end PreallocPools

namespace PreallocPass

variable {pass : PreallocPass} {pageSize pages : ℕ} {p : PreallocPools}

/-- Nothing fails while every admission pays for the pages that it takes. -/
theorem run_ok {queue : List PreallocReq} {budget : ℤ} (h : p.Ready pageSize pages)
    (hbudget : budget ≤ (pages * pageSize : ℕ))
    (hcost : ∀ r ∈ queue, (pageCount pageSize r.fillLen * pageSize : ℕ) ≤ pass.requiredTokens r) :
    ∃ q, pass.run queue budget p = .ok q := by
  induction queue generalizing budget pages p with
  | nil => exact ⟨p, rfl⟩
  | cons r queue ih =>
    rw [forall_mem_cons] at hcost
    obtain ⟨hcost, hrest⟩ := hcost
    rw [run]
    split_ifs with hskip hstop hmax
    · exact ih h hbudget hrest
    · exact ⟨p, rfl⟩
    · exact ⟨p, rfl⟩
    · have hle := (le_max_left _ _).trans (not_lt.mp hmax)
      have hfit : pageCount pageSize r.fillLen ≤ pages := by
        have hmul : pageCount pageSize r.fillLen * pageSize ≤ pages * pageSize := by omega
        exact Nat.le_of_mul_le_mul_right hmul (h.pageSize_eq ▸ h.wf.pageSize_pos)
      have halloc := h.preAlloc (by tauto) r
      rw [if_pos hfit] at halloc
      obtain ⟨q, hq, hready, -⟩ := halloc
      rw [hq]
      refine ih ⟨hready.wf, hready.group, hready.pageSize_eq, hready.held⟩ ?_ hrest
      have := Nat.mul_le_mul_right pageSize hfit
      rw [Nat.sub_mul]
      omega

/-- Requests that pay less than the pages they take use these up before the estimate. -/
theorem run_error {r : PreallocReq} {count : ℕ} {budget : ℤ} (hskip : pass.skips r = false)
    (hpeak : pass.peakTokens r ≤ pass.requiredTokens r) (hpos : 0 ≤ pass.requiredTokens r)
    (h : p.Ready pageSize pages) (hpages : pages < count * pageCount pageSize r.fillLen)
    (hrows : count ≤ p.freeSlots.length) (hmetadata : count ≤ p.metadataSize)
    (hbudget : count * pass.requiredTokens r ≤ budget) :
    pass.run (replicate count r) budget p = .error .kvCacheFull := by
  induction count generalizing budget pages p with
  | zero =>
    rw [Nat.zero_mul] at hpages
    exact absurd hpages (Nat.not_lt_zero _)
  | succ count ih =>
    have hmul := mul_nonneg (Int.natCast_nonneg count) hpos
    push_cast at hbudget
    rw [replicate_succ, run, if_neg (by simp [hskip]), if_neg (by omega),
      if_neg (by rw [max_eq_left hpeak]; linarith)]
    have halloc := h.preAlloc (by omega) r
    split_ifs at halloc with hfit
    · obtain ⟨q, hq, hready, hslots⟩ := halloc
      have htaken := Bool.toNat_le pass.takesMetadata
      rw [hq]
      refine ih { hready with } ?_ ?_ ?_ (by linarith)
      · rw [Nat.succ_mul] at hpages
        omega
      · dsimp only
        omega
      · dsimp only
        omega
    · rw [halloc]

end PreallocPass

namespace PreallocQueue

variable (s : PreallocQueue)

theorem ready : s.pools.Ready s.pools.allocator.pageSize s.pools.allocator.held.length :=
  ⟨s.wf, s.group, rfl, rfl⟩

/-- The estimate only takes from what is available. -/
theorem allocatableTokens_le (n : Option ℤ) (countRetracted : Bool) :
    s.allocatableTokens n countRetracted ≤ s.pools.allocator.availableSize := by
  unfold allocatableTokens
  have hmax := (Int.natCast_nonneg _).trans (le_max_left ((s.numReservedDecodeTokens *
    (s.runningReqs.length + s.transferQueueLen + s.waitingQueueLen) : ℕ) : ℤ)
    (n.elim 0 fun n => (s.runningReqs.map fun r => s.finalLen r - n).max?.getD 0))
  dsimp only
  omega

theorem run_pass_ok {pass : PreallocPass} {queue : List PreallocReq} {n : Option ℤ}
    {countRetracted : Bool}
    (hcost : ∀ r ∈ queue, (r.fillLen + s.pools.allocator.pageSize : ℕ) ≤ pass.requiredTokens r + 1) :
    ∃ q, pass.run queue (s.allocatableTokens n countRetracted) s.pools = .ok q := by
  refine PreallocPass.run_ok s.ready ?_ fun r hr => ?_
  · rw [← s.ready.availableSize]
    exact s.allocatableTokens_le n countRetracted
  · have hround := pageCount_mul_lt s.wf.pageSize_pos r.fillLen
    have := hcost r hr
    omega

/-- A server with free pages and as many rows and metadata indices as there are requests, all alike. -/
def crowded (pageSize pages reserved count : ℕ) (r : PreallocReq) (hps : 0 < pageSize) :
    PreallocQueue where
  pools := ⟨range count, .create (pages * pageSize) pageSize false, count⟩
  wf := KVAllocator.wf_create hps
  group := KVAllocator.isNotInFreeGroup_create
  numReservedDecodeTokens := reserved
  queue := replicate count r

theorem crowded_error {pageSize pages reserved count : ℕ} {r : PreallocReq} (hps : 0 < pageSize)
    (hwaits : r.aborted = false ∧ r.waitingForInput = true) (hnew : r.maxNewTokens ≤ reserved)
    (hpages : pages < count * pageCount pageSize r.fillLen)
    (hbudget : count * (r.originInputLen + reserved) ≤ pages * pageSize) :
    (crowded pageSize pages reserved count r hps).popPreallocated none = .error .kvCacheFull := by
  have hready : (crowded pageSize pages reserved count r hps).pools.Ready pageSize pages := by
    refine ⟨KVAllocator.wf_create hps, KVAllocator.isNotInFreeGroup_create,
      KVAllocator.pageSize_create, ?_⟩
    simp [crowded, KVAllocator.held_create, Nat.mul_div_cancel _ hps]
  have havailable : (crowded pageSize pages reserved count r hps).allocatableTokens
      (some (crowded pageSize pages reserved count r hps).retractableTokens) true =
      (pages * pageSize : ℕ) := by
    rw [allocatableTokens, hready.availableSize]
    simp [crowded]
  refine PreallocPass.run_error ?_ ?_ ?_ hready hpages (by simp [crowded]) (by simp [crowded]) ?_
  · simp [popPass, unchecked, hwaits]
  · simp only [popPass, crowded, finalLen, retractableTokens]
    simp
    omega
  · simp only [popPass]
    omega
  · rw [havailable]
    simp only [popPass, crowded]
    exact_mod_cast hbudget

/-- Both passes succeed in every state of the pools and queues, as long as no request that waits for
its first admission has more than `maxOutput` outputs. -/
def AlwaysSucceeds (pageSize reserved maxOutput : ℕ) : Prop :=
  ∀ s : PreallocQueue, s.pools.allocator.pageSize = pageSize →
    s.numReservedDecodeTokens = reserved → (∀ r ∈ s.queue, r.outputLen ≤ maxOutput) →
    ∀ ridsToCheck, (∃ q, s.resumeRetractedReqs ridsToCheck = .ok q) ∧
      ∃ q, s.popPreallocated ridsToCheck = .ok q

/-- Requests that each begin a page with their last token, after the outputs they have come back
with, run into a full cache. -/
theorem le_of_alwaysSucceeds {pageSize reserved maxOutput : ℕ} (hps : 0 < pageSize)
    (h : AlwaysSucceeds pageSize reserved maxOutput) :
    pageSize + (maxOutput - 1) ≤ reserved + 1 := by
  by_contra hlt
  obtain ⟨n, rfl⟩ : ∃ n, pageSize = n + 1 := ⟨pageSize - 1, by omega⟩
  obtain ⟨k, hk⟩ : ∃ k, k = maxOutput - 1 := ⟨_, rfl⟩
  let r : PreallocReq := { originInputLen := k * n + 1, outputLen := maxOutput }
  have hfill : r.fillLen = k * (n + 1) + 1 := by
    simp only [r, PreallocReq.fillLen, ← hk]
    ring
  have hcount : pageCount (n + 1) r.fillLen = k + 1 := by
    rw [hfill, pageCount_add_one hps, Nat.mul_div_cancel _ hps]
  have hpages : (n + 1) * (k + 1) = k * n + n + k + 1 := by ring
  have herror : (crowded (n + 1) (k * n + n + k) reserved (n + 1) r hps).popPreallocated none =
      .error .kvCacheFull := by
    refine crowded_error hps ⟨rfl, rfl⟩ (Nat.zero_le _) ?_ ?_
    · rw [hcount, hpages]
      exact Nat.lt_succ_self _
    · rw [Nat.mul_comm]
      refine Nat.mul_le_mul_right _ ?_
      simp only [r]
      omega
  obtain ⟨-, q, hq⟩ := h (crowded (n + 1) (k * n + n + k) reserved (n + 1) r hps)
    KVAllocator.pageSize_create rfl (fun r' hr' => by rw [eq_of_mem_replicate hr']) none
  rw [herror] at hq
  cases hq

/-- No pre-allocation fails, whatever the queues hold, just if the tokens reserved for a request make
up for the page that it fills last and for the outputs that it may come back with. -/
theorem preAlloc_succeeds_iff {pageSize reserved maxOutput : ℕ} (hps : 0 < pageSize) :
    AlwaysSucceeds pageSize reserved maxOutput ↔ pageSize + (maxOutput - 1) ≤ reserved + 1 := by
  refine ⟨le_of_alwaysSucceeds hps, ?_⟩
  rintro hle s rfl rfl houtput ridsToCheck
  constructor
  · refine s.run_pass_ok fun r _ => ?_
    simp only [resumePass, resumeTokens, PreallocReq.fillLen]
    omega
  · refine s.run_pass_ok fun r hr => ?_
    have := houtput r hr
    simp only [popPass, PreallocReq.fillLen]
    omega

/-- With pages of 64 tokens and 512 tokens reserved, requests may come back with 450 outputs. -/
theorem preAlloc_succeeds_iff_default : AlwaysSucceeds 64 512 450 ∧ ¬ AlwaysSucceeds 64 512 451 :=
  ⟨(preAlloc_succeeds_iff (by decide)).mpr (by decide),
    mt (preAlloc_succeeds_iff (by decide)).mp (by decide)⟩

/-- One page of four slots and no reserve: two requests of one token fit the estimate, and the
second finds no page. Four slots with one token reserved: two requests that have come back with three
outputs are charged two tokens each and take three. -/
theorem second_request_finds_no_page :
    (crowded 4 1 0 2 { originInputLen := 1 } (by decide)).allocatableTokens (some 0) true = 4 ∧
      (crowded 4 1 0 2 { originInputLen := 1 } (by decide)).popPreallocated none =
        .error .kvCacheFull ∧
      (crowded 1 4 1 2 { originInputLen := 1, outputLen := 3 } (by decide)).popPreallocated none =
        .error .kvCacheFull :=
  ⟨by decide, rfl, rfl⟩

end PreallocQueue

end LLM42.Disaggregation
