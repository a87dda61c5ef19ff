import Mathlib.Data.Rat.Floor
import LLM42.Library.Runs
import LLM42.Verification.Pool

/-! # Verification worker

`LLM42Worker` of `llm42/llm42_worker.py`: choosing groups of requests, running one verification
pass over a group and recording its result. In `LLM42Info.verify_and_compare` the first token on
which decode and verifier disagree is replaced by the verifier's, and everything after it goes. -/

namespace LLM42

/-- Result of the verification forward pass, one token and one log-probability for each row. -/
structure VerifyOutput where
  tokenIds : ℕ → Token
  logprobs : Option (ℕ → Logprob)

/-- A percentage of `skip_mismatch` between 0 and 100 as a pass reads it: how many tokens of a window
to discard. The source takes `math.ceil(mismatch_percentage / 100.0 * window_size)` in doubles;
however they round, that is between one token and the window unless the percentage underflows. -/
structure MismatchPercentage where
  tokensToRollback : ℕ → ℕ
  pos : ∀ {n}, 0 < n → 0 < tokensToRollback n
  le : ∀ n, tokensToRollback n ≤ n

def MismatchPercentage.whole : MismatchPercentage := ⟨id, id, le_refl⟩

namespace LLM42Info

/-- Index of the first divergent token, or the shorter length when all agree. -/
def firstMismatchPosition : List Token → List Token → ℕ
  | o :: os, v :: vs => if o = v then firstMismatchPosition os vs + 1 else 0
  | _, _ => 0

/-- `[xs[j] for j in range(padded_len) if mask[j]]` over a window that starts at `offset`. -/
def selectMasked {α : Type*} (xs : ℕ → α) (offset : ℕ) (mask : List Bool) : List α :=
  (mask.zipIdx.filter (·.1)).map fun x => xs (offset + x.2)

/-- Where the rollback starts and how many tokens it discards, before the verifier's token is
appended. A percentage overrides the natural comparison. -/
def rollbackPoint (mismatchPercentage : Option MismatchPercentage)
    (origOutput verifyOutput : List Token) : ℕ × ℕ :=
  let mismatchPos := firstMismatchPosition origOutput verifyOutput
  match mismatchPercentage with
  | some pct =>
    if 0 < origOutput.length then
      let tokensToRollback := pct.tokensToRollback origOutput.length
      (origOutput.length - tokensToRollback, tokensToRollback)
    else (mismatchPos, origOutput.length - mismatchPos)
  | none => (mismatchPos, origOutput.length - mismatchPos)

/-- The stored log-probabilities after the window's own were replaced by `new`. Nothing happens
when the pass or the request carries none. -/
def replaceLogprobs (actualLen : ℕ) (new : Option (List Logprob)) (newIdx : List Token) (r : Req) :
    Req :=
  match new, r.outputTokenLogprobsVal with
  | some new, some val =>
    { r with
      outputTokenLogprobsVal := some (val.rdrop actualLen ++ new)
      outputTokenLogprobsIdx := r.outputTokenLogprobsIdx.map (·.rdrop actualLen ++ newIdx)
      sendOutputTokenLogprobsOffset := (val.rdrop actualLen ++ new).length }
  | _, _ => r

/-- The loop body of `verify_and_compare` for one request. -/
def compareReq (mismatchPercentage : Option MismatchPercentage) (actualLen : ℕ)
    (origOutput verifyOutput : List Token) (verifyLogprobs : Option (List Logprob)) (r : Req) :
    Req × (ℕ × ℕ) :=
  let (mismatchPos, tokensToRollback) := rollbackPoint mismatchPercentage origOutput verifyOutput
  if 0 < tokensToRollback then
    let kept := r.outputIds.rdrop tokensToRollback
    let appended := (verifyOutput.drop mismatchPos).take 1
    let replaced := mismatchPos + appended.length
    (replaceLogprobs actualLen (verifyLogprobs.map (·.take replaced)) (verifyOutput.take replaced)
        { r with outputIds := kept ++ appended, finishedReason := none },
      (mismatchPos, tokensToRollback - appended.length))
  else (replaceLogprobs actualLen verifyLogprobs verifyOutput r, (mismatchPos, 0))

def compareFrom (mismatchPercentage : Option MismatchPercentage) (originalIds : List Token)
    (out : VerifyOutput) : ℕ → List (Req × ℕ × ℕ × List Bool) → List (Req × (ℕ × ℕ))
  | _, [] => []
  | offset, (r, paddedLen, actualLen, mask) :: rest =>
    compareReq mismatchPercentage actualLen (selectMasked (originalIds.getD · 0) offset mask)
        (selectMasked out.tokenIds offset mask)
        (out.logprobs.map fun lps => selectMasked lps offset mask) r ::
      compareFrom mismatchPercentage originalIds out (offset + paddedLen) rest

/-- `verify_and_compare`: only the real requests, the dummies at the end are ignored. -/
def verifyAndCompare (info : LLM42Info) (mismatchPercentage : Option MismatchPercentage)
    (reqs : List Req) (out : VerifyOutput) : List (Req × (ℕ × ℕ)) :=
  compareFrom mismatchPercentage info.originalOutputs out 0
    ((reqs.take info.numRealRequests).zip
      (info.paddedLens.zip (info.outputLens.zip info.paddingMasks)))

end LLM42Info

/-- One row of the tensors that a running batch keeps beside its requests. -/
structure BatchEntry where
  req : ReqId
  inputId : Token
  outputId : Token
  seqLen : ℕ
  reqPoolIdx : ℕ
deriving DecidableEq

abbrev ScheduleBatch := List BatchEntry

/-- `_update_batch_state`: refresh the rows of rolled-back requests from the request objects. -/
def updateBatchState (batch : ScheduleBatch) (heap : ReqId → Req) (rolledBack : List ReqId) :
    ScheduleBatch :=
  batch.map fun e =>
    if e.req ∈ rolledBack then
      let r := heap e.req
      { e with
        outputId := r.outputIds.getLastD (r.originInputIds.getLastD 0)
        seqLen := r.originInputIds.length + r.outputIds.length - 1 }
    else e

/-- The worker's configuration; `init_fixed_pool` gives the pool the worker's own window. -/
structure LLM42Worker where
  alwaysAlign : Bool
  fixedRequestsPerVerify : ℕ
  skipMismatch : ℚ
  mismatchPercentage : MismatchPercentage
  fixedPool : Option FixedSizeVerificationPool
  windowSize : ℕ
  fixedRequestsPerVerify_pos : 0 < fixedRequestsPerVerify
  windowSize_pos : 0 < windowSize
  fixedPool_windowSize : ∀ p, fixedPool = some p → p.windowSize = windowSize

/-- A worker without fixed pool that rolls back to the first mismatch. -/
def LLM42Worker.plain (windowSize : ℕ) (h : 0 < windowSize) : LLM42Worker where
  alwaysAlign := false
  fixedRequestsPerVerify := 4
  skipMismatch := 100
  mismatchPercentage := .whole
  fixedPool := none
  windowSize := windowSize
  fixedRequestsPerVerify_pos := by decide
  windowSize_pos := h
  fixedPool_windowSize := by simp

/-- `LLM42Worker.__init__` with the scheduler's pools at hand: the fixed pool takes its share. -/
def LLM42Worker.init (alwaysAlign : Bool) (fixedRequestsPerVerify : ℕ) (skipMismatch : ℚ)
    (mismatchPercentage : MismatchPercentage) (windowSize : ℕ) (rows : ReqToTokenPool)
    (a : TokenToKVPoolAllocator) (hfixed : 0 < fixedRequestsPerVerify) (hwindow : 0 < windowSize) :
    LLM42Worker × ReqToTokenPool × TokenToKVPoolAllocator :=
  let made := FixedSizeVerificationPool.create fixedRequestsPerVerify windowSize rows a
  ({ alwaysAlign, fixedRequestsPerVerify, skipMismatch, mismatchPercentage, windowSize
     fixedPool := made.1
     fixedRequestsPerVerify_pos := hfixed
     windowSize_pos := hwindow
     fixedPool_windowSize := fun _ hp => (FixedSizeVerificationPool.create_sizes hp).2 }, made.2)

/-- What a verification pass reads and writes. `device` is the state of the model's KV cache. -/
structure VerifyState (K : Type) where
  heap : ReqId → Req
  batch : ScheduleBatch
  allocator : TokenToKVPoolAllocator
  device : K

def writeBack (heap : ReqId → Req) (updates : List (ReqId × Req)) (id : ReqId) : Req :=
  (updates.lookup id).getD (heap id)

namespace LLM42Worker

variable {K : Type}

/-- Step 5: the comparison that `skip_mismatch` selects. -/
def compare (w : LLM42Worker) (info : LLM42Info) (reqs : List Req) (out : VerifyOutput) :
    List (Req × (ℕ × ℕ)) :=
  if 100 ≤ w.skipMismatch then info.verifyAndCompare none reqs out
  else if w.skipMismatch ≤ 0 then
    reqs.map fun r => (r, (r.outputIds.length - r.llm42VerifiedTokens, 0))
  else info.verifyAndCompare (some w.mismatchPercentage) reqs out

/-- Step 6 for one request; `tokensVerified` is its entry of `output_lens`. -/
def recordResult (tokensVerified : ℕ) (x : Req × (ℕ × ℕ)) : Req :=
  let r := { x.1 with llm42NumVerificationWindows := x.1.llm42NumVerificationWindows + 1 }
  if 0 < x.2.2 then
    { r with
      llm42NumRollbacks := r.llm42NumRollbacks + 1
      llm42TokensRolledBack := r.llm42TokensRolledBack + x.2.2
      llm42VerifiedTokens := r.outputIds.length }
  else { r with llm42VerifiedTokens := r.llm42VerifiedTokens + tokensVerified }

/-- Step 2: padding slots from the pool, or allocated for this pass when there is no pool. -/
def assignPadding (w : LLM42Worker) (info : LLM42Info) (a : TokenToKVPoolAllocator) :
    Except VerifyError (LLM42Info × TokenToKVPoolAllocator) :=
  if info.totalPaddingCacheSlots = 0 then .ok (info, a)
  else match w.fixedPool with
    | some pool => do
      let locs ← pool.getPaddingCacheLocs info.totalPaddingCacheSlots
      .ok (info.setPaddingCacheLocs locs, a)
    | none => match info.allocatePaddingKvCache a with
      | (b, some info') => .ok (info', b)
      | (_, none) => .error .terminated

/-- Steps 1 and 3: the metadata with dummy entries, and the dummy rows themselves. -/
def dummyRows (w : LLM42Worker) (numDummies : ℕ) :
    Except VerifyError (Option (DummyData × ℕ × ℕ)) :=
  if numDummies = 0 then .ok none
  else match w.fixedPool with
    | none => .error .indexError
    | some pool => do
      let data ← pool.getDummyData numDummies
      .ok (some (data, numDummies, pool.windowSize))

def buildInfo (w : LLM42Worker) (reqs : List Req) (forceIncludeAll : Bool) (numDummies : ℕ) :
    LLM42Info :=
  let info := LLM42Info.fromRequests w.alwaysAlign forceIncludeAll w.windowSize reqs
  match w.fixedPool with
  | some pool => if 0 < numDummies then info.appendDummyEntries numDummies pool.windowSize else info
  | none => info

/-- `_run_verification` on one group. The result lists the requests with a net rollback. -/
def runVerification (w : LLM42Worker) (forward : VerifyBatch → K → VerifyOutput × K)
    (pool : ReqToTokenPool) (group : List ReqId) (forceIncludeAll : Bool) (numDummies : ℕ)
    (s : VerifyState K) : Except VerifyError (VerifyState K × List (ReqId × ℕ)) := do
  let reqs := group.map s.heap
  let (info, allocator) ← w.assignPadding (w.buildInfo reqs forceIncludeAll numDummies) s.allocator
  let dummies ← w.dummyRows numDummies
  let verifyBatch ← info.prepareVerifyBatch pool s.heap group dummies
  let (out, device) := forward verifyBatch s.device
  let compared := w.compare info reqs out
  let updated := List.zipWith recordResult info.outputLens compared
  let heap := writeBack s.heap (group.zip updated)
  let rollbackResults := (group.zip compared).filterMap fun x =>
    if 0 < x.2.2.2 then some (x.1, x.2.2.2) else none
  let batch := if rollbackResults = [] then s.batch
    else updateBatchState s.batch heap (rollbackResults.map (·.1))
  let allocator := if 0 < info.totalPaddingCacheSlots ∧ w.fixedPool.isNone
    then info.freePaddingKvCache allocator else allocator
  .ok ({ heap, batch, allocator, device }, rollbackResults)

/-- Deterministic requests with unverified tokens and live KV, as the worker collects them. -/
def isCandidate (r : Req) : Bool :=
  r.isDeterministic && r.kv.reqPoolIdx.isSome && !r.kv.isRetracted &&
    decide (r.llm42VerifiedTokens < r.outputIds.length)

def isReady (w : LLM42Worker) (r : Req) : Bool :=
  r.finished || decide (w.windowSize ≤ r.outputIds.length - r.llm42VerifiedTokens)

/-- The groups of fixed-size mode: ready requests first, then others to fill the group. -/
def fixedGroups (fixedSize : ℕ) : ℕ → List ReqId → List ReqId → List (List ReqId)
  | 0, _, _ => []
  | _, [], _ => []
  | fuel + 1, ready, notReady =>
    let fromReady := ready.take fixedSize
    let fromNotReady := notReady.take (fixedSize - fromReady.length)
    (fromReady ++ fromNotReady) ::
      fixedGroups fixedSize fuel (ready.drop fixedSize) (notReady.drop fromNotReady.length)

/-- Chunks of at most `size` requests for the variable-size path. -/
def chunks (size : ℕ) : ℕ → List ReqId → List (List ReqId)
  | 0, _ => []
  | _, [] => []
  | fuel + 1, reqs => reqs.take size :: chunks size fuel (reqs.drop size)

/-- The passes that one call of `check_and_verify_deterministic_requests` runs, each with its
group, the `force_include_all` flag and its number of dummies. -/
def plannedPasses (w : LLM42Worker) (heap : ReqId → Req) (batch : ScheduleBatch) :
    List (List ReqId × Bool × ℕ) :=
  let allDetReqs := (batch.map (·.req)).filter fun id => isCandidate (heap id)
  let ready := allDetReqs.filter fun id => w.isReady (heap id)
  let notReady := allDetReqs.filter fun id => !w.isReady (heap id)
  match w.fixedPool with
  | some pool =>
    (fixedGroups pool.fixedSize ready.length ready notReady).map fun g =>
      (g, true, pool.fixedSize - g.length)
  | none => (chunks w.fixedRequestsPerVerify ready.length ready).map fun g => (g, false, 0)

def runPasses (w : LLM42Worker) (forward : VerifyBatch → K → VerifyOutput × K)
    (pool : ReqToTokenPool) : List (List ReqId × Bool × ℕ) → VerifyState K →
    Except VerifyError (VerifyState K × List (ReqId × ℕ))
  | [], s => .ok (s, [])
  | (group, force, numDummies) :: rest, s => do
    let (s, results) ← w.runVerification forward pool group force numDummies s
    let (s, results') ← runPasses w forward pool rest s
    .ok (s, results ++ results')

def checkAndVerifyDeterministicRequests (w : LLM42Worker)
    (forward : VerifyBatch → K → VerifyOutput × K) (pool : ReqToTokenPool) (s : VerifyState K) :
    Except VerifyError (VerifyState K × List (ReqId × ℕ)) :=
  w.runPasses forward pool (w.plannedPasses s.heap s.batch) s

end LLM42Worker

end LLM42
