import LLM42.Memory.Allocator
import LLM42.Memory.ReqToToken

/-! # Verification metadata

`LLM42Info` of `llm42/llm42_info.py`: which tokens a verification pass replays, how each
request's window is padded, and the batch that is handed to the model. -/

namespace LLM42

def dummyTokenId : Token := 32

inductive VerifyError where
  | indexError
  | unallocatedContext (contextIdx currentSeqLen : ℕ)
  | cacheLocMismatch (inputTokens cacheLocs : ℕ)
  | paddingPoolMissing (requested : ℕ)
  | paddingPoolExhausted (requested available : ℕ)
  | dummyPoolExhausted (requested available : ℕ)
  | terminated
deriving DecidableEq

structure LLM42Info where
  originalOutputs : List Token
  outputLens : List ℕ
  paddedLens : List ℕ
  paddingMasks : List (List Bool)
  paddingCounts : List ℕ
  numRealRequests : ℕ
  numDummyRequests : ℕ
  paddingCacheSlots : List ℕ
  totalPaddingCacheSlots : ℕ
  paddingCacheLocs : Option (List ℕ)
  paddingCacheLocsAllocated : Option (List ℕ)

/-- What `from_requests` appends to its lists for one request. -/
structure InfoEntry where
  outputs : List Token
  outputLen : ℕ
  paddedLen : ℕ
  paddingMask : List Bool
  paddingCount : ℕ

namespace LLM42Info

/-- The constructor: one padding slot for every position after the context token. -/
def create (entries : List InfoEntry) : LLM42Info :=
  let paddedLens := entries.map (·.paddedLen)
  let paddingCacheSlots := paddedLens.map (· - 1)
  { originalOutputs := entries.flatMap (·.outputs)
    outputLens := entries.map (·.outputLen)
    paddedLens
    paddingMasks := entries.map (·.paddingMask)
    paddingCounts := entries.map (·.paddingCount)
    numRealRequests := entries.length
    numDummyRequests := 0
    paddingCacheSlots
    totalPaddingCacheSlots := paddingCacheSlots.sum
    paddingCacheLocs := none
    paddingCacheLocsAllocated := none }

/-- The unverified tokens a pass replays; fixed-size passes take at most one window of them. -/
def window (forceIncludeAll : Bool) (windowSize : ℕ) (r : Req) : List Token :=
  if forceIncludeAll && decide (windowSize < r.unverified.length) then
    r.unverified.take windowSize
  else r.unverified

def shouldPad (alwaysAlign forceIncludeAll : Bool) (windowSize : ℕ) (r : Req) : Bool :=
  alwaysAlign && decide ((window forceIncludeAll windowSize r).length < windowSize) &&
    (r.finished || forceIncludeAll)

/-- The body of the `from_requests` loop; `none` when the request has nothing to verify. -/
def entryOf (alwaysAlign forceIncludeAll : Bool) (windowSize : ℕ) (r : Req) : Option InfoEntry :=
  if r.unverified.length = 0 then none
  else
    let unverified := window forceIncludeAll windowSize r
    let actualLen := unverified.length
    if shouldPad alwaysAlign forceIncludeAll windowSize r then
      let paddingNeeded := windowSize - actualLen
      some
        { outputs := unverified ++ List.replicate paddingNeeded dummyTokenId
          outputLen := actualLen
          paddedLen := windowSize
          paddingMask := List.replicate actualLen true ++ List.replicate paddingNeeded false
          paddingCount := paddingNeeded }
    else
      some
        { outputs := unverified
          outputLen := actualLen
          paddedLen := actualLen
          paddingMask := List.replicate actualLen true
          paddingCount := 0 }

def fromRequests (alwaysAlign forceIncludeAll : Bool) (windowSize : ℕ) (reqs : List Req) :
    LLM42Info :=
  create (reqs.filterMap (entryOf alwaysAlign forceIncludeAll windowSize))

def appendDummyEntries (info : LLM42Info) (numDummies windowSize : ℕ) : LLM42Info :=
  { info with
    outputLens := info.outputLens ++ List.replicate numDummies 0
    paddedLens := info.paddedLens ++ List.replicate numDummies windowSize
    paddingMasks := info.paddingMasks ++
      List.replicate numDummies (List.replicate windowSize false)
    paddingCounts := info.paddingCounts ++ List.replicate numDummies windowSize
    numDummyRequests := numDummies }

def setPaddingCacheLocs (info : LLM42Info) (paddingLocs : List ℕ) : LLM42Info :=
  { info with
    paddingCacheLocs := some (paddingLocs.take info.totalPaddingCacheSlots)
    paddingCacheLocsAllocated := none }

/-- `allocate_padding_kv_cache`; `none` when the allocator refuses and the caller shuts down. -/
def allocatePaddingKvCache (info : LLM42Info) (a : TokenToKVPoolAllocator) :
    TokenToKVPoolAllocator × Option LLM42Info :=
  if info.totalPaddingCacheSlots = 0 then (a, some info)
  else match a.alloc info.totalPaddingCacheSlots with
    | (b, some locs) =>
      (b, some { info with paddingCacheLocs := some locs, paddingCacheLocsAllocated := some locs })
    | (b, none) => (b, none)

def freePaddingKvCache (info : LLM42Info) (a : TokenToKVPoolAllocator) : TokenToKVPoolAllocator :=
  match info.paddingCacheLocsAllocated with
  | some locs => a.free locs
  | none => a

end LLM42Info

/-- The fields of the verification `ScheduleBatch` that the model and the sampler read. -/
structure VerifyBatch where
  reqIds : List ReqId
  reqs : List Req
  inputIds : List Token
  outCacheLoc : List ℕ
  reqPoolIndices : List ℕ
  prefixLens : List ℕ
  extendLens : List ℕ

/-- Dummy rows taken from the verification pool. -/
structure DummyData where
  inputIds : List Token
  cacheLocs : List ℕ
  reqPoolIndices : List ℕ

namespace LLM42Info

/-- The last verified token, which opens the request's window. -/
def contextToken (r : Req) : Option Token :=
  if 0 < r.llm42VerifiedTokens then some (r.outputIds.getD (r.llm42VerifiedTokens - 1) 0)
  else r.originInputIds.getLast?

/-- The window of one request: context token, unverified tokens but the last, padding. The
unverified tokens are read from the request again, without the truncation of `from_requests`. -/
def windowIds (r : Req) (paddedLen actualLen : ℕ) (context : Token) : List Token :=
  if actualLen < paddedLen then
    let tokensAfterContext := if 1 < actualLen then r.unverified.dropLast else []
    let paddingNeeded := paddedLen - 1 - tokensAfterContext.length
    context :: (tokensAfterContext ++ List.replicate paddingNeeded dummyTokenId)
  else context :: r.unverified.dropLast

def rowInputIds (r : Req) (paddedLen actualLen : ℕ) : List Token :=
  if paddedLen = 0 then []
  else match contextToken r with
    | none => []
    | some context => windowIds r paddedLen actualLen context

/-- Pool row, prefix length and extend length of one request. -/
def rowShape (r : Req) (paddedLen : ℕ) : Option (ℕ × ℕ × ℕ) :=
  if paddedLen = 0 then none
  else match contextToken r, r.kv.reqPoolIdx with
    | some _, some row =>
      some (row, r.originInputIds.length + r.llm42VerifiedTokens - 1, paddedLen)
    | _, _ => none

def rows (info : LLM42Info) (reqs : List Req) : List (Req × ℕ × ℕ) :=
  reqs.zip (info.paddedLens.zip info.outputLens)

/-- The second loop: KV slots of the window, the request's own first, then padding slots. -/
def cacheLocs (pool : ReqToTokenPool) (paddingCacheLocs : Option (List ℕ)) :
    ℕ → List (Req × ℕ × ℕ) → Except VerifyError (List ℕ)
  | _, [] => .ok []
  | paddingOffset, (r, paddedLen, _) :: rest =>
    let currentSeqLen := r.originInputIds.length + r.outputIds.length - 1
    let contextIdx := r.originInputIds.length + r.llm42VerifiedTokens - 1
    if currentSeqLen ≤ contextIdx then .error (.unallocatedContext contextIdx currentSeqLen)
    else match r.kv.reqPoolIdx with
    | none => .error .indexError
    | some row =>
      let startIdx := r.originInputIds.length + r.llm42VerifiedTokens
      let numCacheAfterContext := paddedLen - 1
      let endIdx := min (startIdx + numCacheAfterContext) currentSeqLen
      let own := pool.slice row startIdx endIdx
      let remainingNeeded := numCacheAfterContext - (endIdx - startIdx)
      match paddingCacheLocs with
      | none => do
        let tail ← cacheLocs pool paddingCacheLocs paddingOffset rest
        .ok (pool.reqToToken row contextIdx :: (own ++ tail))
      | some locs => do
        let tail ← cacheLocs pool paddingCacheLocs (paddingOffset + remainingNeeded) rest
        .ok (pool.reqToToken row contextIdx ::
          (own ++ ((locs.drop paddingOffset).take remainingNeeded ++ tail)))

/-- The tensors of the batch; dummy rows, when there are any, stand after the real ones. -/
def assemble (info : LLM42Info) (heap : ReqId → Req) (reqIds : List ReqId)
    (dummies : Option (DummyData × ℕ × ℕ)) (realCacheLocs : List ℕ) : VerifyBatch :=
  let rs := info.rows (reqIds.map heap)
  let shapes := rs.filterMap fun x => rowShape x.1 x.2.1
  let numDummies := dummies.elim 0 (·.2.1)
  let dummyTokensNeeded := dummies.elim 0 fun d => d.2.1 * d.2.2
  { reqIds
    reqs := reqIds.map heap
    inputIds := (rs.flatMap fun x => rowInputIds x.1 x.2.1 x.2.2) ++
      dummies.elim [] fun d => d.1.inputIds.take dummyTokensNeeded
    outCacheLoc := realCacheLocs ++
      dummies.elim [] fun d => d.1.cacheLocs.take dummyTokensNeeded
    reqPoolIndices := shapes.map (·.1) ++ dummies.elim [] fun d => d.1.reqPoolIndices.take numDummies
    prefixLens := shapes.map (·.2.1) ++ List.replicate numDummies 0
    extendLens := shapes.map (·.2.2) ++ List.replicate numDummies (dummies.elim 0 (·.2.2)) }

def prepareVerifyBatch (info : LLM42Info) (pool : ReqToTokenPool) (heap : ReqId → Req)
    (reqIds : List ReqId) (dummies : Option (DummyData × ℕ × ℕ)) : Except VerifyError VerifyBatch :=
  if info.paddedLens.length < reqIds.length then .error .indexError
  else do
    let realCacheLocs ← cacheLocs pool info.paddingCacheLocs 0 (info.rows (reqIds.map heap))
    let batch := info.assemble heap reqIds dummies realCacheLocs
    if batch.outCacheLoc.length ≠ batch.inputIds.length then
      .error (.cacheLocMismatch batch.inputIds.length batch.outCacheLoc.length)
    else .ok batch

end LLM42Info

end LLM42
