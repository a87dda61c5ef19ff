import LLM42.Cache.RadixMap
import LLM42.Memory.KVAllocator
import LLM42.Memory.ReqToToken

/-! # Paged KV memory of the scheduler

The allocator, the page table and the prefix cache, for any page size, with the functions of
`mem_cache/common.py`, `mem_cache/radix_cache.py` and `mem_cache/chunk_cache.py` that move KV slots
between them on behalf of a request. -/

namespace LLM42

inductive MemoryError where
  | outOfMemory (numTokens : ℕ)
  | prefillOutOfMemory (extendNumTokens : ℕ)
  | decodeOutOfMemory (numTokens : ℕ)
  | outOfMemoryAfterRetracting
  | outOfReqSlots (numReqs : ℕ)
  | manyChunkedReqs (chunked : ℕ)
  | extendInputLen (seqLen preLen extendInputLen : ℕ)
  | encoderPrefix (prefixLen encoderLen : ℕ)
  | noReqPoolIdx
  | committedFreed (kvCommittedLen : ℕ)
  | overallocatedFreed (kvCommittedLen kvAllocatedLen : ℕ)
  | overallocated (kvCommittedLen kvAllocatedLen : ℕ)
  | matchAfterInsert (matched keys : ℕ)
deriving DecidableEq

structure MemReq where
  originInputIds : List Token
  outputIds : List Token := []
  extraKey : Option String := none
  /-- `logprob_start_len` when `return_logprob` is set and it is not negative. -/
  logprobStartLen : Option ℕ := none
  /-- `multimodal_inputs.num_image_tokens` under an encoder-decoder model. -/
  encoderLen : ℕ := 0
  fillIds : List Token := []
  prefixIndices : List ℕ := []
  extendInputLen : ℕ := 0
  lastNode : Option (List Page) := none
  cacheProtectedLen : ℕ := 0
  reqPoolIdx : Option ℕ := none
  kvCommittedLen : ℕ := 0
  kvAllocatedLen : ℕ := 0
  kvCommittedFreed : Bool := false
  kvOverallocatedFreed : Bool := false
  /-- The request's entry of `batch.seq_lens`. -/
  seqLen : ℕ := 0
deriving DecidableEq

namespace MemReq

def tokens (r : MemReq) : List Token := r.originInputIds ++ r.outputIds

def radixKey (r : MemReq) (tokenIds : List Token) : RadixKey := ⟨tokenIds, r.extraKey⟩

def maxPrefixLen (r : MemReq) : ℕ :=
  min (r.tokens.length - 1) (r.logprobStartLen.getD (r.tokens.length - 1))

def resetForRetract (r : MemReq) : MemReq :=
  { r with
    prefixIndices := []
    lastNode := none
    extendInputLen := 0
    kvAllocatedLen := 0
    kvCommittedLen := 0
    kvCommittedFreed := false
    kvOverallocatedFreed := false }

/-- After an extend: all of `fill_ids` is committed; the encoder part of an encoder-decoder request
is stripped from its `seq_lens` entry. -/
def extended (r : MemReq) (idx : ℕ) : MemReq :=
  { r with
    reqPoolIdx := some idx
    kvCommittedLen := r.fillIds.length
    kvAllocatedLen := r.fillIds.length
    seqLen := r.fillIds.length - r.encoderLen }

def decoded (r : MemReq) : MemReq :=
  { r with
    kvCommittedLen := r.kvCommittedLen + 1
    kvAllocatedLen := r.kvAllocatedLen + 1
    seqLen := r.seqLen + 1 }

def extendEntry (r : MemReq) : ExtendEntry :=
  ⟨r.prefixIndices.length, r.fillIds.length, r.prefixIndices.getLast?⟩

end MemReq

/-- `tree_cache`: without prefix caching it is a `ChunkCache`, or a `RadixCache` that is off. -/
inductive PrefixCache (η β : Type*) where
  | chunkCache
  | radixCache (disable : Bool) (cache : RadixCache η β)

namespace PrefixCache

variable {η β : Type*} (cfg : RadixConfig η β)

def matchPrefix (t : PrefixCache η β) (key : RadixKey) :
    List ℕ × Option (List Page) × PrefixCache η β :=
  match t with
  | chunkCache => ([], none, chunkCache)
  | radixCache true c => ([], some [], radixCache true c)
  | radixCache false c =>
    let (deviceIndices, lastNode, c) := c.matchPrefix cfg.pageSize key
    (deviceIndices, some lastNode, radixCache false c)

def incLockRef (t : PrefixCache η β) (node : Option (List Page)) : PrefixCache η β :=
  match t, node with
  | radixCache false c, some p => radixCache false (c.incLockRef p)
  | t, _ => t

def decLockRef (t : PrefixCache η β) (node : Option (List Page)) : PrefixCache η β :=
  match t, node with
  | radixCache false c, some p => radixCache false (c.decLockRef p)
  | t, _ => t

def shares : PrefixCache η β → Bool
  | radixCache false _ => true
  | _ => false

def evictableSize : PrefixCache η β → ℤ
  | radixCache false c => c.evictableSize
  | _ => 0

end PrefixCache

structure PagedMemory (η β : Type*) where
  allocator : KVAllocator
  rows : ReqToTokenPool
  cache : PrefixCache η β

namespace PagedMemory

variable {η β : Type*} (cfg : RadixConfig η β)

def free (m : PagedMemory η β) (slots : List ℕ) : PagedMemory η β :=
  { m with allocator := m.allocator.free slots }

def evict (m : PagedMemory η β) (pick : List (List Page) → ℕ) (numTokens : ℕ) : PagedMemory η β :=
  match m.cache with
  | .radixCache false c =>
    let (evicted, c) := c.evict cfg pick numTokens
    { m with
      allocator := evicted.foldl (fun a x => a.free x.data.value.flatten) m.allocator
      cache := .radixCache false c }
  | _ => m

def evictFromTreeCache (m : PagedMemory η β) (pick : List (List Page) → ℕ) (numTokens : ℕ) :
    PagedMemory η β :=
  match m.cache with
  | .chunkCache => m
  | .radixCache _ _ => if m.allocator.availableSize < numTokens then m.evict cfg pick numTokens else m

def assignRows : List (Option ℕ) → List ℕ → List ℕ
  | [], _ => []
  | some idx :: reqs, select => idx :: assignRows reqs select
  | none :: reqs, idx :: select => idx :: assignRows reqs select
  | none :: _, [] => []

def allocReqSlots (m : PagedMemory η β) (reqs : List MemReq) :
    Except MemoryError (List ℕ × PagedMemory η β) :=
  let chunked := reqs.countP (·.reqPoolIdx.isSome)
  let needSize := reqs.length - chunked
  if 1 < chunked then .error (.manyChunkedReqs chunked)
  else if m.rows.freeSlots.length < needSize then .error (.outOfReqSlots reqs.length)
  else .ok (assignRows (reqs.map (·.reqPoolIdx)) (m.rows.freeSlots.take needSize),
    { m with rows := { m.rows with freeSlots := m.rows.freeSlots.drop needSize } })

def writeCacheIndices (rows : ReqToTokenPool) : List ℕ → List (ℕ × MemReq) → ReqToTokenPool
  | _, [] => rows
  | outCacheLoc, (idx, r) :: reqs =>
    let extendLen := r.fillIds.length - r.prefixIndices.length
    let rows := rows.write idx 0 r.prefixIndices
    let rows := rows.write idx r.prefixIndices.length (outCacheLoc.take extendLen)
    writeCacheIndices rows (outCacheLoc.drop extendLen) reqs

def afterExtend (idx : ℕ) (r : MemReq) : Except MemoryError MemReq :=
  let seqLen := r.fillIds.length
  let preLen := r.prefixIndices.length
  if seqLen - preLen ≠ r.extendInputLen then
    .error (.extendInputLen seqLen preLen r.extendInputLen)
  else if preLen < r.encoderLen ∧ preLen ≠ 0 then .error (.encoderPrefix preLen r.encoderLen)
  else .ok (r.extended idx)

def afterExtendAll : List ℕ → List MemReq → Except MemoryError (List MemReq)
  | idx :: reqPoolIndices, r :: reqs => do
    let r ← afterExtend idx r
    let reqs ← afterExtendAll reqPoolIndices reqs
    .ok (r :: reqs)
  | _, _ => .ok []

def extendNumTokens (reqs : List MemReq) : ℕ :=
  (reqs.map fun r => r.fillIds.length - r.prefixIndices.length).sum

def prepareForExtend (m : PagedMemory η β) (pick : List (List Page) → ℕ) (reqs : List MemReq) :
    Except MemoryError (List MemReq × PagedMemory η β) :=
  match m.allocReqSlots reqs with
  | .error e => .error e
  | .ok (reqPoolIndices, m) =>
    -- the paged path over-estimates: a new page for each request
    let numTokens := if cfg.pageSize = 1 then extendNumTokens reqs
      else extendNumTokens reqs + reqs.length * cfg.pageSize
    let m := m.evictFromTreeCache cfg pick numTokens
    match m.allocator.allocExtend (reqs.map (·.extendEntry)) (extendNumTokens reqs) with
    | (_, none) => .error (if cfg.pageSize = 1 then .outOfMemory (extendNumTokens reqs)
        else .prefillOutOfMemory (extendNumTokens reqs))
    | (allocator, some outCacheLoc) =>
      let rows := writeCacheIndices m.rows outCacheLoc (reqPoolIndices.zip reqs)
      match afterExtendAll reqPoolIndices reqs with
      | .error e => .error e
      | .ok reqs => .ok (reqs, { m with allocator, rows })

def writeNext (rows : ReqToTokenPool) : List ℕ → List MemReq → ReqToTokenPool
  | loc :: locs, r :: reqs =>
    writeNext (rows.write (r.reqPoolIdx.getD 0) (r.encoderLen + r.seqLen) [loc]) locs reqs
  | _, _ => rows

def decodeRows (m : PagedMemory η β) (reqs : List MemReq) : List (ℕ × ℕ) :=
  reqs.map fun r => (r.seqLen + 1, m.rows.reqToToken (r.reqPoolIdx.getD 0) (r.seqLen - 1))

def prepareForDecode (m : PagedMemory η β) (pick : List (List Page) → ℕ) (reqs : List MemReq) :
    Except MemoryError (List MemReq × PagedMemory η β) :=
  let lastLoc := m.decodeRows reqs
  let m := m.evictFromTreeCache cfg pick (reqs.length * cfg.pageSize)
  match m.allocator.allocDecode lastLoc with
  | (_, none) => .error (if cfg.pageSize = 1 then .outOfMemory reqs.length
      else .decodeOutOfMemory reqs.length)
  | (allocator, some outCacheLoc) =>
    .ok (reqs.map MemReq.decoded, { m with allocator, rows := writeNext m.rows outCacheLoc reqs })

def cacheFinishedReq (m : PagedMemory η β) (r : MemReq) (idx : ℕ) (isInsert : Bool) :
    PagedMemory η β :=
  match m.cache with
  | .chunkCache =>
    -- slot 0 marks entries that a rollback has freed
    m.free ((m.rows.slice idx 0 r.kvCommittedLen).filter (· ≠ 0))
  | .radixCache true _ => m.free (m.rows.slice idx 0 r.kvCommittedLen)
  | .radixCache false c =>
    let tokenIds := r.tokens.take r.kvCommittedLen
    let kvIndices := m.rows.slice idx 0 tokenIds.length
    let key := (r.radixKey tokenIds).pageAligned cfg.pageSize
    let len := key.tokenIds.length
    let m := if isInsert then
        let (newPrefixLen, c) := c.insert cfg key (kvIndices.take len)
        { m.free ((kvIndices.take newPrefixLen).drop r.cacheProtectedLen) with
          cache := .radixCache false c }
      else m.free ((kvIndices.take len).drop r.cacheProtectedLen)
    let m := m.free (kvIndices.drop len)
    { m with cache := m.cache.decLockRef r.lastNode }

def releaseKvCache (m : PagedMemory η β) (r : MemReq) (isInsert : Bool) :
    Except MemoryError (MemReq × PagedMemory η β) :=
  match r.reqPoolIdx with
  | none => .error .noReqPoolIdx
  | some idx =>
    if r.kvCommittedFreed then .error (.committedFreed r.kvCommittedLen)
    else if r.kvOverallocatedFreed then
      .error (.overallocatedFreed r.kvCommittedLen r.kvAllocatedLen)
    else if r.kvCommittedLen ≠ r.kvAllocatedLen then
      .error (.overallocated r.kvCommittedLen r.kvAllocatedLen)
    else
      let m := m.cacheFinishedReq cfg r idx isInsert
      .ok ({ r with kvCommittedFreed := true, kvOverallocatedFreed := true, reqPoolIdx := none },
        { m with rows := m.rows.freeRow idx })

def cacheUnfinishedReq (m : PagedMemory η β) (r : MemReq) (idx : ℕ) :
    Except MemoryError (MemReq × PagedMemory η β) :=
  let kvIndices := m.rows.slice idx 0 r.fillIds.length
  match m.cache with
  | .chunkCache => .ok ({ r with prefixIndices := kvIndices }, m)
  | .radixCache true _ => .ok (r, m)
  | .radixCache false c =>
    let key := (r.radixKey r.fillIds).pageAligned cfg.pageSize
    let len := key.tokenIds.length
    let (newPrefixLen, c) := c.insert cfg key (kvIndices.take len)
    let m := m.free ((kvIndices.take newPrefixLen).drop r.cacheProtectedLen)
    let (newIndices, newLastNode, c) := c.matchPrefix cfg.pageSize key
    if newIndices.length ≠ len then .error (.matchAfterInsert newIndices.length len)
    else
      let rows := m.rows.write idx r.cacheProtectedLen (newIndices.drop r.cacheProtectedLen)
      let cache := ((PrefixCache.radixCache false c).decLockRef r.lastNode).incLockRef newLastNode
      -- the partial last page stays private
      let prefixIndices := if newIndices.length < kvIndices.length then
          newIndices ++ kvIndices.drop newIndices.length
        else newIndices
      .ok ({ r with
          prefixIndices
          cacheProtectedLen := newIndices.length
          lastNode := some newLastNode },
        { m with rows, cache })

/-- `init_next_round_input` with the tree cache, then the lock that `add_one_req` takes; a chunk
is cut to `truncLen` tokens. -/
def admitReq (m : PagedMemory η β) (r : MemReq) (truncLen : Option ℕ) : MemReq × PagedMemory η β :=
  let (prefixIndices, lastNode, cache) :=
    m.cache.matchPrefix cfg (r.radixKey (r.tokens.take r.maxPrefixLen))
  let extendInputLen := truncLen.getD (r.tokens.length - prefixIndices.length)
  ({ r with
      fillIds := r.tokens.take (prefixIndices.length + extendInputLen)
      prefixIndices
      lastNode
      cacheProtectedLen := prefixIndices.length
      extendInputLen },
    { m with cache := cache.incLockRef lastNode })

/-- `init_next_round_input` without the tree cache, for the chunked request, and the cut of
`add_chunked_req`. -/
def nextChunk (r : MemReq) (truncLen : Option ℕ) : MemReq :=
  let extendInputLen := truncLen.getD (r.tokens.length - r.prefixIndices.length)
  { r with
    fillIds := r.tokens.take (r.prefixIndices.length + extendInputLen)
    extendInputLen }

/-- The rollback branch of `process_batch_result_decode`, after verification has replaced the
output by `outputIds`; `_update_batch_state` has set the `seq_lens` entry. -/
def rollback (m : PagedMemory η β) (r : MemReq) (idx : ℕ) (outputIds : List Token) :
    MemReq × PagedMemory η β :=
  let tokensRolledBack := r.outputIds.length - outputIds.length
  let startFreePos := r.originInputIds.length + (outputIds.length - 1)
  let kvIndicesToFree := m.rows.slice idx startFreePos (startFreePos + tokensRolledBack)
  ({ r with
      outputIds
      kvCommittedLen := r.kvCommittedLen - tokensRolledBack
      kvAllocatedLen := r.kvAllocatedLen - tokensRolledBack
      seqLen := r.originInputIds.length + outputIds.length - 1 },
    m.free (kvIndicesToFree.filter (· ≠ 0)))

end PagedMemory

end LLM42
