import LLM42.Library.RadixForest
import LLM42.Library.Runs
import LLM42.Verification.Info

/-! # Prefix cache and KV release

`ChunkCache` and `RadixCache` of `mem_cache`, page size one, with the helpers of
`mem_cache/common.py` that allocate and release a request's slots through them. -/

namespace LLM42

/-- The ways a scheduler step can raise. -/
inductive SchedulerError where
  | noReqPoolIdx
  | committedFreed (kvCommittedLen : ℕ)
  | overallocatedFreed (kvCommittedLen kvAllocatedLen : ℕ)
  | overallocated (kvCommittedLen kvAllocatedLen : ℕ)
  | outOfMemory (numTokens : ℕ)
  | outOfReqSlots (numReqs : ℕ)
  | matchAfterInsert (matched keys : ℕ)
  | verify (e : VerifyError)
deriving DecidableEq

/-- `RadixKey`: every token carries the namespace, so keys of two namespaces share nothing. -/
def radixKey (extraKey : Option String) (tokenIds : List Token) : List (Option String × Token) :=
  tokenIds.map (extraKey, ·)

def NodeRef.key (n : NodeRef) : List (Option String × Token) := radixKey n.extraKey n.path

open Library (RadixForest)

/-- `tree_cache`: without prefix caching nothing is stored. -/
inductive TreeCache where
  | chunkCache
  | radixCache (root : RadixForest (Option String × Token) ℕ) (disableFinishedInsert : Bool)

namespace TreeCache

def reset : TreeCache → TreeCache
  | chunkCache => chunkCache
  | radixCache _ disableFinishedInsert => radixCache .nil disableFinishedInsert

/-- `match_prefix`: the indices found, the node where they end, and the tree, split there. -/
def matchPrefix (t : TreeCache) (extraKey : Option String) (tokenIds : List Token) :
    List ℕ × Option NodeRef × TreeCache :=
  match t with
  | chunkCache => ([], none, chunkCache)
  | radixCache f d =>
    let (indices, f') := f.matchPrefix (radixKey extraKey tokenIds)
    (indices, some ⟨extraKey, tokenIds.take indices.length⟩, radixCache f' d)

def adjustLockRef (g : ℕ → ℕ) (t : TreeCache) (node : Option NodeRef) : TreeCache :=
  match t, node with
  | radixCache f d, some n => radixCache (f.adjustLock g n.key) d
  | t, _ => t

def incLockRef : TreeCache → Option NodeRef → TreeCache := adjustLockRef (· + 1)

def decLockRef : TreeCache → Option NodeRef → TreeCache := adjustLockRef (· - 1)

def slots : TreeCache → List ℕ
  | chunkCache => []
  | radixCache f _ => f.values

def lockAt : TreeCache → List (Option String × Token) → ℕ
  | chunkCache, _ => 0
  | radixCache f _, q => f.lockAt q

end TreeCache

/-- The two pools and the prefix cache, shared by all requests. -/
structure Memory where
  allocator : TokenToKVPoolAllocator
  rows : ReqToTokenPool
  tree : TreeCache

namespace Memory

def free (m : Memory) (slots : List ℕ) : Memory := { m with allocator := m.allocator.free slots }

/-- Delete one unlocked leaf and give its slots back; nodes in use are left alone. -/
def evictNode (m : Memory) (victim : NodeRef) : Memory :=
  match m.tree with
  | .chunkCache => m
  | .radixCache f d => match f.deleteLeaf victim.key with
    | some (value, f') => { m.free value with tree := .radixCache f' d }
    | none => m

/-- `evict`; the eviction strategy is the list of its victims. -/
def evict (m : Memory) (victims : List NodeRef) : Memory := victims.foldl evictNode m

def evictFromTreeCache (m : Memory) (numTokens : ℕ) (victims : List NodeRef) : Memory :=
  match m.tree with
  | .chunkCache => m
  | .radixCache _ _ => if m.allocator.availableSize < numTokens then m.evict victims else m

def allocTokenSlots (m : Memory) (numTokens : ℕ) (victims : List NodeRef) :
    Except SchedulerError (List ℕ × Memory) :=
  let m := m.evictFromTreeCache numTokens victims
  match m.allocator.alloc numTokens with
  | (allocator, some outCacheLoc) => .ok (outCacheLoc, { m with allocator })
  | (_, none) => .error (.outOfMemory numTokens)

def allocReqSlots (m : Memory) (numReqs : ℕ) : Except SchedulerError (List ℕ × Memory) :=
  if m.rows.freeSlots.length < numReqs then .error (.outOfReqSlots numReqs)
  else .ok (m.rows.freeSlots.take numReqs,
    { m with rows := { m.rows with freeSlots := m.rows.freeSlots.drop numReqs } })

/-- `cache_finished_req`: committed slots go to the tree or back to the allocator. -/
def cacheFinishedReq (m : Memory) (r : Req) (row : ℕ) (isInsert : Bool) :
    Except SchedulerError (Req × Memory) :=
  if r.kv.kvCommittedFreed then .error (.committedFreed r.kv.kvCommittedLen)
  else
    let r' := { r with kv := { r.kv with kvCommittedFreed := true } }
    match m.tree with
    | .chunkCache =>
      .ok (r', m.free ((m.rows.slice row 0 r.kv.kvCommittedLen).filter (· ≠ 0)))
    | .radixCache f d =>
      let tokenIds := (r.originInputIds ++ r.outputIds).take r.kv.kvCommittedLen
      let kvIndices := m.rows.slice row 0 tokenIds.length
      if isInsert && !d then
        let (newPrefixLen, f') := f.insert (radixKey r.extraKey tokenIds) kvIndices
          (by simp [kvIndices, radixKey])
        .ok (r', { m.free ((kvIndices.take newPrefixLen).drop r.kv.cacheProtectedLen) with
          tree := (TreeCache.radixCache f' d).decLockRef r.kv.lastNode })
      else
        .ok (r', { m.free (kvIndices.drop r.kv.cacheProtectedLen) with
          tree := m.tree.decLockRef r.kv.lastNode })

/-- `cache_unfinished_req`: what prefill computed goes to the tree, for others to match. -/
def cacheUnfinishedReq (m : Memory) (r : Req) (row : ℕ) : Except SchedulerError (Req × Memory) :=
  let kvIndices := m.rows.slice row 0 r.kv.fillIds.length
  match m.tree with
  | .chunkCache => .ok ({ r with kv := { r.kv with prefixIndices := kvIndices } }, m)
  | .radixCache f d =>
    let (newPrefixLen, f₁) := f.insert (radixKey r.extraKey r.kv.fillIds) kvIndices
      (by simp [kvIndices, radixKey])
    let m₁ := m.free ((kvIndices.take newPrefixLen).drop r.kv.cacheProtectedLen)
    let (newIndices, newLastNode, tree) :=
      (TreeCache.radixCache f₁ d).matchPrefix r.extraKey r.kv.fillIds
    if newIndices.length ≠ r.kv.fillIds.length then
      .error (.matchAfterInsert newIndices.length r.kv.fillIds.length)
    else
      .ok ({ r with kv := { r.kv with
              cacheProtectedLen := newIndices.length
              prefixIndices := newIndices
              lastNode := newLastNode } },
        { m₁ with
          rows := m.rows.write row r.kv.cacheProtectedLen (newIndices.drop r.kv.cacheProtectedLen)
          tree := (tree.decLockRef r.kv.lastNode).incLockRef newLastNode })

/-- `release_kv_cache`: without speculative decoding nothing may be over-allocated. -/
def releaseKvCache (m : Memory) (r : Req) (isInsert : Bool) : Except SchedulerError (Req × Memory) :=
  match r.kv.reqPoolIdx with
  | none => .error .noReqPoolIdx
  | some row => do
    let (r, m) ← m.cacheFinishedReq r row isInsert
    if r.kv.kvOverallocatedFreed then
      .error (.overallocatedFreed r.kv.kvCommittedLen r.kv.kvAllocatedLen)
    else if r.kv.kvCommittedLen ≠ r.kv.kvAllocatedLen then
      .error (.overallocated r.kv.kvCommittedLen r.kv.kvAllocatedLen)
    else
      .ok ({ r with kv := { r.kv with kvOverallocatedFreed := true, reqPoolIdx := none } },
        { m with rows := m.rows.freeRow row })

end Memory

end LLM42
