import LLM42.Serving.State

/-! # The prefill adder

`PrefillAdder` of `managers/schedule_policy.py`: it offers waiting requests to the next prefill
batch, one after the other, against a budget of KV tokens, input tokens and chunk tokens. A request
that is admitted keeps its cached prefix locked. -/

namespace LLM42

open Library (pageCount)

structure ReqParams where
  maxNewTokens : ℕ := 128
  ignoreEos : Bool := false

/-- What an adder is created with, apart from the budgets; `allowPrefill` is what the prefill delayer
has negotiated for this pass. -/
structure AdderConfig where
  params : ℕ → ReqParams
  newTokenRatio : ℚ
  newTokenRatio_nonneg : 0 ≤ newTokenRatio
  clipMaxNewTokens : ℕ := 4096
  nsaPrefillCpInSeqSplit : Bool := false
  prefillMaxRequests : Option ℕ := none
  allowPrefill : Bool := true
  truncationAlignSize : Option ℕ := none

inductive AddReqResult where
  | continueAdding
  | noToken
  | other
deriving DecidableEq

structure PrefillAdder where
  runningBatch : List ℕ
  remInputTokens : ℤ
  remChunkTokens : Option ℤ
  remTotalTokenOffset : ℚ
  curRemTokenOffset : ℤ
  reqStates : Option (List (ℚ × ℕ)) := none
  canRunList : List ℕ := []
  newChunkedReq : Option ℕ := none

def PrefixCache.disable {η β : Type*} : PrefixCache η β → Bool
  | chunkCache => true
  | radixCache disable _ => disable

def PagedMemory.availableAndEvictable {η β : Type*} (m : PagedMemory η β) : ℤ :=
  m.allocator.availableSize + m.cache.evictableSize

def PagedMemory.initNextRoundInput {η β : Type*} (cfg : RadixConfig η β) (m : PagedMemory η β)
    (r : MemReq) : MemReq × PagedMemory η β :=
  let (prefixIndices, lastNode, cache) :=
    m.cache.matchPrefix cfg (r.radixKey (r.tokens.take r.maxPrefixLen))
  ({ r with
      fillIds := r.tokens
      prefixIndices
      lastNode
      cacheProtectedLen := prefixIndices.length
      extendInputLen := r.tokens.length - prefixIndices.length },
    { m with cache })

def MemReq.truncate (r : MemReq) (truncLen : ℕ) : MemReq :=
  { r with
    extendInputLen := truncLen
    fillIds := r.fillIds.take (r.prefixIndices.length + truncLen) }

namespace ServingState

variable {η β : Type*} (cfg : RadixConfig η β) (s : ServingState η β)

def initNextRoundInput (id : ℕ) : ServingState η β :=
  let (r, memory) := s.memory.initNextRoundInput cfg (s.heap id)
  { s.setReq id r with memory }

def incLockRef (node : Option (List Page)) : ServingState η β :=
  { s with memory := { s.memory with cache := s.memory.cache.incLockRef node } }

def decLockRef (node : Option (List Page)) : ServingState η β :=
  { s with memory := { s.memory with cache := s.memory.cache.decLockRef node } }

end ServingState

namespace PrefillAdder

variable {η β : Type*} (cfg : RadixConfig η β) (env : AdderConfig)

def ceilPagedTokens (pageSize tokens : ℕ) : ℕ := pageCount pageSize tokens * pageSize

def runningRequestTotalTokenOffset (s : ServingState η β) (id : ℕ) : ℚ :=
  min (((env.params id).maxNewTokens : ℚ) - (s.heap id).outputIds.length) env.clipMaxNewTokens *
    env.newTokenRatio

def create (s : ServingState η β) (runningBatch : List ℕ) (remInputTokens : ℤ)
    (remChunkTokens : Option ℤ) (mixedWithDecodeTokens : ℕ) : PrefillAdder where
  runningBatch
  remInputTokens := remInputTokens - mixedWithDecodeTokens
  remChunkTokens := remChunkTokens.map (· - mixedWithDecodeTokens)
  remTotalTokenOffset := mixedWithDecodeTokens +
    (runningBatch.map (runningRequestTotalTokenOffset env s)).sum
  curRemTokenOffset := mixedWithDecodeTokens

def remTotalTokens (a : PrefillAdder) (m : PagedMemory η β) : ℚ :=
  m.availableAndEvictable - a.remTotalTokenOffset

def curRemTokens (a : PrefillAdder) (m : PagedMemory η β) : ℤ :=
  m.availableAndEvictable - a.curRemTokenOffset

def budgetState (a : PrefillAdder) (m : PagedMemory η β) : AddReqResult :=
  if a.remTotalTokens m ≤ 0 ∨ a.curRemTokens m ≤ 0 then .noToken
  else if a.remInputTokens ≤ 0 then .other
  else match a.remChunkTokens with
    | some n => if n ≤ 0 then .other else .continueAdding
    | none => .continueAdding

def updatePrefillBudget (a : PrefillAdder) (extendInputLen maxNewTokens : ℕ) : PrefillAdder :=
  let extendInputLen := ceilPagedTokens cfg.pageSize extendInputLen
  { a with
    remTotalTokenOffset := a.remTotalTokenOffset + (extendInputLen + maxNewTokens : ℕ)
    curRemTokenOffset := a.curRemTokenOffset + extendInputLen
    remInputTokens := a.remInputTokens - extendInputLen
    remChunkTokens := a.remChunkTokens.map (· - extendInputLen) }

/-- `add_req_state`; inserting keeps the order, except that what is larger than every entry goes
before the last one. -/
def addReqState (s : ServingState η β) (insertSort : Bool) (states : List (ℚ × ℕ)) (id : ℕ) :
    List (ℚ × ℕ) :=
  let p := env.params id
  let r := s.heap id
  let newTokenRatio := if p.ignoreEos then 1 else env.newTokenRatio
  let tokensLeft := p.maxNewTokens * newTokenRatio - r.outputIds.length
  let tokensOccupied := r.originInputIds.length + r.outputIds.length
  if tokensLeft ≤ 0 then states
  else if insertSort then
    let i := (states.findIdx? fun x => tokensLeft ≤ x.1).getD (states.length - 1)
    states.insertIdx i (tokensLeft, tokensOccupied)
  else states ++ [(tokensLeft, tokensOccupied)]

/-- The loop over `req_states`: whether the tokens run out before the requests are done. -/
def runsOut (curRemTokens : ℚ) : ℚ → List (ℚ × ℕ) → Bool
  | _, [] => false
  | tokensFreed, (tokensLeft, tokensOccupied) :: states =>
    let bs : ℚ := states.length + 1
    if curRemTokens + tokensFreed - tokensLeft * bs ≤ bs then true
    else runsOut curRemTokens (tokensFreed + tokensOccupied) states

def nextReqStates (a : PrefillAdder) (s : ServingState η β) (id : ℕ) : List (ℚ × ℕ) :=
  match a.reqStates with
  | none => ((id :: a.runningBatch ++ a.canRunList).foldl (addReqState env s false) []).mergeSort
      fun x y => x.1 ≤ y.1
  | some states => addReqState env s true states id

def admitWhole (a : PrefillAdder) (id inputTokens : ℕ) : PrefillAdder :=
  updatePrefillBudget cfg { a with canRunList := a.canRunList ++ [id] } inputTokens
    (min (env.params id).maxNewTokens env.clipMaxNewTokens)

def admitTruncated (a : PrefillAdder) (id truncLen : ℕ) : PrefillAdder :=
  updatePrefillBudget cfg
    { a with canRunList := a.canRunList ++ [id], newChunkedReq := some id } truncLen 0

def addOneReqIgnoreEos (a : PrefillAdder) (s : ServingState η β) (id : ℕ) :
    AddReqResult × PrefillAdder × ServingState η β :=
  let r := s.heap id
  let inputTokens := ceilPagedTokens cfg.pageSize r.extendInputLen
  if min (a.curRemTokens s.memory : ℚ) (a.remTotalTokens s.memory) < inputTokens then
    (.noToken, a, s)
  else
    let states := a.nextReqStates env s id
    let a := { a with reqStates := some states }
    if runsOut (a.curRemTokens s.memory - inputTokens) 0 states then (.noToken, a, s)
    else
      let whole := a.admitWhole cfg env id r.extendInputLen
      match a.remChunkTokens with
      | none => (whole.budgetState s.memory, whole, s)
      | some n =>
        if r.extendInputLen ≤ n then (whole.budgetState s.memory, whole, s)
        else if n ≤ 0 then (.other, a, s)
        else
          let truncated := a.admitTruncated cfg id n.toNat
          (truncated.budgetState s.memory, truncated,
            s.setReq id { r with extendInputLen := n.toNat, fillIds := r.fillIds.take n.toNat })

/-- The part of `add_one_req` under `_lock_node`; the result is there when it returns early. -/
def addLocked (a : PrefillAdder) (s : ServingState η β) (id totalTokens : ℕ) :
    Option AddReqResult × PrefillAdder × ServingState η β :=
  let r := s.heap id
  let inputTokens := ceilPagedTokens cfg.pageSize r.extendInputLen
  if a.remTotalTokens s.memory ≤ totalTokens then (some .noToken, a, s)
  else if a.remInputTokens ≤ inputTokens ∧ a.canRunList ≠ [] then (some .other, a, s)
  else if env.allowPrefill = false then (some .other, a, s)
  else
    let locked := s.incLockRef r.lastNode
    let whole := a.admitWhole cfg env id inputTokens
    match a.remChunkTokens with
    | none => (none, whole, locked)
    | some n =>
      if inputTokens ≤ n then (none, whole, locked)
      else
        -- at least one page must be available
        let truncLen := (n / cfg.pageSize * cfg.pageSize).toNat
        if truncLen = 0 then (some .other, a, s)
        else
          let cut (truncLen : ℕ) : Option AddReqResult × PrefillAdder × ServingState η β :=
            (none, a.admitTruncated cfg id truncLen, locked.setReq id (r.truncate truncLen))
          match env.truncationAlignSize with
          | none => cut truncLen
          | some align =>
            if truncLen < align then (some .other, a, s) else cut (align * (truncLen / align))

def addOneReq (a : PrefillAdder) (s : ServingState η β) (id : ℕ) :
    AddReqResult × PrefillAdder × ServingState η β :=
  let r := s.heap id
  let p := env.params id
  if env.nsaPrefillCpInSeqSplit ∧ 1 ≤ a.canRunList.length then (.other, a, s)
  else if env.prefillMaxRequests.any (· ≤ a.canRunList.length) then (.other, a, s)
  else if p.ignoreEos ∧ s.memory.cache.disable then a.addOneReqIgnoreEos cfg env s id
  else
    let totalTokens := r.extendInputLen +
      min (p.maxNewTokens - r.outputIds.length) env.clipMaxNewTokens
    let realInputTokens := ceilPagedTokens cfg.pageSize r.extendInputLen
    if a.remTotalTokens s.memory ≤ totalTokens then (.noToken, a, s)
    else if a.remInputTokens ≤ realInputTokens ∧ a.canRunList ≠ [] then (.other, a, s)
    else
      let (res, a, s) := a.addLocked cfg env (s.incLockRef r.lastNode) id totalTokens
      let s := s.decLockRef r.lastNode
      (res.getD (a.budgetState s.memory), a, s)

def addReqs (a : PrefillAdder) (s : ServingState η β) : List ℕ → PrefillAdder × ServingState η β
  | [] => (a, s)
  | id :: ids =>
    match a.addOneReq cfg env (s.initNextRoundInput cfg id) id with
    | (.continueAdding, a, s) => addReqs a s ids
    | (_, a, s) => (a, s)

end PrefillAdder

end LLM42
