import LLM42.Serving.Memory

/-! # Requests and their KV memory over time

The events of a server that touch KV memory, in any order: admission, chunks of a prefill, decode
steps, results, retraction and eviction. A request waits in the queue, is admitted with its cached
prefix locked, owns a row of the page table while it is live, and leaves. -/

namespace LLM42

/-- Requests live in a heap. Admitted requests have their prefix locked but no row yet; live ones
have a row. -/
structure ServingState (η β : Type*) where
  heap : ℕ → MemReq
  nextId : ℕ
  waitingQueue : List ℕ
  canRunList : List ℕ
  live : List ℕ
  memory : PagedMemory η β

inductive ResultOp where
  | sample (id : ℕ) (token : Token)
  | cacheUnfinished (id : ℕ)
  | finish (id : ℕ) (isInsert : Bool)
  | rollback (id : ℕ) (outputIds : List Token)

inductive ServingOp where
  | receive (r : MemReq)
  | lookup (key : RadixKey)
  | admitReq (id : ℕ) (truncLen : Option ℕ)
  | nextChunk (id : ℕ) (truncLen : Option ℕ)
  | extend (ids : List ℕ) (pick : List (List Page) → ℕ)
  | decode (ids : List ℕ) (pick : List (List Page) → ℕ)
  /-- Results of a prefill batch, or those of a decode batch, whose frees are grouped. -/
  | results (grouped : Bool) (ops : List ResultOp)
  | retract (id numTokens : ℕ) (pick : List (List Page) → ℕ)
  | evict (numTokens : ℕ) (pick : List (List Page) → ℕ)

def MemReq.IsNew (r : MemReq) : Prop :=
  r.outputIds = [] ∧ r.reqPoolIdx = none ∧ r.kvCommittedLen = 0 ∧ r.kvAllocatedLen = 0 ∧
    r.kvCommittedFreed = false ∧ r.kvOverallocatedFreed = false ∧
    r.encoderLen ≤ r.originInputIds.length
deriving Decidable

namespace ServingState

variable {η β : Type*} (cfg : RadixConfig η β) (s : ServingState η β)

def reqs (ids : List ℕ) : List MemReq := ids.map s.heap

def setReq (id : ℕ) (r : MemReq) : ServingState η β :=
  { s with heap := Function.update s.heap id r }

def setReqs (s : ServingState η β) : List ℕ → List MemReq → ServingState η β
  | id :: ids, r :: rs => setReqs (s.setReq id r) ids rs
  | _, _ => s

def applyResult (s : ServingState η β) : ResultOp → Except MemoryError (ServingState η β)
  | .sample id token =>
    .ok (s.setReq id { s.heap id with outputIds := (s.heap id).outputIds ++ [token] })
  | .cacheUnfinished id =>
    match (s.heap id).reqPoolIdx with
    | none => .error .noReqPoolIdx
    | some idx => match s.memory.cacheUnfinishedReq cfg (s.heap id) idx with
      | .error e => .error e
      | .ok (r, memory) => .ok { s.setReq id r with memory }
  | .finish id isInsert =>
    match s.memory.releaseKvCache cfg (s.heap id) isInsert with
    | .error e => .error e
    | .ok (r, memory) => .ok { s.setReq id r with memory, live := s.live.erase id }
  | .rollback id outputIds =>
    match (s.heap id).reqPoolIdx with
    | none => .error .noReqPoolIdx
    | some idx =>
      let (r, memory) := s.memory.rollback (s.heap id) idx outputIds
      .ok { s.setReq id r with memory }

def applyResults (s : ServingState η β) : List ResultOp → Except MemoryError (ServingState η β)
  | [] => .ok s
  | op :: ops => match s.applyResult cfg op with
    | .error e => .error e
    | .ok s => applyResults s ops

def freeGroupBegin : ServingState η β :=
  { s with memory := { s.memory with allocator := s.memory.allocator.freeGroupBegin } }

def freeGroupEnd : ServingState η β :=
  { s with memory := { s.memory with allocator := s.memory.allocator.freeGroupEnd } }

def releaseReq (id numTokens : ℕ) (pick : List (List Page) → ℕ) :
    Except MemoryError (ServingState η β) :=
  match s.memory.releaseKvCache cfg (s.heap id) false with
  | .error e => .error e
  | .ok (r, memory) =>
    let memory := memory.evictFromTreeCache cfg pick numTokens
    .ok { s.setReq id r.resetForRetract with
      memory
      live := s.live.erase id
      waitingQueue := s.waitingQueue ++ [id] }

def step (s : ServingState η β) : ServingOp → Except MemoryError (ServingState η β)
  | .receive r => .ok
      { s with
        heap := Function.update s.heap s.nextId r
        nextId := s.nextId + 1
        waitingQueue := s.waitingQueue ++ [s.nextId] }
  | .lookup key =>
    .ok { s with memory := { s.memory with cache := (s.memory.cache.matchPrefix cfg key).2.2 } }
  | .admitReq id truncLen =>
    let (r, memory) := s.memory.admitReq cfg (s.heap id) truncLen
    .ok { s.setReq id r with
      memory
      waitingQueue := s.waitingQueue.erase id
      canRunList := s.canRunList ++ [id] }
  | .nextChunk id truncLen => .ok (s.setReq id (PagedMemory.nextChunk (s.heap id) truncLen))
  | .extend ids pick =>
    match s.memory.prepareForExtend cfg pick (s.reqs ids) with
    | .error e => .error e
    | .ok (rs, memory) => .ok
        { s.setReqs ids rs with
          memory
          canRunList := s.canRunList.filter (· ∉ ids)
          live := s.live ++ ids.filter (· ∈ s.canRunList) }
  | .decode ids pick =>
    match s.memory.prepareForDecode cfg pick (s.reqs ids) with
    | .error e => .error e
    | .ok (rs, memory) => .ok { s.setReqs ids rs with memory }
  | .results grouped ops =>
    if grouped then (s.freeGroupBegin.applyResults cfg ops).map freeGroupEnd
    else s.applyResults cfg ops
  | .retract id numTokens pick => s.releaseReq cfg id numTokens pick
  | .evict numTokens pick => .ok { s with memory := s.memory.evict cfg pick numTokens }

/-- When a result is processed: the request is live, what it caches has been computed, it is
released once its tokens are known, and a rollback keeps the accepted output and follows a decode
step whose token is known. -/
def ResultAllowed (s : ServingState η β) : ResultOp → Prop
  | .sample id _ => id ∈ s.live
  | .cacheUnfinished id =>
    id ∈ s.live ∧ (s.heap id).fillIds.length ≤ (s.heap id).kvCommittedLen
  | .finish id _ => id ∈ s.live ∧ (s.heap id).kvCommittedLen ≤ (s.heap id).tokens.length
  | .rollback id outputIds => id ∈ s.live ∧
    (s.heap id).kvCommittedLen + 1 = (s.heap id).tokens.length ∧ outputIds ≠ [] ∧
    outputIds.length ≤ (s.heap id).outputIds.length ∧
    outputIds.dropLast <+: (s.heap id).outputIds

instance (op : ResultOp) : Decidable (s.ResultAllowed op) := by
  cases op <;> unfold ResultAllowed <;> infer_instance

def ResultsAllowed (P : ServingState η β → ResultOp → Prop) (s : ServingState η β) :
    List ResultOp → Prop
  | [] => True
  | op :: ops => P s op ∧ match s.applyResult cfg op with
    | .ok t => ResultsAllowed P t ops
    | .error _ => True

instance decidableResultsAllowed (P : ServingState η β → ResultOp → Prop)
    [∀ s op, Decidable (P s op)] : (s : ServingState η β) → (ops : List ResultOp) →
    Decidable (ResultsAllowed cfg P s ops)
  | _, [] => .isTrue trivial
  | s, op :: ops => by
    unfold ResultsAllowed
    cases h : s.applyResult cfg op with
    | error e => infer_instance
    | ok t =>
      have := decidableResultsAllowed P t ops
      infer_instance

/-- When an event happens. A chunk follows the insertion of the one before it; prefills of
encoder-decoder models are not chunked. A decode step may run one token ahead of the results. -/
def Allowed (P : ServingState η β → ResultOp → Prop) (s : ServingState η β) : ServingOp → Prop
  | .receive r => r.IsNew
  | .lookup _ => True
  | .admitReq id truncLen => id ∈ s.waitingQueue ∧ (truncLen = none ∨ (s.heap id).encoderLen = 0)
  | .nextChunk id truncLen => id ∈ s.live ∧
    (s.heap id).prefixIndices.length = (s.heap id).kvCommittedLen ∧
    (truncLen = none ∨ (s.heap id).encoderLen = 0)
  | .extend ids _ => ids.Nodup ∧ ∀ id ∈ ids, id ∈ s.canRunList ∨
    (id ∈ s.live ∧ (s.heap id).prefixIndices.length = (s.heap id).kvCommittedLen)
  | .decode ids _ => ids.Nodup ∧ ∀ id ∈ ids, id ∈ s.live ∧
    (s.heap id).kvCommittedLen ≤ (s.heap id).tokens.length
  | .results grouped ops =>
    ResultsAllowed cfg P (if grouped then s.freeGroupBegin else s) ops
  | .retract id _ _ => id ∈ s.live ∧ (s.heap id).kvCommittedLen ≤ (s.heap id).tokens.length
  | .evict _ _ => True

instance (P : ServingState η β → ResultOp → Prop) [∀ s op, Decidable (P s op)] (op : ServingOp) :
    Decidable (s.Allowed cfg P op) := by
  cases op <;> unfold Allowed <;> infer_instance

def create (size numRows : ℕ) (needSort : Bool) (cache : PrefixCache η β) : ServingState η β where
  heap _ := { originInputIds := [] }
  nextId := 0
  waitingQueue := []
  canRunList := []
  live := []
  memory :=
    { allocator := KVAllocator.create size cfg.pageSize needSort
      rows := ReqToTokenPool.create numRows
      cache }

def startCaches : List (PrefixCache η β) :=
  [.chunkCache, .radixCache true (RadixCache.reset cfg {}), .radixCache false (RadixCache.reset cfg {})]

def Started (s : ServingState η β) : Prop :=
  0 < cfg.pageSize ∧ ∃ size numRows needSort, ∃ cache ∈ startCaches cfg,
    s = create cfg size numRows needSort cache

end ServingState

end LLM42
