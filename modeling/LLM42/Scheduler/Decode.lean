import LLM42.Scheduler.State

/-! # Decode

One decode step of the running batch: `prepare_for_decode`, `process_batch_result_decode` with
verification and rollback, and `retract_decode`. -/

namespace LLM42

/-- What the verification forward pass answers, for each request and each row of its window. -/
structure Verdict where
  tokens : ReqId → ℕ → Token
  logprobs : Option (ReqId → ℕ → Logprob) := none

namespace Verdict

def locate : List (ReqId × ℕ) → ℕ → Option (ReqId × ℕ)
  | [], _ => none
  | (id, len) :: rest, i => if i < len then some (id, i) else locate rest (i - len)

/-- The answers laid out as the rows of a verification batch; dummy rows stand at its end. -/
def forward (v : Verdict) (b : VerifyBatch) : VerifyOutput where
  tokenIds i := (locate (b.reqIds.zip b.extendLens) i).elim dummyTokenId fun x => v.tokens x.1 x.2
  logprobs := v.logprobs.map fun lps i =>
    (locate (b.reqIds.zip b.extendLens) i).elim 0 fun x => lps x.1 x.2

def run (v : Verdict) (b : VerifyBatch) (device : Unit) : VerifyOutput × Unit :=
  (v.forward b, device)

end Verdict

def Req.advanced (r : Req) : Req :=
  { r with kv := { r.kv with
      decodeBatchIdx := r.kv.decodeBatchIdx + 1
      kvCommittedLen := r.kv.kvCommittedLen + 1
      kvAllocatedLen := r.kv.kvAllocatedLen + 1 } }

def Req.rolledBack (n : ℕ) (r : Req) : Req :=
  { r with kv := { r.kv with
      kvCommittedLen := r.kv.kvCommittedLen - n
      kvAllocatedLen := r.kv.kvAllocatedLen - n
      decodeBatchIdx := r.kv.decodeBatchIdx - n } }

namespace Scheduler

def extendRow (s : Scheduler) (e : BatchEntry) (loc : ℕ) : Scheduler :=
  let r := s.heap e.req
  (s.setMemory { s.memory with rows := s.memory.rows.write e.reqPoolIdx e.seqLen [loc] }).setReq e.req
    r.advanced

def extendRows : ScheduleBatch → List ℕ → Scheduler → Scheduler
  | e :: es, loc :: locs, s => extendRows es locs (s.extendRow e loc)
  | _, _, s => s

/-- `prepare_for_decode`: the batch's own last tokens become the input. -/
def prepareForDecode (s : Scheduler) (victims : List NodeRef) : Except SchedulerError Scheduler := do
  let (outCacheLoc, m) ← s.memory.allocTokenSlots s.runningBatch.length victims
  let s := extendRows s.runningBatch outCacheLoc (s.setMemory m)
  .ok { s with
    runningBatch := s.runningBatch.map fun e =>
      { e with inputId := e.outputId, seqLen := e.seqLen + 1 } }

def setOutputIds (s : Scheduler) (tokens : ReqId → Token) : Scheduler :=
  { s with runningBatch := s.runningBatch.map fun e => { e with outputId := tokens e.req } }

def decodeResult (cfg : SchedulerConfig) (tokens : ReqId → Token) (logitsOf : ReqId → LogitsRow)
    (s : Scheduler) (id : ReqId) : Except SchedulerError Scheduler := do
  let r := (s.heap id).decodeToken (tokens id) (logitsOf id)
  let s ← if r.finished && !(cfg.args.enableLlm42 && r.isDeterministic) then s.finishReq id r
    else .ok (s.setReq id r)
  .ok (s.acceptGrammar [] id (tokens id))

/-- Free the slots behind the corrected token and take back the counters. -/
def rollback (s : Scheduler) (x : ReqId × ℕ) : Except SchedulerError Scheduler :=
  let r := s.heap x.1
  match r.kv.reqPoolIdx with
  | none => .error .noReqPoolIdx
  | some row =>
    let startFreePos := r.originInputIds.length + (r.outputIds.length - 1)
    let endFreePos := startFreePos + x.2
    .ok ((s.setMemory
        (s.memory.free ((s.memory.rows.slice row startFreePos endFreePos).filter (· ≠ 0)))).setReq x.1
      (r.rolledBack x.2))

def recheck (s : Scheduler) (id : ReqId) : Except SchedulerError Scheduler :=
  let r := s.heap id
  if r.kv.isRetracted || !r.isDeterministic then .ok s
  else if r.completed then .ok s
  else if r.checkFinished.finished then s.finishReq id r.checkFinished
  else .ok (s.setReq id r.checkFinished)

def toVerifyState (s : Scheduler) : VerifyState Unit :=
  ⟨s.heap, s.runningBatch, s.memory.allocator, ()⟩

def ofVerifyState (s : Scheduler) (v : VerifyState Unit) : Scheduler :=
  { s with
    heap := v.heap
    runningBatch := v.batch
    memory := { s.memory with allocator := v.allocator } }

def verifyRequests (cfg : SchedulerConfig) (s : Scheduler) (verdict : Verdict) :
    Except SchedulerError (Scheduler × List (ReqId × ℕ)) :=
  match cfg.worker.checkAndVerifyDeterministicRequests verdict.run s.memory.rows
      s.toVerifyState with
  | .error e => .error (.verify e)
  | .ok (v, rollbackResults) => .ok (s.ofVerifyState v, rollbackResults)

def verifyAndRollback (cfg : SchedulerConfig) (s : Scheduler) (verdict : Verdict) :
    Except SchedulerError Scheduler := do
  let (s, rollbackResults) ← s.verifyRequests cfg verdict
  let s ← rollbackResults.foldlM rollback s
  s.running.foldlM recheck s

def freeGroupBegin (s : Scheduler) : Scheduler :=
  s.setMemory { s.memory with allocator := s.memory.allocator.freeGroupBegin }

def freeGroupEnd (s : Scheduler) : Scheduler :=
  s.setMemory { s.memory with allocator := s.memory.allocator.freeGroupEnd }

def processBatchResultDecode (cfg : SchedulerConfig) (s : Scheduler) (tokens : ReqId → Token)
    (logitsOf : ReqId → LogitsRow) (verdict : Verdict) : Except SchedulerError Scheduler := do
  let s := s.freeGroupBegin
  let s ← s.running.foldlM (decodeResult cfg tokens logitsOf) s
  let s ← if cfg.args.enableLlm42 then s.verifyAndRollback cfg verdict else .ok s
  .ok (s.streamOutput cfg.args s.running).freeGroupEnd

def filterBatch (s : Scheduler) : Scheduler :=
  { s with runningBatch := s.runningBatch.filter fun e => s.isUnfinished e.req }

def decode (cfg : SchedulerConfig) (s : Scheduler) (tokens : ReqId → Token)
    (logitsOf : ReqId → LogitsRow) (verdict : Verdict) (victims : List NodeRef) :
    Except SchedulerError Scheduler :=
  if s.filterBatch.runningBatch.isEmpty then .ok s.filterBatch
  else do
    let s ← s.filterBatch.prepareForDecode victims
    (s.setOutputIds tokens).processBatchResultDecode cfg tokens logitsOf verdict

/-- `reset_for_retract`: output and verified count are kept. -/
def resetForRetract (r : Req) : Req :=
  { r with kv := { r.kv with
      retractionCount := r.kv.retractionCount + 1
      prefixIndices := []
      lastNode := none
      isRetracted := true
      kvAllocatedLen := 0
      kvCommittedLen := 0
      kvCommittedFreed := false
      kvOverallocatedFreed := false
      extendBatchIdx := 0
      decodeBatchIdx := 0 } }

def releaseReq (victims : ReqId → List NodeRef) (s : Scheduler) (id : ReqId) :
    Except SchedulerError Scheduler := do
  let (r, m) ← s.memory.releaseKvCache (s.heap id) false
  .ok ((s.setMemory (m.evict (victims id))).setReq id (resetForRetract r))

/-- `retract_decode`: `ids` go back to the queue, at least one request stays. -/
def retract (s : Scheduler) (ids : List ReqId) (victims : ReqId → List NodeRef) :
    Except SchedulerError Scheduler :=
  let s := s.filterBatch
  if ids.Nodup ∧ (∀ id ∈ ids, id ∈ s.running) ∧ ids.length < s.runningBatch.length then do
    let s ← ids.foldlM (releaseReq victims) s
    .ok { s with
      runningBatch := s.runningBatch.filter fun e => decide (e.req ∉ ids)
      waitingQueue := s.waitingQueue ++ ids }
  else .ok s

end Scheduler

end LLM42
