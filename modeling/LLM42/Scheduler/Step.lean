import LLM42.Scheduler.Decode

/-! # Prefill and scheduler runs

One extend batch, from the waiting queue to the running batch: prefix match and lock, allocation,
`process_batch_result_prefill`, and the merge of what goes on decoding. One turn of
`event_loop_normal` is one event. Which requests are admitted or retracted, which tokens are sampled,
what the verifier answers and what the tree evicts are all open. -/

namespace LLM42

namespace Req

def maxPrefixLen (r : Req) : ℕ :=
  let inputLen := r.originInputIds.length + r.outputIds.length
  if r.returnLogprob && decide (0 ≤ r.logprobStartLen) then
    min (inputLen - 1) r.logprobStartLen.toNat
  else inputLen - 1

def extendInputLen (r : Req) : ℕ := r.kv.fillIds.length - r.kv.prefixIndices.length

def matched (indices : List ℕ) (node : Option NodeRef) (r : Req) : Req :=
  { r with kv := { r.kv with
      fillIds := r.originInputIds ++ r.outputIds
      prefixIndices := indices
      lastNode := node
      cacheProtectedLen := indices.length } }

def assigned (row : ℕ) (r : Req) : Req :=
  { r with kv := { r.kv with
      reqPoolIdx := some row
      kvCommittedLen := r.kv.fillIds.length
      kvAllocatedLen := r.kv.fillIds.length
      extendBatchIdx := r.kv.extendBatchIdx + 1
      isRetracted := false } }

end Req

namespace Scheduler

def initNextRoundInput (s : Scheduler) (id : ReqId) : Scheduler :=
  let r := s.heap id
  let fillIds := r.originInputIds ++ r.outputIds
  let (indices, node, tree) := s.memory.tree.matchPrefix r.extraKey (fillIds.take r.maxPrefixLen)
  (s.setMemory { s.memory with tree := tree.incLockRef node }).setReq id (r.matched indices node)

def assignRow (s : Scheduler) (id : ReqId) (row : ℕ) (locs : List ℕ) : Scheduler :=
  let r := s.heap id
  let rows := (s.memory.rows.write row 0 r.kv.prefixIndices).write row r.kv.prefixIndices.length locs
  (s.setMemory { s.memory with rows }).setReq id (r.assigned row)

/-- `write_cache_indices` over the batch; each request takes the next `extend_input_len` slots. -/
def assignRows : List (ReqId × ℕ) → List ℕ → Scheduler → Scheduler
  | [], _, s => s
  | (id, row) :: rest, outCacheLoc, s =>
    let n := (s.heap id).extendInputLen
    assignRows rest (outCacheLoc.drop n) (s.assignRow id row (outCacheLoc.take n))

def allocForExtend (s : Scheduler) (ids : List ReqId) (victims : List NodeRef) :
    Except SchedulerError (List ℕ × Scheduler) := do
  let (rows, m) ← s.memory.allocReqSlots ids.length
  let (outCacheLoc, m) ← m.allocTokenSlots (ids.map fun id => (s.heap id).extendInputLen).sum victims
  .ok (rows, assignRows (ids.zip rows) outCacheLoc (s.setMemory m))

def cacheUnfinished (s : Scheduler) (id : ReqId) (r : Req) : Except SchedulerError Scheduler :=
  match r.kv.reqPoolIdx with
  | none => .error .noReqPoolIdx
  | some row => do
    let (r, m) ← s.memory.cacheUnfinishedReq r row
    .ok ((s.setMemory m).setReq id r)

def prefillResult (cfg : SchedulerConfig) (ids : List ReqId) (tokens : ReqId → Token)
    (logitsOf : ReqId → LogitsRow) (s : Scheduler) (id : ReqId) : Except SchedulerError Scheduler :=
  if (s.heap id).finished || (s.heap id).kv.isRetracted then .ok s
  else do
    let r := (s.heap id).prefillToken cfg.args.enableLlm42 (tokens id) (logitsOf id)
    let s ← if r.finished then s.finishReq id r else s.cacheUnfinished id r
    .ok (s.acceptGrammar ids id (tokens id))

def extendEntries (s : Scheduler) (tokens : ReqId → Token) (idRows : List (ReqId × ℕ)) :
    ScheduleBatch :=
  idRows.map fun x => ⟨x.1, 0, tokens x.1, (s.heap x.1).kv.fillIds.length, x.2⟩

/-- One extend batch over `ids`, any choice from the waiting queue. -/
def extend (cfg : SchedulerConfig) (s : Scheduler) (ids : List ReqId) (tokens : ReqId → Token)
    (logitsOf : ReqId → LogitsRow) (victims : List NodeRef) : Except SchedulerError Scheduler :=
  if ids.Nodup ∧ ∀ id ∈ ids, id ∈ s.waitingQueue then do
    let s := { s with waitingQueue := s.waitingQueue.filter fun id => decide (id ∉ ids) }
    let (rows, s) ← (ids.foldl initNextRoundInput s).allocForExtend ids victims
    let entries := s.extendEntries tokens (ids.zip rows)
    let s ← ids.foldlM (prefillResult cfg ids tokens logitsOf) s
    let s := s.streamOutput cfg.args ids
    .ok { s with
      runningBatch := s.runningBatch ++ entries.filter fun e => s.isUnfinished e.req }
  else .ok s

end Scheduler

inductive SchedulerEvent where
  | receive (r : Req)
  | extend (ids : List ReqId) (tokens : ReqId → Token) (logitsOf : ReqId → LogitsRow)
      (victims : List NodeRef)
  | decode (tokens : ReqId → Token) (logitsOf : ReqId → LogitsRow) (verdict : Verdict)
      (victims : List NodeRef)
  | retract (ids : List ReqId) (victims : ReqId → List NodeRef)
  | abort (rid : String) (abortAll : Bool)
  | runningTimeout (overdue : ReqId → Bool)
  | flushCache

namespace Scheduler

def step (cfg : SchedulerConfig) (s : Scheduler) : SchedulerEvent → Except SchedulerError Scheduler
  | .receive r => .ok (s.receive r)
  | .extend ids tokens logitsOf victims => s.extend cfg ids tokens logitsOf victims
  | .decode tokens logitsOf verdict victims => s.decode cfg tokens logitsOf verdict victims
  | .retract ids victims => s.retract ids victims
  | .abort rid abortAll => .ok (s.abortRequest [] rid abortAll)
  | .runningTimeout overdue => .ok (s.abortOnRunningTimeout overdue)
  | .flushCache => .ok s.flushCache

/-- The scheduler right after start-up: fresh pools, from which the verification pool, if there is
one, has taken its share. -/
structure Boots (cfg : SchedulerConfig) (s : Scheduler) : Prop where
  nextId : s.nextId = 0
  waitingQueue : s.waitingQueue = []
  runningBatch : s.runningBatch = []
  messages : s.messages = []
  tree : s.memory.tree = s.memory.tree.reset
  pools : ∃ size needSort numRows, match cfg.worker.fixedPool with
    | none => s.memory.allocator = .create size needSort ∧ s.memory.rows = .create numRows
    | some pool => FixedSizeVerificationPool.create pool.fixedSize pool.windowSize
        (.create numRows) (.create size needSort) = (some pool, s.memory.rows, s.memory.allocator)

def idle (memory : Memory) : Scheduler where
  heap _ := { rid := "", originInputIds := [], vocabSize := 0, samplingParams := {} }
  nextId := 0
  waitingQueue := []
  runningBatch := []
  memory := memory
  messages := []

/-- Start-up of a worker whose fixed pool fits into fresh pools. -/
theorem boots_idle (args : ServerArgs) (alwaysAlign : Bool) (fixedRequestsPerVerify : ℕ)
    (skipMismatch : ℚ) (mismatchPercentage : MismatchPercentage) (windowSize size numRows : ℕ)
    (needSort : Bool) (tree : TreeCache)
    (hfixed : 0 < fixedRequestsPerVerify) (hwindow : 0 < windowSize) (htree : tree = tree.reset)
    (hpool : (FixedSizeVerificationPool.create fixedRequestsPerVerify windowSize (.create numRows)
      (.create size needSort)).1.isSome) :
    let started := LLM42Worker.init alwaysAlign fixedRequestsPerVerify skipMismatch
      mismatchPercentage windowSize (.create numRows) (.create size needSort) hfixed hwindow
    Boots ⟨args, started.1⟩ (idle ⟨started.2.2, started.2.1, tree⟩) := by
  obtain ⟨pool, hsome⟩ := Option.isSome_iff_exists.mp hpool
  refine ⟨rfl, rfl, rfl, rfl, htree, size, needSort, numRows, ?_⟩
  simp only [LLM42Worker.init, hsome]
  obtain ⟨hf, hw⟩ := FixedSizeVerificationPool.create_sizes hsome
  rw [hf, hw]
  exact Prod.ext hsome rfl

/-- Windows of two tokens, two requests to a pass, forty slots. -/
def smallServer : LLM42Worker × ReqToTokenPool × TokenToKVPoolAllocator :=
  LLM42Worker.init true 2 100 .whole 2 (.create 4) (.create 40 false) (by decide) (by decide)

def smallStart (tree : TreeCache) : Scheduler := idle ⟨smallServer.2.2, smallServer.2.1, tree⟩

theorem boots_smallStart {tree : TreeCache} (htree : tree = tree.reset) :
    Boots ⟨{}, smallServer.1⟩ (smallStart tree) :=
  boots_idle {} true 2 100 .whole 2 40 4 false tree (by decide) (by decide) htree (by decide +kernel)

end Scheduler

def smallReq : Req :=
  { rid := "a", originInputIds := [1, 2], vocabSize := 1000,
    samplingParams := { isDeterministic := true } }

/-- A request that has decoded one token behind its prefill token. -/
def oneTokenIn (r : Req) : List SchedulerEvent :=
  [.receive r, .extend [0] (fun _ => 5) (fun _ => 0) [],
   .decode (fun _ => 6) (fun _ => 0) ⟨fun _ _ => 6, none⟩ []]

end LLM42
