import LLM42.Memory.TreeCache
import LLM42.Request.Stream
import LLM42.Verification.Worker

/-! # Scheduler state

The queues, the running batch and the pools of `managers/scheduler.py`, and the operations that
both batch kinds share. Chunked prefill and the overlap loop are off. -/

namespace LLM42

structure SchedulerConfig where
  args : ServerArgs
  worker : LLM42Worker

/-- Requests live in a heap; the queues and the batch refer to them. A message is kept with the
request it was built for. -/
structure Scheduler where
  heap : ReqId → Req
  nextId : ReqId
  waitingQueue : List ReqId
  runningBatch : ScheduleBatch
  memory : Memory
  messages : List (ReqId × StreamMessage)

def Req.isUnsent (r : Req) : Bool :=
  r.finishedLen.isNone && !r.finishedOutput && decide (r.sendTokenOffset = 0) &&
    decide (r.sendOutputTokenLogprobsOffset = 0) &&
    decide (r.outputTokenLogprobsVal = if r.returnLogprob then some [] else none) &&
    decide (r.outputTokenLogprobsIdx = if r.returnLogprob then some [] else none) &&
    decide (r.records = {})

/-- A request as the tokenizer manager hands it over. It may carry a grammar, or an abort when its
input was invalid. -/
def Req.isNew (r : Req) : Bool :=
  r.outputIds.isEmpty && decide (r.llm42VerifiedTokens = 0) &&
    decide (r.llm42TokensRolledBack = 0) && r.finishedReason.isNone && !r.completed &&
    decide (r.kv = {}) && r.isUnsent && decide (r.llm42NumVerificationWindows = 0) &&
    decide ((r.grammar.map (·.acceptedTokens)).getD [] = [])

structure Req.Initial (r : Req) : Prop where
  outputIds : r.outputIds = []
  verified : r.llm42VerifiedTokens = 0
  rolledBack : r.llm42TokensRolledBack = 0
  windows : r.llm42NumVerificationWindows = 0
  finishedReason : r.finishedReason = none
  finishedLen : r.finishedLen = none
  finishedOutput : r.finishedOutput = false
  completed : r.completed = false
  sendTokenOffset : r.sendTokenOffset = 0
  logprobsOffset : r.sendOutputTokenLogprobsOffset = 0
  logprobsVal : r.outputTokenLogprobsVal = if r.returnLogprob then some [] else none
  logprobsIdx : r.outputTokenLogprobsIdx = if r.returnLogprob then some [] else none
  records : r.records = {}
  grammar : (r.grammar.map (·.acceptedTokens)).getD [] = []
  kv : r.kv = {}

theorem Req.initial_of_isNew {r : Req} (h : r.isNew) : r.Initial := by
  simp only [Req.isNew, Req.isUnsent, Bool.and_eq_true, Bool.not_eq_true', decide_eq_true_eq,
    List.isEmpty_iff, Option.isNone_iff_eq_none] at h
  obtain ⟨⟨⟨⟨⟨⟨⟨⟨hout, hver⟩, hrolled⟩, hreason⟩, hcomp⟩, hkv⟩, hsent⟩, hwin⟩, hgram⟩ := h
  obtain ⟨⟨⟨⟨⟨⟨hlen, hdone⟩, hsend⟩, hoff⟩, hval⟩, hidx⟩, hrec⟩ := hsent
  exact ⟨hout, hver, hrolled, hwin, hreason, hlen, hdone, hcomp, hsend, hoff, hval, hidx, hrec,
    hgram, hkv⟩

namespace Scheduler

def running (s : Scheduler) : List ReqId := s.runningBatch.map (·.req)

def setReq (s : Scheduler) (id : ReqId) (r : Req) : Scheduler :=
  { s with heap := Function.update s.heap id r }

def setMemory (s : Scheduler) (m : Memory) : Scheduler := { s with memory := m }

def isUnfinished (s : Scheduler) (id : ReqId) : Bool := !(s.heap id).finished

def receive (s : Scheduler) (r : Req) : Scheduler :=
  if r.isNew then
    { s with
      heap := Function.update s.heap s.nextId r
      nextId := s.nextId + 1
      waitingQueue := s.waitingQueue ++ [s.nextId] }
  else s

def abortMatches (rid : String) (abortAll : Bool) (r : Req) : Bool :=
  abortAll || rid.toList.isPrefixOf r.rid.toList

/-- `abort_request`: queued requests are dropped, those of the batches finish at their next check.
`curBatch` is the extend batch in progress, if any. -/
def abortRequest (s : Scheduler) (curBatch : List ReqId) (rid : String) (abortAll : Bool) :
    Scheduler :=
  { s with
    waitingQueue := s.waitingQueue.filter fun id => !abortMatches rid abortAll (s.heap id)
    heap := fun id =>
      if (id ∈ s.running ∨ id ∈ curBatch) ∧ !(s.heap id).finished ∧
          abortMatches rid abortAll (s.heap id) then
        { s.heap id with toFinish := some (.abort "Aborted") }
      else s.heap id }

def abortOnRunningTimeout (s : Scheduler) (overdue : ReqId → Bool) : Scheduler :=
  { s with
    heap := fun id =>
      if id ∈ s.running ∧ !(s.heap id).finished ∧ overdue id then
        { s.heap id with toFinish := some (.abort "Request running timeout reached.") }
      else s.heap id }

def acceptGrammar (s : Scheduler) (curBatch : List ReqId) (id : ReqId) (token : Token) :
    Scheduler :=
  match (s.heap id).grammar with
  | none => s
  | some g => match g.acceptToken token with
    | some g' =>
      s.setReq id { s.heap id with grammar := some { g' with finished := (s.heap id).finished } }
    | none =>
      let s := s.abortRequest curBatch (s.heap id).rid false
      s.setReq id { s.heap id with grammar := some { g with finished := (s.heap id).finished } }

def finishReq (s : Scheduler) (id : ReqId) (r : Req) : Except SchedulerError Scheduler := do
  let (r, m) ← s.memory.releaseKvCache r true
  .ok ((s.setMemory m).setReq id { r with completed := true })

def streamReq (args : ServerArgs) (s : Scheduler) (id : ReqId) : Scheduler :=
  let (r, message) := (s.heap id).streamOutput args
  { s.setReq id r with messages := s.messages ++ message.toList.map (id, ·) }

def streamOutput (args : ServerArgs) (s : Scheduler) (ids : List ReqId) : Scheduler :=
  ids.foldl (streamReq args) s

/-- `flush_cache`: refused while a batch holds requests, queued ones do not matter. -/
def flushCache (s : Scheduler) : Scheduler :=
  if s.runningBatch.isEmpty then
    s.setMemory
      { allocator := s.memory.allocator.clear
        rows := s.memory.rows.clear
        tree := s.memory.tree.reset }
  else s

end Scheduler

end LLM42
