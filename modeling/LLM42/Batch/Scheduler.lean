import Mathlib.Data.List.Sort
import LLM42.Library.Runs
import LLM42.Batch.Rows

/-! # The batches of the scheduler over time

The scheduler keeps a running batch for decoding and forms a new batch for every prefill pass. After
the pass the new batch is filtered and merged into the running batch, at the next iteration or when
generation is paused. In every state reached the rows of a batch should belong to its requests. An
emptied batch keeps its rows, so this holds as long as no pause merges an emptied batch. -/

namespace LLM42.Batch

open Library

structure ReqProgress where
  outputIds : List Token := []
  finished : Bool := false

inductive CurBatch where
  | none
  | running
  | extend (b : ScheduleBatch)

@[simp] def CurBatch.reqs : CurBatch → List ReqId
  | .extend b => b.reqs
  | _ => []

@[simp] def CurBatch.isNone : CurBatch → Bool
  | .none => true
  | _ => false

/-- `last_batch` is kept when it was a prefill batch; after a decode pass it is the running batch.
`own` is what the rows of each request should say. -/
structure BatchState where
  waitingQueue : List ReqId := []
  nextId : ℕ := 0
  progress : ReqId → ReqProgress := fun _ => {}
  own : ReqId → OwnRow := fun _ => {}
  runningBatch : ScheduleBatch := {}
  curBatch : CurBatch := .none
  lastBatch : Option ScheduleBatch := none
  chunkedReq : Option ReqId := none
  enginePaused : Bool := false

/-- The modes that reach the scheduler; `abort` is carried out by the tokenizer manager. -/
inductive PauseMode where
  | inPlace
  | retract
deriving DecidableEq

/-- What `PrefillAdder` chose: requests of the waiting queue, whether the chunked request goes on,
the chunked request from now on, and the input of each request. -/
structure Admission where
  picked : List ReqId
  continueChunk : Bool := false
  chunkedReq : Option ReqId := none
  fillLen : ReqId → ℕ
  reqPoolIdx : ReqId → ℕ

inductive BatchEvent where
  | receive
  | mergeLastBatch
  | preempt (victims : List ReqId)
  | newBatch (a : Admission)
  /-- `update_running_batch`, with the number of requests retracted for lack of memory. -/
  | updateRunningBatch (retracted : Option ℕ)
  | runBatch (nextTokenIds : List Token)
  | processResults (results : List (ReqId × Token × Bool))
  | pauseGeneration (mode : PauseMode)
  | continueGeneration

inductive BatchError where
  /-- A Python exception. -/
  | raised
  /-- The scheduler does not get here in this state. -/
  | notEnabled
deriving DecidableEq

namespace BatchState

variable (cfg : BatchConfig) (requests : ReqId → BatchReq)

def finished (s : BatchState) (id : ReqId) : Bool := (s.progress id).finished

def outputIds (s : BatchState) (id : ReqId) : List Token := (s.progress id).outputIds

def decodeOwn (s : BatchState) (own : ReqId → OwnRow) (ids : List ReqId) (id : ReqId) : OwnRow :=
  if id ∈ ids then
    (own id).decode (ScheduleBatch.fedToken cfg requests own s.outputIds id)
  else own id

def joined (s : BatchState) (last : ScheduleBatch) : Option ScheduleBatch :=
  if last.isEmpty || last.isPrefillOnly then some s.runningBatch
  else if s.runningBatch.isEmpty then some last
  else s.runningBatch.mergeBatch cfg requests last

def mergeLastBatch (s : BatchState) : Option BatchState :=
  match s.lastBatch with
  | none => some s
  | some last => do
    let last ← last.filterBatch cfg requests
      (last.keepIndices s.finished (s.chunkedReq.toList ++ last.chunkedReq.toList))
    let runningBatch ← s.joined cfg requests last
    return { s with runningBatch, lastBatch := none }

def preempt (s : BatchState) (victims : List ReqId) : Option BatchState := do
  let keep := indicesWhere (fun id => !victims.contains id) s.runningBatch.reqs
  let runningBatch ← s.runningBatch.filterBatch cfg requests keep
  return { s with runningBatch, waitingQueue := s.waitingQueue ++ victims }

def canRunList (s : BatchState) (a : Admission) : List ReqId :=
  (if a.continueChunk then s.chunkedReq.toList else []) ++ a.picked

def extendInput (s : BatchState) (a : Admission) (id : ReqId) : ExtendInput where
  fillIds := ((requests id).originInputIds ++ s.outputIds id).take (a.fillLen id)
  reqPoolIdx := a.reqPoolIdx id

def Admissible (s : BatchState) (a : Admission) : Prop :=
  a.picked.Nodup ∧ (∀ id ∈ a.picked, id ∈ s.waitingQueue) ∧ s.canRunList a ≠ [] ∧
    if a.continueChunk ∨ s.chunkedReq = none then ∀ c ∈ a.chunkedReq, c ∈ s.canRunList a
    else a.chunkedReq = s.chunkedReq
deriving Decidable

def extended (s : BatchState) (a : Admission) : BatchState :=
  let ids := s.canRunList a
  { s with
    waitingQueue := s.waitingQueue.filter fun id => !a.picked.contains id
    chunkedReq := a.chunkedReq
    own := fun id =>
      if id ∈ ids then .extend cfg (requests id) (s.extendInput requests a id) else s.own id
    curBatch := .extend <| (ScheduleBatch.initNew requests ids a.chunkedReq).prepareForExtend cfg
      requests (s.extendInput requests a) }

/-- Mixed chunked prefill: the requests of the running batch decode within the new batch. -/
def mix (s : BatchState) (new : ScheduleBatch) : Option BatchState :=
  if cfg.isMixedChunk && !s.runningBatch.isEmpty &&
      !(new.returnLogprob || s.runningBatch.returnLogprob) then do
    let running ← s.runningBatch.filterBatch cfg requests
      (s.runningBatch.keepIndices s.finished [])
    if running.isEmpty then some { s with curBatch := .extend new, runningBatch := {} }
    else
      let running' ← running.prepareForDecode cfg requests s.outputIds
      let new ← new.mixWithRunning cfg requests running'
      some { s with
        curBatch := .extend new
        runningBatch := {}
        own := s.decodeOwn cfg requests s.own running.reqs }
  else some { s with curBatch := .extend new }

def newBatch (s : BatchState) (a : Admission) : Option BatchState :=
  let s := s.extended cfg requests a
  match s.curBatch with
  | .extend new => s.mix cfg requests new
  | _ => none

/-- `sorted_indices`: the longest outputs first and, among these, the shortest inputs. -/
def sortedIndices (s : BatchState) (b : ScheduleBatch) : List ℕ :=
  let outLen i := (b.reqs[i]?.map fun id => (s.outputIds id).length).getD 0
  let inLen i := (b.reqs[i]?.map fun id => (requests id).originInputIds.length).getD 0
  (List.range b.reqs.length).insertionSort fun i j =>
    outLen j < outLen i ∨ outLen i = outLen j ∧ inLen i ≤ inLen j

/-- `retract_decode` with the number of requests that have to go; one always stays. The batch and
the retracted requests. -/
def retractDecode (s : BatchState) (count : ℕ) (b : ScheduleBatch) :
    Option (ScheduleBatch × List ReqId) := do
  let order := s.sortedIndices requests b
  let kept := max 1 (order.length - count)
  let retracted ← select (order.drop kept).reverse b.reqs
  let b ← b.filterBatch cfg requests (order.take kept)
  return (b, retracted)

def retractIfNeeded (s : BatchState) (retracted : Option ℕ) (b : ScheduleBatch) :
    Option (ScheduleBatch × List ReqId) :=
  match retracted with
  | none => some (b, [])
  | some count => s.retractDecode cfg requests count b

def decodeBatch (s : BatchState) (retracted : Option ℕ) (b : ScheduleBatch) : Option BatchState := do
  let (b, victims) ← s.retractIfNeeded cfg requests retracted b
  let b' ← b.prepareForDecode cfg requests s.outputIds
  return { s with
    runningBatch := b'
    curBatch := .running
    waitingQueue := s.waitingQueue ++ victims
    own := s.decodeOwn cfg requests s.own b.reqs }

def updateRunningBatch (s : BatchState) (retracted : Option ℕ) : Option BatchState :=
  if s.runningBatch.isEmpty then some s
  else do
    let b ← s.runningBatch.filterBatch cfg requests (s.runningBatch.keepIndices s.finished [])
    if b.isEmpty then some { s with runningBatch := b }
    else s.decodeBatch cfg requests retracted b

def sampledOwn (s : BatchState) (b : ScheduleBatch) (nextTokenIds : List Token) (id : ReqId) :
    OwnRow :=
  match (b.reqs.zip nextTokenIds).lookup id with
  | some token => { s.own id with outputId := token }
  | none => s.own id

def FitsRows (b : ScheduleBatch) (nextTokenIds : List Token) : Prop :=
  ∀ c ∈ b.columns, nextTokenIds.length = c.seqLens.length

instance (b : ScheduleBatch) (nextTokenIds : List Token) : Decidable (FitsRows b nextTokenIds) :=
  match h : b.columns with
  | none => isTrue (by simp [FitsRows, h])
  | some c => decidable_of_iff (nextTokenIds.length = c.seqLens.length) (by simp [FitsRows, h])

def runBatch (s : BatchState) (nextTokenIds : List Token) : Option BatchState :=
  match s.curBatch with
  | .none => none
  | .running =>
    if FitsRows s.runningBatch nextTokenIds then some
      { s with
        own := s.sampledOwn s.runningBatch nextTokenIds
        runningBatch := s.runningBatch.setOutputIds nextTokenIds
        curBatch := .none }
    else none
  | .extend b =>
    if FitsRows b nextTokenIds then some
      { s with
        own := s.sampledOwn b nextTokenIds
        curBatch := .none
        lastBatch := some (b.setOutputIds nextTokenIds) }
    else none

def processResults (s : BatchState) (results : List (ReqId × Token × Bool)) : BatchState :=
  { s with
    progress := results.foldl (fun progress x =>
      Function.update progress x.1
        { outputIds := (progress x.1).outputIds ++ [x.2.1], finished := x.2.2 }) s.progress }

/-- The running batch after the last prefill batch was merged by `pause_generation`, which does not
ask whether one of them is empty. -/
def pauseMerged (s : BatchState) (mode : PauseMode) : Option ScheduleBatch :=
  match s.lastBatch with
  | none => some s.runningBatch
  | some last => do
    let excluded := if mode = .inPlace then s.chunkedReq.toList else []
    let last ← last.filterBatch cfg requests (last.keepIndices s.finished excluded)
    s.runningBatch.mergeBatch cfg requests last

def retractAll (s : BatchState) (b : ScheduleBatch) : Option (ScheduleBatch × List ReqId) := do
  let b ← b.filterBatch cfg requests (b.keepIndices s.finished [])
  let b' ← b.filterBatch cfg requests (b.keepIndices s.finished b.reqs)
  return (b', b.reqs)

def pauseGeneration (s : BatchState) (mode : PauseMode) : Option BatchState :=
  match mode with
  | .inPlace => do
    let runningBatch ← s.pauseMerged cfg requests .inPlace
    return { s with runningBatch, lastBatch := none, enginePaused := true }
  | .retract => do
    let merged ← s.pauseMerged cfg requests .retract
    let (runningBatch, retracted) ← s.retractAll cfg requests merged
    return { s with
      runningBatch
      waitingQueue := s.waitingQueue ++ retracted
      lastBatch := none
      chunkedReq := none
      enginePaused := true }

/-- The next batch is formed once the last one was merged, and never while the engine is paused. -/
def forming (s : BatchState) : Bool :=
  !s.enginePaused && s.curBatch.isNone && s.lastBatch.isNone

def guarded (enabled : Bool) (next : Option BatchState) : Except BatchError BatchState :=
  if enabled then
    match next with
    | some s => .ok s
    | none => .error .raised
  else .error .notEnabled

def step (s : BatchState) : BatchEvent → Except BatchError BatchState
  | .receive => .ok { s with waitingQueue := s.waitingQueue ++ [s.nextId], nextId := s.nextId + 1 }
  | .mergeLastBatch => guarded (!s.enginePaused && s.curBatch.isNone) (s.mergeLastBatch cfg requests)
  | .preempt victims =>
    guarded (s.forming && decide (victims.Nodup ∧
        ∀ id ∈ victims, id ∈ s.runningBatch.reqs ∧ s.finished id = false))
      (s.preempt cfg requests victims)
  | .newBatch a => guarded (s.forming && decide (s.Admissible a)) (s.newBatch cfg requests a)
  | .updateRunningBatch retracted => guarded s.forming (s.updateRunningBatch cfg requests retracted)
  | .runBatch nextTokenIds => guarded (!s.enginePaused && !s.curBatch.isNone) (s.runBatch nextTokenIds)
  | .processResults results => .ok (s.processResults results)
  | .pauseGeneration mode => guarded s.curBatch.isNone (s.pauseGeneration cfg requests mode)
  | .continueGeneration => .ok { s with enginePaused := false }

/-! ## Where requests are -/

/-- A request waits, runs or is part of the newest prefill batch, never two of these; the chunked
request neither waits nor runs. -/
structure Placed (waiting running front : List ReqId) (chunkedReq : Option ReqId) (nextId : ℕ) :
    Prop where
  runningNodup : running.Nodup
  frontNodup : front.Nodup
  notRunning : ∀ id ∈ waiting, id ∉ running
  notFront : ∀ id ∈ waiting, id ∉ front
  apart : ∀ id ∈ running, id ∉ front
  known : ∀ id, id ∈ waiting ∨ id ∈ running ∨ id ∈ front ∨ id ∈ chunkedReq → id < nextId
  chunk : ∀ id ∈ chunkedReq, id ∉ waiting ∧ id ∉ running

namespace Placed

variable {waiting running front running' front' : List ReqId} {chunkedReq : Option ReqId}
  {nextId : ℕ}

section

variable (h : Placed waiting running front chunkedReq nextId)

include h

theorem receive : Placed (waiting ++ [nextId]) running front chunkedReq (nextId + 1) := by
  cases h
  constructor <;> grind

theorem leave (hrun : running'.Nodup) (hrunSub : running' ⊆ running) (hfront : front'.Nodup)
    (hfrontSub : front' ⊆ front) : Placed waiting running' front' chunkedReq nextId := by
  cases h
  constructor <;> grind

theorem forget : Placed waiting running front none nextId := by
  cases h
  constructor <;> grind

/-- The newest prefill batch joins the running batch; the chunked request is not among it. -/
theorem join (hapart : ∀ id ∈ chunkedReq, id ∉ front) :
    Placed waiting (running ++ front) [] chunkedReq nextId := by
  cases h
  constructor <;> grind

/-- Requests of the running batch become part of the newest prefill batch. -/
theorem mixIn (hrun : running'.Nodup) (hrunSub : running' ⊆ running) :
    Placed waiting [] (front ++ running') chunkedReq nextId := by
  cases h
  constructor <;> grind

theorem requeue {victims : List ReqId} (hsub : victims ⊆ running)
    (hrun : running'.Nodup) (hrunSub : running' ⊆ running) (hdisj : ∀ id ∈ victims, id ∉ running') :
    Placed (waiting ++ victims) running' front chunkedReq nextId := by
  cases h
  constructor <;> grind

end

/-- Requests of the queue, and possibly the chunked request, form a prefill batch. -/
theorem admit_picked (h : Placed waiting running [] chunkedReq nextId) {picked : List ReqId}
    {chunked : Option ReqId} {chunkedReq' : Option ReqId} (hpicked : picked.Nodup)
    (hsub : picked ⊆ waiting) (hchunked : ∀ id ∈ chunked, id ∈ chunkedReq)
    (hchunk' : ∀ id ∈ chunkedReq', id ∈ chunked.toList ++ picked ∨ id ∈ chunkedReq) :
    Placed (waiting.filter fun id => !picked.contains id) running (chunked.toList ++ picked)
      chunkedReq' nextId := by
  cases h
  constructor <;> cases chunked <;> grind

end Placed

end BatchState

end LLM42.Batch
