import LLM42.Library.Runs

/-! # Requests of a prefill server

A request waits for its bootstrap, for a batch and, once prefilled, for the transfer of its KV cache
to the decode server. On the way it takes a metadata index and a request row, and it leaves with one
terminal output. -/

namespace LLM42.Disaggregation

open Library

inductive KVPoll
  | failed | bootstrapping | waitingForInput | transferring | success
  deriving DecidableEq

inductive Stage
  | bootstrap | waiting | prefill | inflight | ended
  deriving DecidableEq

structure PrefillReq where
  grammar : Bool := false
  isDeterministic : Bool := false
  stage : Stage := .bootstrap
  reqPoolIdx : Option ℕ := none
  metadataBufferIndex : Option ℕ := none
  isChunked : ℕ := 0
  /-- `len(req.output_ids)` -/
  outputLen : ℕ := 0
  llm42VerifiedTokens : ℕ := 0
  finished : Bool := false
  finishedOutput : Bool := false
  /-- terminal outputs sent -/
  outputs : ℕ := 0
  rowsTaken : ℕ := 0
  /-- calls of `release_kv_cache` that found a row -/
  rowsReleased : ℕ := 0
  metadataTaken : ℕ := 0
  metadataReturned : ℕ := 0
  deriving DecidableEq

/-- Request rows and metadata indices that are free. -/
structure Pools where
  rows : List ℕ
  metadata : List ℕ
  deriving DecidableEq

inductive AssertionError
  | freeingBeforeAlloc | unexpectedPoll
  deriving DecidableEq

/-- What the loops read of the server: `tree_cache.supports_mamba()` and `enable_llm42`. -/
structure PrefillConfig where
  supportsMamba : Bool
  enableLLM42 : Bool

namespace PrefillReq

variable (r : PrefillReq) (p : Pools) (c : PrefillConfig)

def prepareAbort : PrefillReq := { r with finished := true }

/-- A deterministic request is not output before all its tokens are verified. -/
def awaitsVerification : Bool :=
  r.isDeterministic && c.enableLLM42 && decide (r.llm42VerifiedTokens < r.outputLen)

/-- `stream_output_generation` for one request, as far as terminal outputs go. -/
def streamOutput : PrefillReq :=
  if r.finished && !r.finishedOutput && !r.awaitsVerification c then
    { r with finishedOutput := true, outputs := r.outputs + 1 }
  else r

/-- Only caches with mamba states let a request without a row be released. -/
def releaseKvCache : Except AssertionError (PrefillReq × Pools) :=
  match r.reqPoolIdx with
  | none => if c.supportsMamba then .ok (r, p) else .error .freeingBeforeAlloc
  | some row => .ok ({ r with reqPoolIdx := none, rowsReleased := r.rowsReleased + 1 },
      { p with rows := p.rows ++ [row] })

def releaseReqToMetadataBuffer : PrefillReq × Pools :=
  match r.metadataBufferIndex with
  | none => (r, p)
  | some index =>
    ({ r with metadataBufferIndex := none, metadataReturned := r.metadataReturned + 1 },
      { p with metadata := p.metadata ++ [index] })

def popBootstrapped (poll : KVPoll) : PrefillReq × Pools :=
  match poll, p.metadata with
  | .bootstrapping, _ => (r, p)
  | .failed, _ => ({ r.prepareAbort.streamOutput c with stage := .ended }, p)
  | _, [] => (r, p)
  | _, index :: metadata =>
    ({ r with metadataBufferIndex := some index, metadataTaken := r.metadataTaken + 1
              stage := .waiting }, { p with metadata })

/-- The request enters a batch, for the whole rest of its prompt or for a chunk; `alloc` gives it a
row unless it has one. -/
def schedule (chunked : Bool) : PrefillReq × Pools :=
  let r' := { r with stage := .prefill, isChunked := r.isChunked + chunked.toNat }
  match r.reqPoolIdx, p.rows with
  | some _, _ => (r', p)
  | none, row :: rows =>
    ({ r' with reqPoolIdx := some row, rowsTaken := r.rowsTaken + 1 }, { p with rows })
  | none, [] => (r, p)

/-- `process_batch_result_disagg_prefill` for one request. The first token is appended, and no one
verifies it here. -/
def processBatchResult (acceptFails : Bool) : Except AssertionError (PrefillReq × Pools) :=
  if r.isChunked = 0 then
    let r := { r with stage := .inflight, outputLen := r.outputLen + 1 }
    if r.grammar && acceptFails then
      (r.releaseKvCache p c).map fun x => (x.1.prepareAbort, x.2)
    else .ok (r, p)
  else .ok ({ r with isChunked := r.isChunked - 1 }, p)

/-- What `process_disagg_prefill_inflight_queue` does with a request that is done. -/
def finishTransfer : Except AssertionError (PrefillReq × Pools) :=
  (r.releaseKvCache p c).map fun x =>
    let r := { x.1 with finished := true }
    { r.streamOutput c with stage := .ended }.releaseReqToMetadataBuffer x.2

def processInflight : KVPoll → Except AssertionError (PrefillReq × Pools)
  | .waitingForInput | .transferring => .ok (r, p)
  | .success | .failed => r.finishTransfer p c
  | .bootstrapping => .error .unexpectedPoll

def abortWaiting : PrefillReq × Pools :=
  { r with stage := .ended, outputs := r.outputs + 1 }.releaseReqToMetadataBuffer p

end PrefillReq

/-- One turn of a loop over a queue, for the request it treats. In the bootstrap and in-flight
queues an abort only makes the next poll fail. -/
inductive PrefillTurn
  | popBootstrapped (poll : KVPoll)
  | schedule (chunked : Bool)
  | processBatchResult (acceptFails : Bool)
  | processInflight (poll : KVPoll)
  | abortWaiting
  deriving DecidableEq

/-- Each turn belongs to a queue; a chunked request is scheduled again. -/
def PrefillReq.turn (r : PrefillReq) (p : Pools) (c : PrefillConfig) (t : PrefillTurn) :
    Except AssertionError (PrefillReq × Pools) :=
  match r.stage, t with
  | .bootstrap, .popBootstrapped poll => .ok (r.popBootstrapped p c poll)
  | .waiting, .schedule chunked => .ok (r.schedule p chunked)
  | .prefill, .schedule chunked => .ok (r.schedule p chunked)
  | .prefill, .processBatchResult acceptFails => r.processBatchResult p c acceptFails
  | .inflight, .processInflight poll => r.processInflight p c poll
  | .waiting, .abortWaiting => .ok (r.abortWaiting p)
  | _, _ => .ok (r, p)

structure PrefillServer where
  reqs : List PrefillReq
  pools : Pools
  deriving DecidableEq

/-- A request arrives, possibly one that can never fit, or a loop comes to the request at `i`. -/
inductive PrefillEvent
  | add (grammar isDeterministic exceedsCapacity : Bool)
  | turn (i : ℕ) (t : PrefillTurn)

namespace PrefillServer

variable (c : PrefillConfig)

def newReq (grammar isDeterministic exceedsCapacity : Bool) : PrefillReq :=
  let r : PrefillReq := { grammar, isDeterministic }
  if exceedsCapacity then { r.prepareAbort.streamOutput c with stage := .ended } else r

def step (s : PrefillServer) : PrefillEvent → Except AssertionError PrefillServer
  | .add grammar deterministic exceeds =>
    .ok { s with reqs := s.reqs ++ [newReq c grammar deterministic exceeds] }
  | .turn i t => match s.reqs[i]? with
    | none => .ok s
    | some r => (r.turn s.pools c t).map fun x => ⟨s.reqs.set i x.1, x.2⟩

/-- The result of a last chunk: the request is not to be verified, and its grammar takes the token
unless the cache keeps mamba states. A sender that was initialised does not go back to
bootstrapping. -/
def Accepts (s : PrefillServer) : PrefillEvent → Prop
  | .turn i (.processBatchResult acceptFails) => ∀ r ∈ s.reqs[i]?, r.isChunked = 0 →
    (r.isDeterministic && c.enableLLM42) = false ∧
      (c.supportsMamba ∨ (r.grammar && acceptFails) = false)
  | .turn _ (.processInflight poll) => poll ≠ .bootstrapping
  | _ => True

end PrefillServer

/-- What a request took it still has or has given back, each at most once. -/
structure PrefillReq.Kept (c : PrefillConfig) (r : PrefillReq) : Prop where
  outputs : r.outputs = if r.stage = .ended then 1 else 0
  unsent : r.stage ≠ .ended → r.finishedOutput = false
  verified : r.stage ≠ .ended → r.awaitsVerification c = false
  row : r.rowsReleased + r.reqPoolIdx.toList.length = r.rowsTaken
  metadata : r.metadataReturned + r.metadataBufferIndex.toList.length = r.metadataTaken
  rowsOnce : r.rowsTaken ≤ if r.stage = .bootstrap ∨ r.stage = .waiting then 0 else 1
  metadataOnce : r.metadataTaken ≤ if r.stage = .bootstrap then 0 else 1
  prefill : r.stage = .prefill → r.reqPoolIdx.isSome
  inflight : r.stage = .inflight → r.reqPoolIdx.isSome ∨ c.supportsMamba
  ended : r.stage = .ended → r.reqPoolIdx = none ∧ r.metadataBufferIndex = none

namespace PrefillReq

variable {c : PrefillConfig} {r : PrefillReq} {p : Pools} {x : PrefillReq × Pools}

theorem eq_none_of_balance {held : Option ℕ} {returned taken : ℕ}
    (h : returned + held.toList.length = taken) (hle : taken ≤ returned) : held = none := by
  cases held with
  | none => rfl
  | some x =>
    rw [Option.toList_some, List.length_singleton] at h
    omega

section

variable (h : r.Kept c)

include h

/-- A request whose row is back leaves with its terminal output and returns its metadata index. -/
theorem Kept.leave (hstage : r.stage ≠ .ended) {rowsReleased : ℕ}
    (hrows : rowsReleased = r.rowsTaken) (finished finishedOutput : Bool) :
    (({ r with finished, finishedOutput, rowsReleased, reqPoolIdx := none
               outputs := r.outputs + 1, stage := .ended } :
      PrefillReq).releaseReqToMetadataBuffer p).1.Kept c := by
  cases h
  unfold releaseReqToMetadataBuffer
  split <;> constructor <;> grind [awaitsVerification]

theorem Kept.noRow (hstage : r.stage = .bootstrap ∨ r.stage = .waiting) :
    r.reqPoolIdx = none ∧ r.rowsReleased = r.rowsTaken := by
  have honce := h.rowsOnce
  rw [if_pos hstage] at honce
  have hnone := eq_none_of_balance h.row (by omega)
  have hrow := h.row
  rw [hnone] at hrow
  exact ⟨hnone, hrow⟩

/-- A request that has not left is output as soon as it is finished. -/
theorem Kept.streamOutput (hstage : r.stage ≠ .ended) (reqPoolIdx : Option ℕ) (rowsReleased : ℕ) :
    ({ r with finished := true, reqPoolIdx, rowsReleased } : PrefillReq).streamOutput c =
      { r with finished := true, finishedOutput := true, outputs := r.outputs + 1, reqPoolIdx
               rowsReleased } := by
  refine if_pos ?_
  change (true && !r.finishedOutput && !r.awaitsVerification c) = true
  rw [h.unsent hstage, h.verified hstage]
  rfl

theorem Kept.popBootstrapped (hstage : r.stage = .bootstrap) (poll : KVPoll) :
    (r.popBootstrapped p c poll).1.Kept c := by
  unfold PrefillReq.popBootstrapped
  split
  · exact h
  · obtain ⟨hrow, hrows⟩ := h.noRow (.inl hstage)
    have honce := h.metadataOnce
    rw [if_pos hstage] at honce
    have hnone := eq_none_of_balance h.metadata (by omega)
    have hlive : r.stage ≠ .ended := by simp [hstage]
    have hleave := h.leave (p := p) hlive hrows true true
    simp only [releaseReqToMetadataBuffer, hnone] at hleave
    have hout := h.streamOutput hlive r.reqPoolIdx r.rowsReleased
    simp only [prepareAbort, hout]
    simpa [hnone, hrow] using hleave
  · exact h
  · cases h
    constructor <;> grind [awaitsVerification]

theorem Kept.abortWaiting (hstage : r.stage = .waiting) :
    (r.abortWaiting p).1.Kept c := by
  obtain ⟨hrow, hrows⟩ := h.noRow (.inr hstage)
  have hleave := h.leave (p := p) (by simp [hstage]) hrows r.finished r.finishedOutput
  rw [← hrow] at hleave
  exact hleave

theorem Kept.schedule (hstage : r.stage = .waiting ∨ r.stage = .prefill) (chunked : Bool) :
    (r.schedule p chunked).1.Kept c := by
  unfold PrefillReq.schedule
  split
  · cases h
    constructor <;> grind [awaitsVerification]
  · cases h
    constructor <;> grind [awaitsVerification]
  · exact h

theorem Kept.processBatchResult (hstage : r.stage = .prefill) {acceptFails : Bool}
    (haccepts : r.isChunked = 0 → (r.isDeterministic && c.enableLLM42) = false ∧
      (c.supportsMamba ∨ (r.grammar && acceptFails) = false)) :
    ∃ x, r.processBatchResult p c acceptFails = .ok x ∧ x.1.Kept c := by
  obtain ⟨row, hrow⟩ := Option.isSome_iff_exists.mp (h.prefill hstage)
  cases h
  unfold PrefillReq.processBatchResult
  split
  next hlast =>
    obtain ⟨hverified, hmamba⟩ := haccepts hlast
    dsimp only
    split
    next hfails =>
      -- the row is released here, and the request stays in flight without one
      simp only [releaseKvCache, hrow, Except.map]
      refine ⟨_, rfl, ?_⟩
      constructor <;> grind [prepareAbort, awaitsVerification]
    · refine ⟨_, rfl, ?_⟩
      constructor <;> grind [awaitsVerification]
  · refine ⟨_, rfl, ?_⟩
    constructor <;> assumption

theorem Kept.finishTransfer (hstage : r.stage = .inflight) :
    ∃ x, r.finishTransfer p c = .ok x ∧ x.1.Kept c := by
  have hlive : r.stage ≠ .ended := by simp [hstage]
  cases hrow : r.reqPoolIdx with
  | none =>
    have hmamba : c.supportsMamba = true := (h.inflight hstage).resolve_left (by simp [hrow])
    have hbalance : r.rowsReleased = r.rowsTaken := by simpa [hrow] using h.row
    have hout := h.streamOutput hlive none r.rowsReleased
    have hleave := h.leave (p := p) hlive hbalance true true
    exact ⟨_, by simp only [PrefillReq.finishTransfer, PrefillReq.releaseKvCache, hrow, hmamba,
      Except.map, if_true, hout], hleave⟩
  | some row =>
    have hbalance : r.rowsReleased + 1 = r.rowsTaken := by simpa [hrow] using h.row
    have hout := h.streamOutput hlive none (r.rowsReleased + 1)
    have hleave := h.leave (p := { p with rows := p.rows ++ [row] }) hlive hbalance true true
    exact ⟨_, by simp only [PrefillReq.finishTransfer, PrefillReq.releaseKvCache, hrow, Except.map,
      hout], hleave⟩

/-- No turn of a loop raises, and every turn keeps the request's accounts. -/
theorem Kept.turn {t : PrefillTurn} (haccepts : ∀ acceptFails, t = .processBatchResult acceptFails →
      r.isChunked = 0 → (r.isDeterministic && c.enableLLM42) = false ∧
        (c.supportsMamba ∨ (r.grammar && acceptFails) = false))
    (hpoll : t ≠ .processInflight .bootstrapping) :
    ∃ x, r.turn p c t = .ok x ∧ x.1.Kept c := by
  unfold PrefillReq.turn
  split
  next hstage => exact ⟨_, rfl, h.popBootstrapped hstage _⟩
  next hstage => exact ⟨_, rfl, h.schedule (.inl hstage) _⟩
  next hstage => exact ⟨_, rfl, h.schedule (.inr hstage) _⟩
  next acceptFails hstage => exact h.processBatchResult hstage (haccepts acceptFails rfl)
  next poll hstage =>
    cases poll with
    | waitingForInput => exact ⟨_, rfl, h⟩
    | transferring => exact ⟨_, rfl, h⟩
    | success => exact h.finishTransfer hstage
    | failed => exact h.finishTransfer hstage
    | bootstrapping => exact absurd rfl hpoll
  next hstage => exact ⟨_, rfl, h.abortWaiting hstage⟩
  · exact ⟨_, rfl, h⟩

end

end PrefillReq

namespace PrefillServer

variable {c : PrefillConfig} {s : PrefillServer}

theorem kept_newReq (grammar deterministic exceeds : Bool) :
    (newReq c grammar deterministic exceeds).Kept c := by
  cases exceeds <;> constructor <;>
    simp [newReq, PrefillReq.prepareAbort, PrefillReq.streamOutput, PrefillReq.awaitsVerification]

theorem step_ok (h : ∀ r ∈ s.reqs, r.Kept c) {e : PrefillEvent}
    (ha : s.Accepts c e) :
    ∃ t, s.step c e = .ok t ∧ ∀ r ∈ t.reqs, r.Kept c := by
  cases e with
  | add grammar deterministic exceeds =>
    refine ⟨_, rfl, fun r hr => ?_⟩
    rcases List.mem_append.mp hr with hr | hr
    · exact h r hr
    · obtain rfl := List.mem_singleton.mp hr
      exact kept_newReq grammar deterministic exceeds
  | turn i t =>
    simp only [step]
    cases hi : s.reqs[i]? with
    | none => exact ⟨s, rfl, h⟩
    | some r =>
      obtain ⟨x, hx, hkept⟩ := (h r (List.mem_of_getElem? hi)).turn (p := s.pools) (t := t)
        (by rintro acceptFails rfl; simpa [Accepts, hi] using ha) (by rintro rfl; exact ha rfl)
      refine ⟨⟨s.reqs.set i x.1, x.2⟩, by simp only [hx, Except.map], fun r' hr' => ?_⟩
      rcases List.mem_or_eq_of_mem_set hr' with hr' | rfl
      · exact h r' hr'
      · exact hkept

theorem kept_of_reachable
    (h : Reachable (step c) (·.reqs = []) (Accepts c) s) :
    ∀ r ∈ s.reqs, r.Kept c := by
  induction h with
  | init hs =>
    rw [hs]
    exact nofun
  | next _ ha hstep ih =>
    obtain ⟨t', ht', hkept⟩ := step_ok ih ha
    rw [hstep] at ht'
    exact Except.ok.inj ht' ▸ hkept

/-- In a run in which no grammar rejects a first token and no prefilled request is to be verified, no
assertion fires; a request has its terminal output when it has left, and by then its row and its
metadata index were given back, each once. -/
theorem released_exactly_once
    (h : Reachable (step c) (·.reqs = []) (Accepts c) s) :
    (∀ e, s.Accepts c e → ∃ t, s.step c e = .ok t) ∧
    ∀ r ∈ s.reqs, (r.rowsReleased ≤ r.rowsTaken ∧ r.rowsTaken ≤ 1) ∧
      (r.metadataReturned ≤ r.metadataTaken ∧ r.metadataTaken ≤ 1) ∧
      (r.stage ≠ .ended → r.outputs = 0) ∧
      (r.stage = .ended → r.outputs = 1 ∧ r.rowsReleased = r.rowsTaken ∧
        r.metadataReturned = r.metadataTaken) := by
  have hkept := kept_of_reachable h
  refine ⟨fun e he => ?_, fun r hr => ?_⟩
  · obtain ⟨t, ht, -⟩ := step_ok hkept he
    exact ⟨t, ht⟩
  · obtain ⟨houtputs, -, -, hrow, hmetadata, hrows, hindices, -, -, hover⟩ := hkept r hr
    refine ⟨⟨by omega, Nat.le_trans hrows (by split <;> omega)⟩,
      ⟨by omega, Nat.le_trans hindices (by split <;> omega)⟩, fun hlive => ?_, fun hgone => ?_⟩
    · rw [houtputs, if_neg hlive]
    · obtain ⟨hnoRow, hnoIndex⟩ := hover hgone
      rw [hnoRow] at hrow
      rw [hnoIndex] at hmetadata
      exact ⟨by rw [houtputs, if_pos hgone], hrow, hmetadata⟩

instance decAccepts (s : PrefillServer) (e : PrefillEvent) : Decidable (s.Accepts c e) := by
  unfold Accepts
  split <;> infer_instance

def smallServer : PrefillServer := ⟨[], ⟨[0, 1], [0, 1]⟩⟩

/-- A request with a grammar, one to be verified whose bootstrap fails, and one that is prefilled in
two chunks beside the first and whose transfer fails. -/
def threeRequests : List PrefillEvent :=
  [.add true false false, .add false true false, .add false false false,
    .turn 0 (.popBootstrapped .waitingForInput), .turn 1 (.popBootstrapped .failed),
    .turn 2 (.popBootstrapped .waitingForInput), .turn 2 (.schedule true),
    .turn 2 (.processBatchResult false), .turn 0 (.schedule false), .turn 2 (.schedule false),
    .turn 0 (.processBatchResult false), .turn 2 (.processBatchResult false),
    .turn 2 (.processInflight .failed), .turn 0 (.processInflight .transferring),
    .turn 0 (.processInflight .success)]

theorem released_exactly_once_threeRequests : ∃ s,
    runEvents (step ⟨false, true⟩) smallServer threeRequests = .ok s ∧ s.reqs.length = 3 ∧
      ∀ r ∈ s.reqs, r.outputs = 1 ∧ r.rowsReleased = r.rowsTaken ∧
        r.metadataReturned = r.metadataTaken :=
  exists_runEvents_imp (p := fun s => s.reqs.length = 3 ∧ ∀ r ∈ s.reqs, r.stage = .ended) (by rfl)
    (by decide) fun _ hreach h =>
      ⟨h.1, fun r hr => ((released_exactly_once hreach).2 r hr).2.2.2 (h.2 r hr)⟩

def firstTokenScript (grammar isDeterministic acceptFails : Bool) : List PrefillEvent :=
  [.add grammar isDeterministic false, .turn 0 (.popBootstrapped .waitingForInput),
    .turn 0 (.schedule false), .turn 0 (.processBatchResult acceptFails)]

/-- A grammar error has released the request while it stays in flight, so that the end of the
transfer releases it once more. A request that is to be verified ends without its output. -/
theorem release_without_row :
    (∃ s, Reachable (step ⟨false, false⟩) (·.reqs = []) (fun _ _ => True) s ∧
      (∀ r ∈ s.reqs, r.stage = .inflight ∧ r.rowsReleased = 1 ∧ r.outputs = 0) ∧
      s.step ⟨false, false⟩ (.turn 0 (.processInflight .success)) = .error .freeingBeforeAlloc) ∧
    ∃ s, Reachable (step ⟨false, true⟩) (·.reqs = []) (fun _ _ => True) s ∧
      s.reqs.map (fun r => (r.stage, r.outputs)) = [(.ended, 0)] :=
  ⟨exists_reachable (show smallServer.reqs = [] from rfl) (firstTokenScript true false true)
      (by decide),
    exists_reachable (show smallServer.reqs = [] from rfl)
      (firstTokenScript false true false ++ [.turn 0 (.processInflight .success)]) (by decide)⟩

end PrefillServer

end LLM42.Disaggregation
