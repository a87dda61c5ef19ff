import LLM42.Request.Stream
import LLM42.Verification.Outcome

/-! # Runs of one request under streaming

Prefill, decode, verification and `stream_output` in any order, for one request, with the messages
that were sent for it. `finished_len` is written by some finish checks only and is never cleared. As
long as no stop is taken back, cutting the output at `finished_len` is cutting it at the finish
position. -/

namespace LLM42

/-- A request and the messages sent for it so far. -/
structure Delivery where
  req : Req
  messages : List StreamMessage

inductive DeliveryEvent where
  | prefill (token : Token) (logits : LogitsRow)
  | decode (token : Token) (logits : LogitsRow)
  | verify (forceIncludeAll : Bool) (out : VerifyOutput) (offset : ℕ)
  | stream

namespace Req

/-- Output position at which the request stopped, by the reason it stopped for. -/
def finishPosition (r : Req) : ℕ :=
  match r.finishedReason with
  | some (.length n) => n
  | _ => r.outputIds.length

def isFresh (r : Req) : Bool :=
  r.outputIds.isEmpty && decide (r.llm42VerifiedTokens = 0) && r.finishedReason.isNone &&
    r.finishedLen.isNone && !r.finishedOutput && r.toFinish.isNone && r.grammar.isNone &&
    r.surrOffset.isNone && r.readOffset.isNone && decide (r.sendTokenOffset = 0) &&
    decide (r.sendDecodeIdOffset = 0)

end Req

namespace Delivery

def sentIds (d : Delivery) : List Token := d.messages.flatMap (·.outputIds)

def decodeIds (d : Delivery) : List Token := d.messages.flatMap (·.decodeIds)

def Starts (d : Delivery) : Prop := d.req.isFresh ∧ d.req.isDeterministic ∧ d.messages = []

/-- One event; an event that the scheduler would not issue changes nothing. Verification is always
followed by another finish check. -/
def step (w : LLM42Worker) (args : ServerArgs) (d : Delivery) :
    DeliveryEvent → Except VerifyError Delivery
  | .prefill token logits =>
    if d.req.outputIds = [] ∧ ¬ d.req.finished then
      .ok { d with req := d.req.prefillToken args.enableLlm42 token logits }
    else .ok d
  | .decode token logits =>
    if d.req.outputIds ≠ [] ∧ ¬ d.req.finished then
      .ok { d with req := d.req.decodeToken token logits }
    else .ok d
  | .verify force out offset =>
    if d.req.unverified ≠ [] ∧ LLM42Info.window force w.windowSize d.req = d.req.unverified then
      .ok { d with req := (w.verifyReq force out offset d.req).checkFinished }
    else .ok d
  | .stream =>
    let (r, message) := d.req.streamOutput args
    .ok { req := r, messages := d.messages ++ message.toList }

/-- No verification discards tokens of a request while `finished_len` holds the position of a
stop token or of an impossible token. -/
def KeepsStops (w : LLM42Worker) (d : Delivery) : DeliveryEvent → Prop
  | .verify _ out offset =>
    let rows := LLM42Info.rowsFrom out.tokenIds offset d.req.unverified.length
    d.req.finishedLen = none ∨ d.req.finishedLen = some d.req.samplingParams.maxNewTokens ∨
      w.rollbackCount d.req.unverified rows = 0
  | _ => True

instance (w : LLM42Worker) (d : Delivery) (e : DeliveryEvent) : Decidable (KeepsStops w d e) := by
  unfold KeepsStops
  split <;> infer_instance

/-- What has been sent is verified output, each token once; after the final message it is the
whole output up to the stop, and the detokenizer has the same tokens behind the prompt. -/
structure Exact (args : ServerArgs) (d : Delivery) : Prop where
  verified : d.sentIds <+: d.req.outputIds.take d.req.llm42VerifiedTokens
  final : d.req.finishedOutput → d.sentIds = d.req.outputIds.take d.req.finishPosition
  detokenizer : d.messages ≠ [] → d.req.surrAndDecodeIds = d.req.detokenizerPrompt ++ d.sentIds
  handed : d.messages ≠ [] → args.isMultimodalGen = false → d.decodeIds = d.req.surrAndDecodeIds

end Delivery

end LLM42

namespace LLM42.Req

/-- How the recorded stop position relates to the output, by finish state. -/
inductive StopRecorded (r : Req) : Prop
  | pending : ¬ r.finished →
      (r.finishedLen = none ∨ r.finishedLen = some r.samplingParams.maxNewTokens) →
      (r.outputIds = [] ∨ r.outputIds.length < r.samplingParams.maxNewTokens) → StopRecorded r
  | length : r.finishedReason = some (.length r.samplingParams.maxNewTokens) →
      r.finishedLen = some r.samplingParams.maxNewTokens →
      r.samplingParams.maxNewTokens ≤ r.outputIds.length → StopRecorded r
  | stopped : r.finished → r.finishPosition = r.outputIds.length →
      (r.finishedLen = none ∨ r.finishedLen = some r.samplingParams.maxNewTokens ∨
        r.finishedLen = some r.outputIds.length) →
      r.outputIds.length < r.samplingParams.maxNewTokens → StopRecorded r

variable {r : Req}

theorem finishPosition_of_not_finished (h : ¬ r.finished) :
    r.finishPosition = r.outputIds.length := by
  have hnone : r.finishedReason = none := by simpa [finished] using h
  simp [finishPosition, hnone]

theorem outputIdsThroughStop_of_le (h : ∀ n, r.finishedLen = some n → r.outputIds.length ≤ n) :
    r.outputIdsThroughStop = r.outputIds := by
  unfold outputIdsThroughStop
  split
  next n hn => exact List.take_of_length_le (h n hn)
  next => rfl

/-- Once the stop is recorded, the output is cut at it. -/
theorem StopRecorded.through_eq (h : r.StopRecorded) :
    r.outputIdsThroughStop = r.outputIds.take r.finishPosition := by
  cases h with
  | pending hf hlen hshort =>
    rw [finishPosition_of_not_finished hf, List.take_length]
    refine outputIdsThroughStop_of_le fun n hn => ?_
    rcases hshort with hnil | hlt
    · simp [hnil]
    · rcases hlen with hlen | hlen
      · simp [hlen] at hn
      · obtain rfl : _ = n := Option.some.inj (hlen.symm.trans hn)
        exact hlt.le
  | length hreason hlen _ =>
    simp [outputIdsThroughStop, finishPosition, hreason, hlen]
  | stopped _ hpos hlen hlt =>
    rw [hpos, List.take_length]
    refine outputIdsThroughStop_of_le fun n hn => ?_
    rcases hlen with hlen | hlen | hlen
    · simp [hlen] at hn
    · obtain rfl : _ = n := Option.some.inj (hlen.symm.trans hn)
      exact hlt.le
    · exact (Option.some.inj (hlen.symm.trans hn)).le

theorem StopRecorded.length_through_le (h : r.StopRecorded) :
    r.outputIdsThroughStop.length ≤ r.samplingParams.maxNewTokens := by
  rw [h.through_eq, List.length_take]
  cases h with
  | pending hf _ hshort =>
    rcases hshort with hnil | hlt
    · simp [hnil]
    · omega
  | length hreason _ _ =>
    have hpos : r.finishPosition = r.samplingParams.maxNewTokens := by
      simp [finishPosition, hreason]
    omega
  | stopped _ _ _ hlt => omega

theorem stopRecorded_checkFinished (hf : ¬ r.finished) (ht : r.toFinish = none)
    (hlen : r.finishedLen = none ∨ r.finishedLen = some r.samplingParams.maxNewTokens) :
    r.checkFinished.StopRecorded := by
  have hc := r.checkFinished_case
  generalize r.checkFinished = r' at hc ⊢
  cases hc with
  | already h => exact absurd h hf
  | aborted _ _ h => simp [ht] at h
  | length _ _ hmax => exact .length rfl rfl hmax
  | grammar _ _ hlt _ =>
    exact .stopped rfl rfl (hlen.imp_right .inl) hlt
  | token xs t _ _ hlt _ _ _ _ => exact .stopped rfl rfl (.inr (.inr rfl)) hlt
  | vocab xs t _ _ hlt _ hout _ _ =>
    have hsame : (xs ++ [r.vocabReplacement t]).length = r.outputIds.length := by simp [hout]
    exact .stopped rfl rfl (.inr (.inr (congrArg some hsame.symm))) (hsame ▸ hlt)
  | text reason _ _ hlt _ _ hs =>
    refine .stopped rfl ?_ (hlen.imp_right .inl) hlt
    unfold finishPosition
    split
    next n hn => exact absurd hn ((checkStrBasedFinish_reason hs).2 n)
    next => rfl
  | unfinished _ _ hlt _ _ _ => exact .pending hf hlen (.inr hlt)

theorem StopRecorded.finishedLen_of_pending (h : r.StopRecorded) (hf : ¬ r.finished) :
    r.finishedLen = none ∨ r.finishedLen = some r.samplingParams.maxNewTokens := by
  cases h with
  | pending _ hlen _ => exact hlen
  | length hreason _ _ => simp [finished, hreason] at hf
  | stopped hfin _ _ _ => exact absurd hfin hf

theorem StopRecorded.decodeToken (h : r.StopRecorded) (hf : ¬ r.finished) (ht : r.toFinish = none)
    (token : Token) (logits : LogitsRow) : (r.decodeToken token logits).StopRecorded :=
  stopRecorded_checkFinished hf ht (h.finishedLen_of_pending hf)

theorem StopRecorded.checkFinished (h : r.StopRecorded) (ht : r.toFinish = none) :
    r.checkFinished.StopRecorded := by
  by_cases hf : r.finished
  · rwa [checkFinished_of_finished hf]
  · exact stopRecorded_checkFinished hf ht (h.finishedLen_of_pending hf)

theorem StopRecorded.congr {r r' : Req} (h : r.StopRecorded)
    (hreason : r'.finishedReason = r.finishedReason) (hlen : r'.finishedLen = r.finishedLen)
    (hout : r'.outputIds = r.outputIds) (hsp : r'.samplingParams = r.samplingParams) :
    r'.StopRecorded := by
  have hfin : r'.finished = r.finished := by simp [finished, hreason]
  have hpos : r'.finishPosition = r.finishPosition := by simp [finishPosition, hreason, hout]
  cases h with
  | pending hf hl hs =>
    exact .pending (hfin ▸ hf) (by rw [hlen, hsp]; exact hl) (by rw [hout, hsp]; exact hs)
  | length hr hl hm =>
    exact .length (by rw [hreason, hr, hsp]) (by rw [hlen, hl, hsp]) (by rw [hout, hsp]; exact hm)
  | stopped hf hp hl hm =>
    exact .stopped (hfin ▸ hf) (by rw [hpos, hout, hp]) (by rw [hlen, hsp, hout]; exact hl)
      (by rw [hout, hsp]; exact hm)

end LLM42.Req
