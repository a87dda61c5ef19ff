import LLM42.Request.Finish

/-! # Streaming

The per-request part of `stream_output_generation` and the incremental detokenizer input. -/

namespace LLM42

/-- The server arguments and the model property that streaming reads. -/
structure ServerArgs where
  enableLlm42 : Bool := true
  streamInterval : ℕ := 1
  isMultimodalGen : Bool := false
  streamInterval_pos : 0 < streamInterval := by decide

/-- One request's share of the message to the detokenizer. -/
structure StreamMessage where
  rid : String
  finishedReason : Option FinishReason
  decodedText : Text
  decodeIds : List Token
  readOffset : ℕ
  outputIds : List Token
  promptTokens : ℕ
  completionTokens : ℕ
  retractionCount : ℕ
  outputTokenLogprobsVal : List Logprob
  outputTokenLogprobsIdx : List Token
  llm42NumRollbacks : ℕ
  llm42TokensRolledBack : ℕ
  llm42NumVerificationWindows : ℕ

def initIncrementalDetokenizationOffset : ℕ := 5

def defaultForceStreamInterval : ℕ := 50

namespace Req

def initIncrementalDetokenize (r : Req) (needsVerification : Bool) : Req :=
  let outputIds := r.outputIdsThroughStop
  let stop := if needsVerification then r.llm42VerifiedTokens else outputIds.length
  match r.surrOffset, r.readOffset with
  | some _, some _ =>
    { r with
      surrAndDecodeIds := r.surrAndDecodeIds ++ (outputIds.take stop).drop r.curDecodeIdsLen
      curDecodeIdsLen := stop }
  | _, _ =>
    let readOffset := r.originInputIdsUnpadded.length
    let surrOffset := readOffset - initIncrementalDetokenizationOffset
    { r with
      readOffset := some readOffset
      surrOffset := some surrOffset
      surrAndDecodeIds := r.originInputIdsUnpadded.drop surrOffset ++ outputIds.take stop
      curDecodeIdsLen := stop }

/-- The part of the prompt that the detokenizer gets ahead of the output. -/
def detokenizerPrompt (r : Req) : List Token :=
  r.originInputIdsUnpadded.drop
    (r.originInputIdsUnpadded.length - initIncrementalDetokenizationOffset)

theorem initIncrementalDetokenize_first {r : Req} (hs : r.surrOffset = none)
    (hr : r.readOffset = none) :
    r.initIncrementalDetokenize true =
      { r with
        surrOffset := some (r.originInputIdsUnpadded.length - initIncrementalDetokenizationOffset)
        readOffset := some r.originInputIdsUnpadded.length
        surrAndDecodeIds := r.detokenizerPrompt ++ r.outputIdsThroughStop.take r.llm42VerifiedTokens
        curDecodeIdsLen := r.llm42VerifiedTokens } := by
  simp [initIncrementalDetokenize, hs, hr, detokenizerPrompt]

theorem initIncrementalDetokenize_next {r : Req} {surr read : ℕ} (hs : r.surrOffset = some surr)
    (hr : r.readOffset = some read) :
    r.initIncrementalDetokenize true =
      { r with
        surrOffset := some surr
        readOffset := some read
        surrAndDecodeIds := r.surrAndDecodeIds ++
          (r.outputIdsThroughStop.take r.llm42VerifiedTokens).drop r.curDecodeIdsLen
        curDecodeIdsLen := r.llm42VerifiedTokens } := by
  simp [initIncrementalDetokenize, hs, hr]

/-- Some suffix of the last text may be the beginning of a stop string. -/
def checkMatchStopStrPrefix (r : Req) : Bool :=
  if r.samplingParams.stopStrs.isEmpty || r.tailStr.isEmpty then false
  else r.samplingParams.stopStrs.any fun stopStr =>
    !stopStr.isEmpty && (decide (stopStr <:+: r.tailStr) ||
      (List.range (min r.tailStr.length stopStr.length)).any fun i =>
        decide (r.tailStr.rtake (i + 1) = stopStr.take (i + 1)))

def needsVerification (args : ServerArgs) (r : Req) : Bool := r.isDeterministic && args.enableLlm42

def effectiveStreamInterval (args : ServerArgs) (r : Req) : ℕ :=
  match r.samplingParams.streamInterval with
  | none | some 0 => args.streamInterval
  | some n => n

def intervalReached (args : ServerArgs) (r : Req) (n : ℕ) : Bool :=
  let interval := r.effectiveStreamInterval args
  if !args.isMultimodalGen && decide (1 < interval) then decide (n % interval = 1)
  else decide (n % interval = 0)

/-- Whether a request that goes on is due for a message. -/
def shouldOutput (args : ServerArgs) (r : Req) : Bool :=
  if r.needsVerification args then
    if r.sendTokenOffset < r.llm42VerifiedTokens && r.stream then
      r.intervalReached args r.llm42VerifiedTokens
    else false
  else if r.stream then
    r.intervalReached args r.outputIds.length && !r.checkMatchStopStrPrefix
  else
    !args.isMultimodalGen && decide (r.outputIds.length % defaultForceStreamInterval = 0)

def sendOutput (args : ServerArgs) (r : Req) : Req × StreamMessage :=
  let needs := r.needsVerification args
  let r₁ := r.initIncrementalDetokenize needs
  let decodeIds := r₁.surrAndDecodeIds
  let output := r.outputIdsThroughStop
  let sendTo := if needs && !r.finished then min output.length r.llm42VerifiedTokens
    else output.length
  let vals := r.outputTokenLogprobsVal.getD []
  let idxs := r.outputTokenLogprobsIdx.getD []
  ({ r₁ with
      sendDecodeIdOffset := decodeIds.length
      sendTokenOffset := sendTo
      sendOutputTokenLogprobsOffset :=
        if r.returnLogprob then vals.length else r.sendOutputTokenLogprobsOffset },
    { rid := r.rid
      finishedReason := r.finishedReason
      decodedText := r.decodedText
      decodeIds := if args.isMultimodalGen then decodeIds else decodeIds.drop r.sendDecodeIdOffset
      readOffset := r₁.readOffset.getD 0 - r₁.surrOffset.getD 0
      outputIds := (output.take sendTo).drop r.sendTokenOffset
      promptTokens := r.originInputIds.length
      completionTokens := if needs then r.llm42VerifiedTokens else output.length
      retractionCount := r.kv.retractionCount
      outputTokenLogprobsVal :=
        if r.returnLogprob then vals.drop r.sendOutputTokenLogprobsOffset else []
      outputTokenLogprobsIdx :=
        if r.returnLogprob then idxs.drop r.sendOutputTokenLogprobsOffset else []
      llm42NumRollbacks := r.llm42NumRollbacks
      llm42TokensRolledBack := r.llm42TokensRolledBack
      llm42NumVerificationWindows := r.llm42NumVerificationWindows })

/-- The final message waits until every token of a deterministic request is verified. -/
def waitsForVerification (args : ServerArgs) (r : Req) : Bool :=
  r.needsVerification args && decide (r.llm42VerifiedTokens < r.outputIds.length)

def markFinal (r : Req) : Req :=
  { r with
    finishedOutput := true
    finishedLen := some (r.finishedLen.getD r.outputIds.length) }

def streamOutput (args : ServerArgs) (r : Req) : Req × Option StreamMessage :=
  if args.isMultimodalGen && r.toFinish.isSome then (r, none)
  else if r.finished then
    if r.finishedOutput || r.waitsForVerification args then (r, none)
    else ((r.markFinal.sendOutput args).1, some (r.markFinal.sendOutput args).2)
  else if r.shouldOutput args then ((r.sendOutput args).1, some (r.sendOutput args).2)
  else (r, none)

def withoutOffsets (r : Req) : Req :=
  { r with
    surrOffset := none
    readOffset := none
    surrAndDecodeIds := []
    curDecodeIdsLen := 0
    sendTokenOffset := 0
    sendDecodeIdOffset := 0
    sendOutputTokenLogprobsOffset := 0 }

theorem withoutOffsets_sendOutput (args : ServerArgs) (r : Req) :
    (r.sendOutput args).1.withoutOffsets = r.withoutOffsets := by
  unfold sendOutput initIncrementalDetokenize
  split <;> rfl

end Req

end LLM42
