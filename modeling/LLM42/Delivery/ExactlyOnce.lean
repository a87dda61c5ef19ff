import LLM42.Delivery.Runs
import LLM42.Library.Aligned

/-! # Exactly-once delivery

Four offsets advance at different moments: the verified count, the sent count, the detokenizer
count and the stop position. The invariant ties the sent tokens to a prefix of the verified
output that no later rollback can reach. -/

namespace LLM42

open Library List

namespace Delivery

open LLM42Worker LLM42Info

variable {w : LLM42Worker} {args : ServerArgs} {d d' : Delivery}

/-- Offsets of the detokenizer ids: nothing yet, or the prompt and everything that was sent. -/
inductive DetokenizerState (args : ServerArgs) (d : Delivery) : Prop
  | fresh : d.req.surrOffset = none → d.req.readOffset = none → d.messages = [] →
      d.req.sendDecodeIdOffset = 0 → DetokenizerState args d
  | started (surr read : ℕ) : d.req.surrOffset = some surr → d.req.readOffset = some read →
      d.messages ≠ [] →
      d.req.surrAndDecodeIds = d.req.detokenizerPrompt ++ d.sentIds →
      d.req.sendDecodeIdOffset = d.req.surrAndDecodeIds.length →
      (args.isMultimodalGen = false → d.decodeIds = d.req.surrAndDecodeIds) →
      DetokenizerState args d

/-- The part of the invariant that also holds while a message is being built. -/
structure Core (args : ServerArgs) (d : Delivery) : Prop where
  deterministic : d.req.isDeterministic
  toFinish : d.req.toFinish = none
  verified_le : d.req.llm42VerifiedTokens ≤ d.req.outputIds.length
  send_le_verified : d.req.sendTokenOffset ≤ d.req.llm42VerifiedTokens
  send_le_max : d.req.sendTokenOffset ≤ d.req.samplingParams.maxNewTokens
  sent : d.sentIds = d.req.outputIds.take d.req.sendTokenOffset
  stop : d.req.StopRecorded
  detokenizer : DetokenizerState args d

structure Invariant (args : ServerArgs) (d : Delivery) : Prop extends Core args d where
  current : d.req.finishedOutput = false → d.messages ≠ [] →
    d.req.curDecodeIdsLen = d.req.sendTokenOffset
  done : d.req.finishedOutput → d.req.finished ∧
    d.req.llm42VerifiedTokens = d.req.outputIds.length ∧
    d.req.sendTokenOffset = d.req.outputIdsThroughStop.length

theorem Invariant.exact (h : Invariant args d) : Exact args d := by
  refine ⟨?_, ?_, ?_, ?_⟩
  · rw [h.sent, ← Nat.min_eq_left h.send_le_verified, ← take_take]
    exact take_prefix _ _
  · intro hout
    obtain ⟨_, _, hsend⟩ := h.done hout
    rw [h.sent, hsend, h.stop.through_eq, length_take, ← take_take, take_length]
  · intro hm
    cases h.detokenizer with
    | fresh _ _ hnil _ => exact absurd hnil hm
    | started _ _ _ _ _ hsurr _ _ => exact hsurr
  · intro hm hmm
    cases h.detokenizer with
    | fresh _ _ hnil _ => exact absurd hnil hm
    | started _ _ _ _ _ _ _ hhanded => exact hhanded hmm

def streamFields (r : Req) : Req :=
  { r.fixed with
    surrOffset := r.surrOffset
    readOffset := r.readOffset
    surrAndDecodeIds := r.surrAndDecodeIds
    curDecodeIdsLen := r.curDecodeIdsLen
    sendTokenOffset := r.sendTokenOffset
    sendDecodeIdOffset := r.sendDecodeIdOffset
    finishedOutput := r.finishedOutput }

theorem streamFields_checkFinished (r : Req) : streamFields r.checkFinished = streamFields r := by
  rw [r.checkFinished_eq]
  rfl

/-- Any step that leaves the streaming fields and the sent part of the output alone. -/
theorem Invariant.advance (h : Invariant args d) {r : Req}
    (hfields : streamFields r = streamFields d.req)
    (hout : r.outputIds.take d.req.sendTokenOffset = d.req.outputIds.take d.req.sendTokenOffset)
    (hmono : d.req.llm42VerifiedTokens ≤ r.llm42VerifiedTokens)
    (hle : r.llm42VerifiedTokens ≤ r.outputIds.length) (hstop : r.StopRecorded)
    (ht : r.toFinish = none) (hopen : d.req.finishedOutput = false) :
    Invariant args { d with req := r } := by
  have hsend : r.sendTokenOffset = d.req.sendTokenOffset := congrArg (·.sendTokenOffset) hfields
  have hdone : r.finishedOutput = false := (congrArg (·.finishedOutput) hfields).trans hopen
  have hids : r.surrAndDecodeIds = d.req.surrAndDecodeIds := congrArg (·.surrAndDecodeIds) hfields
  refine ⟨⟨?_, ?_, ?_, ?_, ?_, ?_, ?_, ?_⟩, ?_, ?_⟩
  · exact (congrArg (·.isDeterministic) hfields).trans h.deterministic
  · exact ht
  · exact hle
  · exact hsend.trans_le (h.send_le_verified.trans hmono)
  · rw [hsend]
    exact h.send_le_max.trans (congrArg (·.samplingParams.maxNewTokens) hfields).ge
  · exact h.sent.trans (by rw [hsend, hout])
  · exact hstop
  · cases h.detokenizer with
    | fresh hsurr hread hnil hoff =>
      exact .fresh ((congrArg (·.surrOffset) hfields).trans hsurr)
        ((congrArg (·.readOffset) hfields).trans hread) hnil
        ((congrArg (·.sendDecodeIdOffset) hfields).trans hoff)
    | started surr read hsurr hread hmsg hsofar hoff hhanded =>
      refine .started surr read ((congrArg (·.surrOffset) hfields).trans hsurr)
        ((congrArg (·.readOffset) hfields).trans hread) hmsg ?_ ?_ ?_
      · exact hids.trans (hsofar.trans (congrArg (·.detokenizerPrompt ++ d.sentIds) hfields).symm)
      · exact (congrArg (·.sendDecodeIdOffset) hfields).trans (hoff.trans (congrArg _ hids.symm))
      · intro hmm
        exact (hhanded hmm).trans hids.symm
  · intro _ hmsg
    exact (congrArg (·.curDecodeIdsLen) hfields).trans ((h.current hopen hmsg).trans hsend.symm)
  · intro hfin
    exact absurd hfin (by simp [hdone])

theorem Invariant.open_of_pending (h : Invariant args d) (hf : ¬ d.req.finished) :
    d.req.finishedOutput = false := by
  rw [← Bool.not_eq_true]
  exact fun hout => hf (h.done hout).1

theorem take_checkFinished {r : Req} {n : ℕ} (hn : n < r.outputIds.length) :
    r.checkFinished.outputIds.take n = r.outputIds.take n := by
  have hc := r.checkFinished_case
  generalize r.checkFinished = r' at hc ⊢
  cases hc with
  | vocab xs t _ _ _ _ hout _ _ =>
    have hxs : n ≤ xs.length := by
      simp only [hout, length_append, length_singleton] at hn
      omega
    simp [hout, take_append_of_le_length hxs]
  | _ => rfl

theorem Invariant.decode (h : Invariant args d) (hf : ¬ d.req.finished) (token : Token)
    (logits : LogitsRow) :
    Invariant args { d with req := d.req.decodeToken token logits } := by
  have hv := h.verified_le
  have hs := h.send_le_verified
  refine h.advance (streamFields_checkFinished _) ?_ ?_ ?_ (h.stop.decodeToken hf h.toFinish _ _)
    ?_ (h.open_of_pending hf)
  · rw [Req.decodeToken, take_checkFinished (by simp; omega), Req.appendToken_outputIds,
      take_append_of_le_length (by omega)]
  · simp
  · simp only [Req.decodeToken_llm42VerifiedTokens, Req.length_decodeToken]
    omega
  · exact Req.checkFinished_toFinish h.toFinish

theorem Invariant.prefill (h : Invariant args d) (henable : args.enableLlm42)
    (hnil : d.req.outputIds = []) (hf : ¬ d.req.finished) (token : Token) (logits : LogitsRow) :
    Invariant args { d with req := d.req.prefillToken args.enableLlm42 token logits } := by
  have hv := h.verified_le
  have hs := h.send_le_verified
  have heq : d.req.prefillToken args.enableLlm42 token logits =
      { d.req.appendToken token logits with llm42VerifiedTokens := 1 }.checkFinished := by
    simp [Req.prefillToken, h.deterministic, henable, hnil]
  have hzero : d.req.sendTokenOffset = 0 := by
    rw [hnil, length_nil] at hv
    omega
  rw [heq]
  refine h.advance ((streamFields_checkFinished _).trans rfl) ?_ ?_ ?_ ?_ ?_ (h.open_of_pending hf)
  · simp [hzero]
  · rw [hnil, length_nil] at hv
    simp
    omega
  · simp
  · exact Req.stopRecorded_checkFinished hf h.toFinish (h.stop.finishedLen_of_pending hf)
  · exact Req.checkFinished_toFinish h.toFinish

/-- A pass rolls back nothing that was sent. -/
theorem Invariant.verify (h : Invariant args d) {force : Bool} {out : VerifyOutput} {offset : ℕ}
    (hne : d.req.unverified ≠ []) (hfull : window force w.windowSize d.req = d.req.unverified)
    (hkeep : KeepsStops w d (.verify force out offset)) :
    Invariant args { d with req := (w.verifyReq force out offset d.req).checkFinished } := by
  have hv := h.verified_le
  have hs := h.send_le_verified
  have hulen := d.req.length_unverified
  have hpos := length_pos_iff.mpr hne
  have hopen : d.req.finishedOutput = false := by
    rw [← Bool.not_eq_true]
    intro hout
    have := (h.done hout).2.1
    omega
  have houtcome := w.verifyReq_outcome out offset hne hfull
  generalize w.verifyReq force out offset d.req = r' at houtcome ⊢
  generalize w.netRollback force out offset d.req = net at houtcome
  have hkeep' : d.req.finishedLen = none ∨
      d.req.finishedLen = some d.req.samplingParams.maxNewTokens ∨
      w.rollbackCount d.req.unverified
        (rowsFrom out.tokenIds offset d.req.unverified.length) = 0 := hkeep
  generalize w.rollbackCount d.req.unverified _ = k at houtcome hkeep'
  cases houtcome with
  | accepted x hk =>
    refine h.advance ((streamFields_checkFinished _).trans rfl) ?_ ?_ ?_ ?_ ?_ hopen
    · exact take_checkFinished (show _ < d.req.outputIds.length by omega)
    · simpa using hv
    · simp [withStats]
    · refine Req.StopRecorded.checkFinished ?_ h.toFinish
      exact h.stop.congr rfl rfl rfl rfl
    · exact Req.checkFinished_toFinish h.toFinish
  | corrected x t hk hku ht =>
    have hlen : (d.req.outputIds.rdrop k ++ [t]).length = d.req.outputIds.length - k + 1 := by
      simp [length_rdrop]
    refine h.advance ((streamFields_checkFinished _).trans rfl) ?_ ?_ ?_ ?_ ?_ hopen
    · rw [take_checkFinished (by rw [hlen]; omega), take_append_of_le_length
        (by rw [length_rdrop]; omega), rdrop, take_take, Nat.min_eq_left (by omega)]
    · simp
      omega
    · simp [length_rdrop]
    · refine Req.stopRecorded_checkFinished (by simp [Req.finished]) h.toFinish ?_
      rcases hkeep' with hnone | hmax | hzero
      · exact .inl hnone
      · exact .inr hmax
      · omega
    · exact Req.checkFinished_toFinish h.toFinish

def send (args : ServerArgs) (d : Delivery) : Delivery where
  req := (d.req.sendOutput args).1
  messages := d.messages ++ [(d.req.sendOutput args).2]

def sendTo (d : Delivery) : ℕ :=
  if d.req.finished then d.req.outputIdsThroughStop.length
  else min d.req.outputIdsThroughStop.length d.req.llm42VerifiedTokens

section

variable (hneeds : d.req.needsVerification args)

include hneeds

theorem sendOutput_sendTo : (d.req.sendOutput args).1.sendTokenOffset = d.sendTo ∧
    (d.req.sendOutput args).2.outputIds =
      (d.req.outputIdsThroughStop.take d.sendTo).drop d.req.sendTokenOffset := by
  cases hf : d.req.finished <;> simp [sendTo, hf, Req.sendOutput, hneeds]

theorem sentIds_send : (send args d).sentIds =
      d.sentIds ++ (d.req.outputIdsThroughStop.take d.sendTo).drop d.req.sendTokenOffset := by
  simp [send, sentIds, (sendOutput_sendTo hneeds).2]

theorem decodeIds_send (hmm : args.isMultimodalGen = false) :
    (send args d).decodeIds = d.decodeIds ++
      (d.req.initIncrementalDetokenize true).surrAndDecodeIds.drop d.req.sendDecodeIdOffset := by
  simp [send, decodeIds, Req.sendOutput, hneeds, hmm]

theorem detokenizerState_send {surr read : ℕ} {ids : List Token}
    (hinit : d.req.initIncrementalDetokenize true = { d.req with
        surrOffset := some surr
        readOffset := some read
        surrAndDecodeIds := ids
        curDecodeIdsLen := d.req.llm42VerifiedTokens })
    (hids : ids = d.req.detokenizerPrompt ++ (send args d).sentIds)
    (hhanded : args.isMultimodalGen = false →
      d.decodeIds ++ ids.drop d.req.sendDecodeIdOffset = ids) :
    DetokenizerState args (send args d) ∧
      (send args d).req.curDecodeIdsLen = d.req.llm42VerifiedTokens := by
  have hprompt : (send args d).req.detokenizerPrompt = d.req.detokenizerPrompt :=
    congrArg (·.detokenizerPrompt) (Req.withoutOffsets_sendOutput args d.req)
  have hsurr : (send args d).req.surrAndDecodeIds = ids := by
    simp [send, Req.sendOutput, hneeds, hinit]
  refine ⟨.started surr read ?_ ?_ (by simp [send]) ?_ ?_ ?_, ?_⟩
  · simp [send, Req.sendOutput, hneeds, hinit]
  · simp [send, Req.sendOutput, hneeds, hinit]
  · rw [hsurr, hprompt]
    exact hids
  · rw [hsurr]
    simp [send, Req.sendOutput, hneeds, hinit]
  · intro hmm
    rw [hsurr, decodeIds_send hneeds hmm, hinit]
    exact hhanded hmm
  · simp [send, Req.sendOutput, hneeds, hinit]

end

theorem Core.needsVerification (h : Core args d) (henable : args.enableLlm42) :
    d.req.needsVerification args := by
  simp [Req.needsVerification, h.deterministic, henable]

/-- A message starts where the last one ended. -/
theorem core_send (h : Core args d) (henable : args.enableLlm42)
    (hcur : d.messages ≠ [] → d.req.curDecodeIdsLen = d.req.sendTokenOffset)
    (hsend : d.req.sendTokenOffset ≤ d.sendTo) (hver : d.sendTo ≤ d.req.llm42VerifiedTokens)
    (hto : d.req.outputIdsThroughStop.take d.sendTo = d.req.outputIds.take d.sendTo)
    (hdetok : d.req.outputIdsThroughStop.take d.req.llm42VerifiedTokens =
      d.req.outputIds.take d.sendTo) :
    Core args (send args d) ∧ (send args d).req.curDecodeIdsLen = d.req.llm42VerifiedTokens := by
  have hneeds := h.needsVerification henable
  have hframe := Req.withoutOffsets_sendOutput args d.req
  have hout : (send args d).req.outputIds = d.req.outputIds := congrArg (·.outputIds) hframe
  have hvereq : (send args d).req.llm42VerifiedTokens = d.req.llm42VerifiedTokens :=
    congrArg (·.llm42VerifiedTokens) hframe
  have hsp : (send args d).req.samplingParams = d.req.samplingParams :=
    congrArg (·.samplingParams) hframe
  have hoff : (send args d).req.sendTokenOffset = d.sendTo := (sendOutput_sendTo hneeds).1
  have hsent : (send args d).sentIds = d.req.outputIds.take d.sendTo := by
    rw [sentIds_send hneeds, h.sent, hto, take_append_drop_take _ hsend]
  have hdet : DetokenizerState args (send args d) ∧
      (send args d).req.curDecodeIdsLen = d.req.llm42VerifiedTokens := by
    cases h.detokenizer with
    | fresh hs hr hnil hzero =>
      refine detokenizerState_send hneeds (Req.initIncrementalDetokenize_first hs hr) ?_ ?_
      · rw [hsent, hdetok]
      · simp [decodeIds, hnil, hzero]
    | started surr read hs hr hmsg hsofar hdec hhanded =>
      refine detokenizerState_send hneeds (Req.initIncrementalDetokenize_next hs hr) ?_ ?_
      · rw [hsofar, hsent, hdetok, h.sent, hcur hmsg, append_assoc, take_append_drop_take _ hsend]
      · intro hmm
        rw [hhanded hmm, hdec, drop_left]
  refine ⟨⟨?_, ?_, ?_, ?_, ?_, ?_, ?_, hdet.1⟩, hdet.2⟩
  · simpa [Req.isDeterministic, hsp] using h.deterministic
  · exact (congrArg (·.toFinish) hframe).trans h.toFinish
  · rw [hvereq, hout]
    exact h.verified_le
  · rw [hvereq, hoff]
    exact hver
  · rw [hoff, hsp]
    refine le_trans ?_ h.stop.length_through_le
    unfold sendTo
    split
    · exact le_rfl
    · exact min_le_left _ _
  · rw [hsent, hout, hoff]
  · exact h.stop.congr (congrArg (·.finishedReason) hframe) (congrArg (·.finishedLen) hframe) hout hsp

theorem core_markFinal (h : Core args d) (hf : d.req.finished) :
    Core args { d with req := d.req.markFinal } ∧
      d.req.markFinal.outputIdsThroughStop = d.req.outputIdsThroughStop := by
  have hmark : d.req.markFinal.StopRecorded := by
    cases h.stop with
    | pending hnf _ _ => exact absurd hf hnf
    | length hreason hlen hmax =>
      exact .length hreason (by simp [Req.markFinal, hlen]) hmax
    | stopped _ hpos hlen hlt =>
      refine .stopped hf hpos ?_ hlt
      rcases hlen with hlen | hlen | hlen
      · exact .inr (.inr (by simp [Req.markFinal, hlen]))
      · exact .inr (.inl (by simp [Req.markFinal, hlen]))
      · exact .inr (.inr (by simp [Req.markFinal, hlen]))
  refine ⟨⟨h.deterministic, h.toFinish, h.verified_le, h.send_le_verified, h.send_le_max, h.sent,
    hmark, ?_⟩, ?_⟩
  · cases h.detokenizer with
    | fresh hs hr hnil hzero => exact .fresh hs hr hnil hzero
    | started surr read hs hr hmsg hsofar hdec hhanded =>
      exact .started surr read hs hr hmsg hsofar hdec hhanded
  · rw [hmark.through_eq, h.stop.through_eq]
    rfl

theorem Core.send_le_through (h : Core args d) :
    d.req.sendTokenOffset ≤ d.req.outputIdsThroughStop.length := by
  have hs := h.send_le_verified
  have hv := h.verified_le
  have hmax := h.send_le_max
  rw [h.stop.through_eq, length_take]
  cases h.stop with
  | pending hf _ _ =>
    rw [Req.finishPosition_of_not_finished hf]
    omega
  | length hreason _ _ =>
    have hpos : d.req.finishPosition = d.req.samplingParams.maxNewTokens := by
      simp [Req.finishPosition, hreason]
    omega
  | stopped _ hpos _ _ => omega

theorem take_length_through (h : d.req.StopRecorded) :
    d.req.outputIds.take d.req.outputIdsThroughStop.length = d.req.outputIdsThroughStop := by
  rw [h.through_eq, length_take, ← take_take, take_length]

section

variable (h : Invariant args d)

include h

theorem Invariant.sendFinal (henable : args.enableLlm42) (hf : d.req.finished)
    (hopen : d.req.finishedOutput = false)
    (hver : d.req.llm42VerifiedTokens = d.req.outputIds.length) :
    Invariant args (send args { d with req := d.req.markFinal }) := by
  obtain ⟨hcore, hthrough⟩ := core_markFinal h.toCore hf
  set d₁ : Delivery := { d with req := d.req.markFinal } with hd₁
  have hto : d₁.sendTo = d₁.req.outputIdsThroughStop.length := if_pos hf
  have hle : d₁.req.outputIdsThroughStop.length ≤ d₁.req.llm42VerifiedTokens := by
    rw [hthrough, h.stop.through_eq, length_take]
    exact (min_le_right _ _).trans hver.ge
  have hall := take_length_through hcore.stop
  have hmsg := core_send hcore henable (h.current hopen) (hto ▸ hcore.send_le_through)
    (hto ▸ hle) (by rw [hto, take_length, hall])
    (by rw [hto, hall, take_of_length_le hle])
  have hframe := Req.withoutOffsets_sendOutput args d₁.req
  refine ⟨hmsg.1, ?_, ?_⟩
  · intro hout
    have hfin : (send args d₁).req.finishedOutput = true := congrArg (·.finishedOutput) hframe
    rw [hfin] at hout
    cases hout
  · intro _
    refine ⟨(congrArg (·.finished) hframe).trans hf, ?_, ?_⟩
    · have hv : (send args d₁).req.llm42VerifiedTokens = d.req.llm42VerifiedTokens :=
        congrArg (·.llm42VerifiedTokens) hframe
      have ho : (send args d₁).req.outputIds = d.req.outputIds := congrArg (·.outputIds) hframe
      rw [hv, ho, hver]
    · have hstop : (send args d₁).req.outputIdsThroughStop = d₁.req.outputIdsThroughStop :=
        congrArg (·.outputIdsThroughStop) hframe
      rw [hstop, ← hto]
      exact (sendOutput_sendTo (hcore.needsVerification henable)).1

theorem Invariant.sendVerified (henable : args.enableLlm42) (hf : ¬ d.req.finished) :
    Invariant args (send args d) := by
  have hopen := h.open_of_pending hf
  have hthrough : d.req.outputIdsThroughStop = d.req.outputIds := by
    rw [h.stop.through_eq, Req.finishPosition_of_not_finished hf, take_length]
  have hto : d.sendTo = d.req.llm42VerifiedTokens := by
    rw [sendTo, if_neg hf, hthrough, Nat.min_eq_right h.verified_le]
  have hmsg := core_send h.toCore henable (h.current hopen)
    (hto ▸ h.send_le_verified) hto.le (by rw [hthrough]) (by rw [hthrough, hto])
  refine ⟨hmsg.1, ?_, ?_⟩
  · intro _ _
    rw [hmsg.2, ← hto]
    exact (sendOutput_sendTo (h.toCore.needsVerification henable)).1.symm
  · intro hout
    have hfin : (send args d).req.finishedOutput = false :=
      (congrArg (·.finishedOutput) (Req.withoutOffsets_sendOutput args d.req)).trans hopen
    rw [hfin] at hout
    cases hout

theorem Invariant.stream (henable : args.enableLlm42) (hstep : step w args d .stream = .ok d') :
    Invariant args d' := by
  simp only [step, Req.streamOutput] at hstep
  split at hstep
  · cases hstep
    simpa using h
  split at hstep
  next hf =>
    split at hstep
    · cases hstep
      simpa using h
    next hgo =>
    cases hstep
    simp only [Bool.or_eq_true, not_or, Bool.not_eq_true] at hgo
    have hver : d.req.llm42VerifiedTokens = d.req.outputIds.length := by
      have := h.verified_le
      have := hgo.2
      simp only [Req.waitsForVerification, h.toCore.needsVerification henable, Bool.true_and,
        decide_eq_false_iff_not] at this
      omega
    exact h.sendFinal henable hf hgo.1 hver
  next hf =>
  split at hstep
  · cases hstep
    exact h.sendVerified henable hf
  · cases hstep
    simpa using h

theorem Invariant.step (henable : args.enableLlm42) {e : DeliveryEvent} (hkeep : KeepsStops w d e)
    (hstep : step w args d e = .ok d') : Invariant args d' := by
  cases e with
  | prefill token logits =>
    simp only [Delivery.step] at hstep
    split at hstep
    next hg =>
      cases hstep
      exact h.prefill henable hg.1 hg.2 token logits
    next =>
      cases hstep
      exact h
  | decode token logits =>
    simp only [Delivery.step] at hstep
    split at hstep
    next hg =>
      cases hstep
      exact h.decode hg.2 token logits
    next =>
      cases hstep
      exact h
  | verify force out offset =>
    simp only [Delivery.step] at hstep
    split at hstep
    next hg =>
      cases hstep
      exact h.verify hg.1 hg.2 hkeep
    next =>
      cases hstep
      exact h
  | stream => exact h.stream henable hstep

end

theorem invariant_of_starts (h : d.Starts) : Invariant args d := by
  obtain ⟨hfresh, hdet, hmsg⟩ := h
  simp only [Req.isFresh, Bool.and_eq_true, List.isEmpty_iff, decide_eq_true_eq,
    Option.isNone_iff_eq_none, Bool.not_eq_true'] at hfresh
  obtain ⟨⟨⟨⟨⟨⟨⟨⟨⟨⟨hnil, hver⟩, hreason⟩, hlen⟩, hout⟩, hto⟩, -⟩, hsurr⟩, hread⟩, hsend⟩, hdec⟩ :=
    hfresh
  refine ⟨⟨hdet, hto, ?_, ?_, ?_, ?_, ?_, ?_⟩, ?_, ?_⟩
  · simp [hver]
  · simp [hsend]
  · simp [hsend]
  · simp [sentIds, hmsg, hsend]
  · exact .pending (by simp [Req.finished, hreason]) (.inl hlen) (.inl hnil)
  · exact .fresh hsurr hread hmsg hdec
  · exact fun _ h => absurd hmsg h
  · simp [hout]

theorem sentIds_step {e : DeliveryEvent} (h : step w args d e = .ok d') :
    d.sentIds <+: d'.sentIds := by
  cases e with
  | stream =>
    cases h
    simp [sentIds]
  | _ =>
    simp only [step] at h
    split at h <;> cases h <;> exact prefix_refl _

/-- As long as no recorded stop is rolled back, every verified token is delivered exactly once, to
the client and to the detokenizer, and the final message completes the output up to its stop. -/
theorem delivery_exact (w : LLM42Worker) (args : ServerArgs) (henable : args.enableLlm42)
    {d : Delivery} (hd : Reachable (step w args) Starts (KeepsStops w) d) :
    Exact args d ∧ ∀ d', Reachable (step w args) (· = d) (fun _ _ => True) d' →
      d.sentIds <+: d'.sentIds := by
  have hinv : Invariant args d :=
    hd.invariant (fun _ h => invariant_of_starts h) fun _ _ _ h hk he => h.step henable hk he
  refine ⟨hinv.exact, fun d' hd' => ?_⟩
  induction hd' with
  | init h => exact h ▸ prefix_refl _
  | next _ _ he ih => exact ih.trans (sentIds_step he)

/-- A streaming request that stops at token 2 or when the text has an `X`, which token 8 prints. -/
def stopRequest : Req where
  rid := "a"
  originInputIds := [1]
  vocabSize := 1000
  eosTokenIds := [2]
  stream := true
  tokenizer := some ⟨none, [], fun ids => ids.map fun t => if t = 8 then 'X' else 'a'⟩
  samplingParams := { stopStrs := [['X']], stopStrMaxLen := 1, isDeterministic := true }

def verifierRows (tokens : List Token) : VerifyOutput := ⟨fun j => tokens.getD j 0, none⟩

/-- A corrected token, then a stop token that verification confirms. -/
def confirmedScript : List DeliveryEvent :=
  [.prefill 5 0, .decode 6 0, .stream, .decode 7 0, .verify false (verifierRows [6, 9]) 0, .stream,
   .decode 2 0, .verify false (verifierRows [2]) 0, .stream]

theorem delivery_exact_confirmedScript :
    ∃ d, runEvents (step (.plain 2 (by decide)) {}) ⟨stopRequest, []⟩ confirmedScript =
        .ok d ∧ d.req.finishedOutput ∧ d.sentIds = d.req.outputIds.take d.req.finishPosition :=
  exists_runEvents_imp ⟨by decide, by decide, rfl⟩ (by decide +kernel)
    fun _ hreach hout => ⟨hout, (delivery_exact _ _ rfl hreach).1.final hout⟩

/-- Verification takes back a stop token; a later stop string then ends the output one token
too early, because the old stop position is still recorded. -/
def takenBackScript : List DeliveryEvent :=
  [.prefill 5 0, .decode 2 0, .verify false (verifierRows [7]) 0, .decode 8 0,
   .verify false (verifierRows [8]) 0, .stream]

theorem delivery_loses_last_token :
    ∃ d, runEvents (step (.plain 2 (by decide)) {}) ⟨stopRequest, []⟩ takenBackScript =
        .ok d ∧ d.req.finishedOutput ∧ d.sentIds = [5, 7] ∧
      d.req.outputIds.take d.req.finishPosition = [5, 7, 8] ∧ ¬ Exact {} d :=
  (exists_runEvents _ _ _ (p := fun _ => _ ∧ _ ∧ _) (by decide +kernel)).imp
    fun _ ⟨hrun, hout, hsent, hall⟩ => ⟨hrun, hout, hsent, hall, fun hexact => by
      have hfinal := hexact.final hout
      rw [hsent, hall] at hfinal
      exact absurd hfinal (by decide)⟩

end Delivery

end LLM42
