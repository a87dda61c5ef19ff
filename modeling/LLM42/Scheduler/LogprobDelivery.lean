import LLM42.Scheduler.Records

/-! # Delivery of log-probabilities

`stream_output` sends the stored log-probabilities from an offset on and moves the offset past them.
Without a pass that replaces entries every entry goes out once, next to its token. -/

namespace LLM42

open Scheduler LLM42Worker Library List

namespace Req

def sending (r : Req) : Req :=
  { r with
    grammar := none
    toFinish := none
    kv := {}
    completed := false
    llm42VerifiedTokens := 0
    llm42NumRollbacks := 0
    llm42TokensRolledBack := 0
    llm42NumVerificationWindows := 0
    surrOffset := none
    readOffset := none
    surrAndDecodeIds := []
    curDecodeIdsLen := 0
    sendDecodeIdOffset := 0 }

/-- The messages sent so far carry the output and its log-probabilities up to the two offsets, and
no finish check cut the output. -/
structure LogprobsSent (sent : List StreamMessage) (r : Req) : Prop where
  returnLogprob : r.returnLogprob
  aligned : r.LogprobsAligned fun _ _ _ => True
  vals : sent.flatMap (·.outputTokenLogprobsVal) =
    (r.outputTokenLogprobsVal.getD []).take r.sendOutputTokenLogprobsOffset
  idxs : sent.flatMap (·.outputTokenLogprobsIdx) =
    r.outputIds.take r.sendOutputTokenLogprobsOffset
  tokens : sent.flatMap (·.outputIds) = r.outputIds.take r.sendTokenOffset
  logprobsOffset_le : r.sendOutputTokenLogprobsOffset ≤ r.outputIds.length
  sendTokenOffset_le : r.sendTokenOffset ≤ r.outputIds.length
  finishedLen : r.finishedLen = none ∨ (r.finished ∧ r.finishedLen = some r.outputIds.length)
  length_le : r.outputIds.length ≤ r.samplingParams.maxNewTokens

/-- After the final message nothing is left to send. -/
def SentAll (r : Req) : Prop :=
  r.finishedOutput → r.finished ∧ r.sendOutputTokenLogprobsOffset = r.outputIds.length ∧
    r.sendTokenOffset = r.outputIds.length

structure LogprobDelivery (sent : List StreamMessage) (r : Req) : Prop extends
    r.LogprobsSent sent where
  all : r.SentAll

variable {r r' : Req} {sent : List StreamMessage} {token : Token} {logits : LogitsRow}

theorem LogprobsSent.congr (h : r.LogprobsSent sent) (hc : r'.sending = r.sending) :
    r'.LogprobsSent sent := by
  have hview : r.sending.LogprobsSent sent :=
    { h with aligned := { h.aligned with } }
  rw [← hc] at hview
  exact { hview with aligned := { hview.aligned with } }

theorem LogprobDelivery.congr (h : r.LogprobDelivery sent) (hc : r'.sending = r.sending) :
    r'.LogprobDelivery sent := by
  have hview : r.sending.SentAll := h.all
  rw [← hc] at hview
  exact ⟨h.toLogprobsSent.congr hc, hview⟩

theorem SentAll.of_unfinished (h : r.SentAll) (hunf : ¬ r.finished) : r.finishedOutput = false := by
  by_contra hout
  exact hunf (h (by simpa using hout)).1

theorem AbortedIf.sending {p : Prop} (h : AbortedIf p r r') : r'.sending = r.sending := by
  rcases h with rfl | ⟨_, _, x, rfl⟩
  · rfl
  · rfl

theorem sending_acceptToken (r : Req) (token : Token) :
    (r.acceptToken token).sending = r.sending := by
  unfold acceptToken
  split
  · rfl
  · split
    · rfl
    · rfl

/-- A request that goes on, with a token that it can take. -/
structure Takes (r : Req) (token : Token) : Prop where
  unfinished : ¬ r.finished
  hasRoom : r.HasRoom
  inVocab : ¬ r.outsideVocab token

theorem Takes.congr (h : r.Takes token) (hc : r'.sending = r.sending) : r'.Takes token := by
  have hview : r.sending.Takes token := { h with }
  rw [← hc] at hview
  exact { hview with }

theorem LastInVocab.sending (h : r.LastInVocab) (hc : r'.sending = r.sending) :
    r'.LastInVocab := by
  have hview : r.sending.LastInVocab := h
  rw [← hc] at hview
  exact hview

theorem LogprobsSent.outputIdsThroughStop (h : r.LogprobsSent sent) :
    r.outputIdsThroughStop = r.outputIds := by
  rcases h.finishedLen with hlen | ⟨_, hlen⟩
  · simp [Req.outputIdsThroughStop, hlen]
  · simp [Req.outputIdsThroughStop, hlen]

theorem LogprobDelivery.appendToken (h : r.LogprobDelivery sent) (ht : r.Takes token) :
    (r.appendToken token logits).LogprobDelivery sent := by
  obtain ⟨val, hval, haligned⟩ := h.aligned.val
  have hlp := h.returnLogprob
  have hlen := haligned.length_eq
  have hoff := h.logprobsOffset_le
  have hsend := h.sendTokenOffset_le
  have hall : (r.appendToken token logits).SentAll := by
    intro hx
    rw [show (r.appendToken token logits).finishedOutput = false from
      h.all.of_unfinished ht.unfinished] at hx
    cases hx
  refine ⟨⟨hlp, h.aligned.appendToken hlp trivial, ?_, ?_, ?_, ?_, ?_, ?_, ?_⟩, hall⟩
  · have hvals := h.vals
    simp only [Req.appendToken, hlp, hval, if_true, Option.map_some, Option.getD_some, hvals]
    rw [take_append_of_le_length (by omega)]
  · rw [h.idxs]
    exact (take_append_of_le_length hoff).symm
  · rw [h.tokens]
    exact (take_append_of_le_length hsend).symm
  · rw [appendToken_outputIds, length_append]
    exact hoff.trans (Nat.le_add_right _ _)
  · rw [appendToken_outputIds, length_append]
    exact hsend.trans (Nat.le_add_right _ _)
  · exact .inl (h.finishedLen.resolve_right fun hf => ht.unfinished hf.1)
  · rw [appendToken_outputIds, length_append]
    exact ht.hasRoom

theorem LogprobDelivery.checkFinished (h : r.LogprobDelivery sent) (hlast : r.LastInVocab) :
    r.checkFinished.LogprobDelivery sent := by
  have hids := checkFinished_outputIds_of_inVocab hlast
  have hmax := h.length_le
  have hlen : r.checkFinished.finishedLen = none ∨
      (r.checkFinished.finished ∧ r.checkFinished.finishedLen = some r.outputIds.length) := by
    have hcase := r.checkFinished_case
    generalize r.checkFinished = r' at hcase ⊢
    cases hcase with
    | already => exact h.finishedLen
    | aborted reason hf _ | grammar hf _ _ _ | text reason hf _ _ _ _ _ =>
      exact .inl (h.finishedLen.resolve_right fun hx => hf hx.1)
    | length _ _ hfull => exact .inr ⟨rfl, congrArg some (Nat.le_antisymm hfull hmax)⟩
    | token | vocab => exact .inr ⟨rfl, rfl⟩
    | unfinished => exact h.finishedLen
  have hall : r.finishedOutput → r.checkFinished.finished := fun hout => by
    rw [finished_checkFinished_iff]
    exact .inl (h.all hout).1
  rw [checkFinished_eq, hids] at hlen hall ⊢
  exact ⟨{ h with aligned := { h.aligned with }, finishedLen := hlen },
    fun hout => ⟨hall hout, (h.all hout).2⟩⟩

theorem sending_verified {w : LLM42Worker} {v : Verdict} {id : ReqId} {net : ℕ}
    (hskip : w.skipMismatch ≤ 0) (h : v.Outcome w id r r' net) : r'.sending = r.sending := by
  have hrecord := h.logprobs
  rw [passLogprobs, if_pos hskip] at hrecord
  have hout := h.outcome
  cases hout with
  | accepted x _ =>
    simp only [logprobRecord, withStats, Prod.mk.injEq] at hrecord
    obtain ⟨hval, hidx, hoff⟩ := hrecord
    simp only [sending, withStats, hval, hidx, hoff]
  | corrected x t hk =>
    rw [rollbackCount_of_skip hskip] at hk
    exact absurd hk (Nat.lt_irrefl 0)

theorem sendOutput_frame (args : ServerArgs) (r : Req) :
    (r.sendOutput args).1.outputIds = r.outputIds ∧
      (r.sendOutput args).1.returnLogprob = r.returnLogprob ∧
      (r.sendOutput args).1.outputTokenLogprobsVal = r.outputTokenLogprobsVal ∧
      (r.sendOutput args).1.outputTokenLogprobsIdx = r.outputTokenLogprobsIdx ∧
      (r.sendOutput args).1.finished = r.finished ∧
      (r.sendOutput args).1.finishedLen = r.finishedLen ∧
      (r.sendOutput args).1.samplingParams = r.samplingParams ∧
      (r.sendOutput args).1.finishedOutput = r.finishedOutput := by
  unfold sendOutput initIncrementalDetokenize
  split <;> exact ⟨rfl, rfl, rfl, rfl, rfl, rfl, rfl, rfl⟩

theorem LogprobsSent.sendOutput (h : r.LogprobsSent sent) (args : ServerArgs)
    (hto : r.needsVerification args → ¬ r.finished → r.sendTokenOffset ≤ r.llm42VerifiedTokens) :
    (r.sendOutput args).1.LogprobsSent (sent ++ [(r.sendOutput args).2]) ∧
      (r.sendOutput args).1.sendOutputTokenLogprobsOffset = r.outputIds.length ∧
      (r.finished → (r.sendOutput args).1.sendTokenOffset = r.outputIds.length) := by
  obtain ⟨val, hval, haligned⟩ := h.aligned.val
  have hlp := h.returnLogprob
  have hlen := haligned.length_eq
  have hthrough := h.outputIdsThroughStop
  have hsend := h.sendTokenOffset_le
  obtain ⟨sendTo, hsendTo⟩ : ∃ sendTo, sendTo =
      if r.needsVerification args && !r.finished then min r.outputIds.length r.llm42VerifiedTokens
      else r.outputIds.length := ⟨_, rfl⟩
  have hbounds : r.sendTokenOffset ≤ sendTo ∧ sendTo ≤ r.outputIds.length := by
    rw [hsendTo]
    split_ifs with hneeds
    · simp only [Bool.and_eq_true, Bool.not_eq_true'] at hneeds
      exact ⟨le_min hsend (hto hneeds.1 (by simp [hneeds.2])), Nat.min_le_left _ _⟩
    · exact ⟨hsend, le_refl _⟩
  have hmoved : (r.sendOutput args).1.sendTokenOffset = sendTo ∧
      (r.sendOutput args).1.sendOutputTokenLogprobsOffset = r.outputIds.length ∧
      (r.sendOutput args).2.outputIds = (r.outputIds.take sendTo).drop r.sendTokenOffset ∧
      (r.sendOutput args).2.outputTokenLogprobsVal = val.drop r.sendOutputTokenLogprobsOffset ∧
      (r.sendOutput args).2.outputTokenLogprobsIdx =
        r.outputIds.drop r.sendOutputTokenLogprobsOffset := by
    simp only [Req.sendOutput, hthrough, hlp, if_true, hval, h.aligned.idx, Option.getD_some, hlen,
      hsendTo, and_self]
  obtain ⟨hto', hoff', hids, hvals, hidxs⟩ := hmoved
  obtain ⟨hout, hlp', hval', hidx', hreason, hflen, hparams, _⟩ := r.sendOutput_frame args
  rw [hval] at hval'
  rw [h.aligned.idx] at hidx'
  refine ⟨⟨hlp' ▸ hlp, ⟨⟨val, hval', by rwa [hout]⟩, by rw [hidx', hout]⟩, ?_, ?_, ?_, ?_, ?_, ?_, ?_⟩,
    hoff', fun hf => ?_⟩
  · rw [flatMap_append, flatMap_singleton, hvals, h.vals, hval, hval', hoff',
      Option.getD_some, take_append_drop, ← hlen, take_length]
  · rw [flatMap_append, flatMap_singleton, hidxs, h.idxs, hout, hoff',
      take_append_drop, take_length]
  · rw [flatMap_append, flatMap_singleton, hids, h.tokens, hout, hto',
      Library.take_append_drop_take _ hbounds.1]
  · rw [hoff', hout]
  · rw [hto', hout]
    exact hbounds.2
  · rw [hflen, hreason, hout]
    exact h.finishedLen
  · rw [hout, hparams]
    exact h.length_le
  · rw [hto', hsendTo, if_neg (by simp [hf])]

theorem LogprobDelivery.streamOutput (h : r.LogprobDelivery sent) (args : ServerArgs) :
    (r.streamOutput args).1.LogprobDelivery (sent ++ (r.streamOutput args).2.toList) := by
  have hquiet : r.LogprobDelivery (sent ++ (none : Option StreamMessage).toList) := by
    simpa using h
  unfold Req.streamOutput
  split_ifs with hmm hf hdone hdue
  · exact hquiet
  · exact hquiet
  · -- the final message fixes the stop position at the end of the output
    have hmark : r.markFinal.LogprobsSent sent := by
      have hlen : r.finishedLen.getD r.outputIds.length = r.outputIds.length := by
        rcases h.finishedLen with hlen | ⟨_, hlen⟩
        · rw [hlen, Option.getD_none]
        · rw [hlen, Option.getD_some]
      exact { h with aligned := { h.aligned with }, finishedLen := .inr ⟨hf, congrArg some hlen⟩ }
    obtain ⟨hsent, hoff, hto⟩ := hmark.sendOutput args fun _ hunf => absurd hf hunf
    obtain ⟨hout, _, _, _, hreason, _⟩ := r.markFinal.sendOutput_frame args
    refine ⟨hsent, fun _ => ⟨by rwa [hreason], ?_, ?_⟩⟩
    · rw [hoff, hout]
    · rw [hto hf, hout]
  · have hto : r.needsVerification args → ¬ r.finished →
        r.sendTokenOffset ≤ r.llm42VerifiedTokens := by
      intro hneeds _
      rw [shouldOutput, if_pos hneeds] at hdue
      split at hdue
      next hlt =>
        simp only [Bool.and_eq_true, decide_eq_true_eq] at hlt
        exact hlt.1.le
      · cases hdue
    obtain ⟨hsent, _, _⟩ := h.toLogprobsSent.sendOutput args hto
    obtain ⟨_, _, _, _, _, _, _, hfinal⟩ := r.sendOutput_frame args
    rw [h.all.of_unfinished hf] at hfinal
    refine ⟨hsent, fun hx => ?_⟩
    rw [hfinal] at hx
    cases hx
  · exact hquiet

end Req

section Requests

variable {cfg : SchedulerConfig} {rejected planned : Prop} {token : Token} {logits : LogitsRow}
  {v : Verdict} {e e' : BatchEntry} {r r₁ r₂ r' : Req} {message : Option StreamMessage}
  {sent : List StreamMessage}

section

variable (h : r.LogprobDelivery sent)

include h

theorem Req.LogprobDelivery.decoded (ht : r.Takes token) :
    (r.decoded cfg token logits).LogprobDelivery sent := by
  have hdec : (r.decodeToken token logits).LogprobDelivery sent :=
    (h.appendToken ht).checkFinished (Req.lastInVocab_appendToken ht.inVocab)
  refine Req.LogprobDelivery.congr ?_ (Req.sending_acceptToken _ _)
  split
  · exact hdec.congr rfl
  · exact hdec

theorem Req.LogprobDelivery.prefillToken (ht : r.Takes token) (enable : Bool) :
    (r.prefillToken enable token logits).LogprobDelivery sent := by
  have happ := @Req.LogprobDelivery.appendToken r sent token logits h ht
  have hlast := @Req.lastInVocab_appendToken r token logits ht.inVocab
  unfold Req.prefillToken
  dsimp only
  split
  · exact Req.LogprobDelivery.checkFinished (happ.congr rfl) hlast
  · exact happ.checkFinished hlast

theorem Req.LogprobDelivery.rechecked (hlast : r.LastInVocab) :
    r.rechecked.LogprobDelivery sent := by
  have hcheck := h.checkFinished hlast
  unfold Req.rechecked
  split_ifs
  · exact h
  · exact h
  · exact hcheck.congr rfl
  · exact hcheck

theorem RequestExtend.logprobDelivery {row : ℕ} (ht : r.Takes token)
    (hx : RequestExtend cfg rejected token logits row r r' message) :
    r'.LogprobDelivery (sent ++ message.toList) := by
  obtain @⟨indices, node, r₁, r₂, r₃, _, _, _, h₁, hout, h₃, rfl, rfl⟩ := hx
  have hs₁ : r₁.sending = r.sending := h₁.sending.trans rfl
  have hprefill : (r₁.prefillToken cfg.args.enableLlm42 token logits).LogprobDelivery sent :=
    (h.congr hs₁).prefillToken (ht.congr hs₁) _
  refine Req.LogprobDelivery.streamOutput (Req.LogprobDelivery.congr ?_ h₃.sending) cfg.args
  cases hout with
  | finished _ => exact hprefill.congr ((Req.sending_acceptToken _ _).trans rfl)
  | shared start indices' node' _ _ =>
    exact hprefill.congr ((Req.sending_acceptToken _ _).trans rfl)

theorem RequestDecode.logprobDelivery (ht : r.Takes token)
    (hskip : cfg.args.enableLlm42 → cfg.worker.skipMismatch ≤ 0)
    (hd : RequestDecode cfg rejected planned token logits v e r e' r' message) :
    r'.LogprobDelivery (sent ++ message.toList) := by
  obtain @⟨r₁, r₂, r₃, _, _, _, h₁, h₂, hafter, rfl, rfl, _⟩ := hd
  have hlast : r₂.LastInVocab :=
    (Req.lastInVocab_appendToken ht.inVocab).congr (Req.accepted_written ht.inVocab h₁ h₂).1
  have hs₁ : r₁.sending = r.sending := h₁.sending.trans rfl
  have hdel₂ : r₂.LogprobDelivery sent := ((h.congr hs₁).decoded (ht.congr hs₁)).congr h₂.sending
  refine Req.LogprobDelivery.streamOutput ?_ cfg.args
  cases hafter with
  | off _ => exact hdel₂
  | on henable hstep =>
    cases hstep with
    | skipped _ => exact hdel₂.rechecked hlast
    | @verified net r₄ _ _ hout =>
      have hpass := Req.sending_verified (hskip henable) hout
      have hsame : (r₄.rolledBack net).sending = r₂.sending := hpass
      exact (hdel₂.congr hsame).rechecked (hlast.sending hsame)

end

end Requests

/-- The events that keep the log-probabilities of deterministic requests with their tokens: tokens of
the vocabulary, room for one token at least, and no pass that compares. -/
def SchedulerEvent.LogprobsKept (cfg : SchedulerConfig) (s : Scheduler) : SchedulerEvent → Prop
  | .receive r => r.isDeterministic → r.returnLogprob → 0 < r.samplingParams.maxNewTokens
  | .extend ids tokens _ _ => ∀ id ∈ ids, (s.heap id).isDeterministic →
      (s.heap id).returnLogprob → ¬ (s.heap id).outsideVocab (tokens id)
  | .decode tokens _ _ _ => ∀ id ∈ s.filterBatch.running, (s.heap id).isDeterministic →
      (s.heap id).returnLogprob → ¬ (s.heap id).outsideVocab (tokens id) ∧
        (cfg.args.enableLlm42 → cfg.worker.skipMismatch ≤ 0)
  | _ => True

/-- Between two steps every deterministic request is as its messages say. -/
structure LogprobDeliveries (cfg : SchedulerConfig) (s : Scheduler) : Prop where
  consistent : Consistent cfg s
  delivery : ∀ id < s.nextId, (s.heap id).isDeterministic → (s.heap id).returnLogprob →
    (s.heap id).LogprobDelivery (s.sentTo id) ∧ (¬ (s.heap id).finished → (s.heap id).HasRoom)
  unknown : ∀ id, s.nextId ≤ id → s.sentTo id = []

section Runs

variable {cfg : SchedulerConfig} {s t : Scheduler}

instance (event : SchedulerEvent) : Decidable (event.LogprobsKept cfg s) := by
  delta SchedulerEvent.LogprobsKept
  induction event using SchedulerEvent.casesOn <;> infer_instance

theorem Req.Initial.logprobDelivery {r : Req} (h : r.Initial) (hlp : r.returnLogprob) :
    r.LogprobDelivery [] := by
  have hids := h.outputIds
  have hval := h.logprobsVal
  have hidx := h.logprobsIdx
  rw [if_pos hlp] at hval hidx
  refine ⟨⟨hlp, ⟨⟨[], hval, ?_⟩, by rw [hidx, hids]⟩, ?_, ?_, ?_, ?_, ?_, .inl h.finishedLen, ?_⟩, ?_⟩
  · rw [hids]
    exact aligned_nil _
  · simp [hval]
  · simp [hids]
  · simp [hids]
  · simp [h.logprobsOffset]
  · simp [h.sendTokenOffset]
  · simp [hids]
  · intro hx
    rw [h.finishedOutput] at hx
    cases hx

theorem Consistent.sentTo_unknown (h : Consistent cfg s) {event : SchedulerEvent}
    (hs : s.step cfg event = .ok t) {id : ReqId} (hid : s.nextId ≤ id) :
    t.sentTo id = s.sentTo id := by
  have hnot : id ∉ s.running ++ s.waitingQueue := fun hmem => absurd (h.lt id hmem) (not_lt.mpr hid)
  rw [mem_append, not_or] at hnot
  cases event with
  | receive r =>
    cases hs
    unfold Scheduler.receive
    split
    · rfl
    · rfl
  | extend ids tokens logitsOf victims =>
    rcases extend_ok hs with rfl | ⟨⟨P⟩⟩
    · rfl
    · have hids : id ∉ ids := fun hmem => hnot.2 (P.mem_queue id hmem)
      rw [P.sentTo (fun id hid => (h.queued id (P.mem_queue id hid)).unfinished) id, if_neg hids,
        append_nil]
  | decode tokens logitsOf verdict victims =>
    rcases decode_ok hs with ⟨_, rfl⟩ | ⟨⟨P⟩⟩
    · rfl
    · have hrun : id ∉ s.filterBatch.running := fun hmem =>
        hnot.1 (s.filterBatch_sublist.subset hmem)
      rw [P.sentTo h id, if_neg hrun, append_nil]
  | retract ids victims => exact sentTo_congr (retract_messages hs) id
  | abort rid abortAll =>
    cases hs
    rfl
  | runningTimeout overdue =>
    cases hs
    rfl
  | flushCache =>
    cases hs
    unfold Scheduler.flushCache
    split
    · rfl
    · rfl

theorem LogprobDeliveries.step (h : LogprobDeliveries cfg s) {event : SchedulerEvent}
    (hwhen : event.LogprobsKept cfg s) (hs : s.step cfg event = .ok t) :
    LogprobDeliveries cfg t := by
  have hnext := h.consistent.nextId_le hs
  refine ⟨h.consistent.step hs, fun id hid hdet hlp => ?_, fun id hid => ?_⟩
  · cases h.consistent.requestStep hs hid with
    | kept hlt hkept _ _ _ hsent =>
      have hcore := hkept.core_eq
      rw [Req.isDeterministic_congr hcore] at hdet
      rw [Req.returnLogprob_written (Req.written_congr hcore)] at hlp
      obtain ⟨hdel, hroom⟩ := h.delivery id hlt hdet hlp
      rw [hsent, Req.finished_congr hcore]
      exact ⟨hdel.congr hkept.sending, fun hunf => (hroom hunf).congr hcore⟩
    | received hnew hisNew hheap _ hsent =>
      have hinit := Req.initial_of_isNew hisNew
      rw [hheap] at hdet hlp ⊢
      rw [hsent, h.unknown id hnew.ge]
      refine ⟨hinit.logprobDelivery hlp, fun _ => ?_⟩
      rw [Req.HasRoom, hinit.outputIds]
      exact hwhen hdet hlp
    | extended hmem hq hstep _ _ hsent =>
      rw [Req.isDeterministic_fixed hstep.fixed] at hdet
      rw [Req.returnLogprob_fixed hstep.fixed] at hlp
      have hunf := (h.consistent.queued id hq).unfinished
      obtain ⟨hdel, hroom⟩ := h.delivery id (h.consistent.lt id (mem_append_right _ hq)) hdet hlp
      rw [hsent]
      exact ⟨hstep.logprobDelivery hdel ⟨hunf, hroom hunf, hwhen id hmem hdet hlp⟩, hstep.hasRoom⟩
    | decoded P he heq _ _ hstep hsent =>
      subst heq
      rw [Req.isDeterministic_fixed hstep.fixed] at hdet
      rw [Req.returnLogprob_fixed hstep.fixed] at hlp
      have hrun := mem_running.mpr ⟨_, he, rfl⟩
      have hunf := (mem_filterBatch.mp he).2
      obtain ⟨hdel, hroom⟩ := h.delivery _
        (h.consistent.lt _ (mem_append_left _ (s.filterBatch_sublist.subset hrun))) hdet hlp
      obtain ⟨hvocab, hskip⟩ := hwhen _ hrun hdet hlp
      rw [hsent]
      exact ⟨hstep.logprobDelivery hdel ⟨hunf, hroom hunf, hvocab⟩ hskip,
        hstep.hasRoom (live_of_mem_filterBatch h.consistent he)⟩
    | retracted _ hrun hheap _ hsent =>
      have hlt := h.consistent.lt id (mem_append_left _ (s.filterBatch_sublist.subset hrun))
      rw [hheap] at hdet hlp ⊢
      obtain ⟨hdel, hroom⟩ := h.delivery id hlt hdet hlp
      rw [hsent]
      exact ⟨hdel.congr rfl, hroom⟩
  · rw [h.consistent.sentTo_unknown hs (hnext.trans hid)]
    exact h.unknown id (hnext.trans hid)

/-- In every run of such events, once the final message of a deterministic request is out, its
messages together carried one log-probability for each token that they delivered, in order, with the
`idx` column equal to the tokens. -/
theorem logprobs_delivered_once
    (hs : Reachable (step cfg) (Boots cfg) (fun s e => e.LogprobsKept cfg s) s)
    {id : ReqId} (hid : id < s.nextId) (hdet : (s.heap id).isDeterministic)
    (hlp : (s.heap id).returnLogprob) (hfinal : (s.heap id).finishedOutput) :
    (s.sentTo id).flatMap (·.outputIds) = (s.heap id).outputIds ∧
      (s.sentTo id).flatMap (·.outputTokenLogprobsIdx) = (s.sentTo id).flatMap (·.outputIds) ∧
      some ((s.sentTo id).flatMap (·.outputTokenLogprobsVal)) = (s.heap id).outputTokenLogprobsVal ∧
      ((s.sentTo id).flatMap (·.outputTokenLogprobsVal)).length =
        ((s.sentTo id).flatMap (·.outputIds)).length := by
  have hinv : LogprobDeliveries cfg s := by
    refine hs.invariant (fun u hb => ⟨hb.consistent, fun id hid => ?_, fun id _ => ?_⟩)
      fun _ _ _ hi hwhen hstep => hi.step hwhen hstep
    · simp [hb.nextId] at hid
    · simp [sentTo, hb.messages]
  obtain ⟨hdel, _⟩ := hinv.delivery id hid hdet hlp
  obtain ⟨_, hoff, hto⟩ := hdel.all hfinal
  obtain ⟨val, hval, haligned⟩ := hdel.aligned.val
  have hlen := haligned.length_eq
  have htokens := hdel.tokens
  have hidxs := hdel.idxs
  have hvals := hdel.vals
  rw [hto, take_length] at htokens
  rw [hoff, take_length] at hidxs
  rw [hoff, hval, Option.getD_some, ← hlen, take_length] at hvals
  exact ⟨htokens, hidxs.trans htokens.symm, by rw [hvals, hval], by rw [hvals, htokens, hlen]⟩

end Runs

/-- A deterministic request for three tokens and their log-probabilities; the verifier confirms the
two decoded ones. -/
def confirmedLogprobs : List SchedulerEvent :=
  loggedTokens { smallReq with samplingParams.maxNewTokens := 3 } 7

/-- The small server with `skip_mismatch = 0`: passes run, nothing is compared. -/
def uncomparedServer :
    LLM42Worker × ReqToTokenPool × TokenToKVPoolAllocator :=
  init true 2 0 .whole 2 (.create 4) (.create 40 false) Nat.two_pos Nat.two_pos

theorem logprobs_delivered_once_uncompared :
    ∃ s, runEvents (step ⟨{}, uncomparedServer.1⟩)
        (idle ⟨uncomparedServer.2.2, uncomparedServer.2.1, .chunkCache⟩) confirmedLogprobs = .ok s ∧
      (s.sentTo 0).flatMap (·.outputIds) = [5, 6, 7] ∧
      (s.sentTo 0).flatMap (·.outputTokenLogprobsIdx) = [5, 6, 7] :=
  exists_runEvents_imp (p := fun s => _ ∧ _ ∧ _ ∧ _ ∧ (s.heap 0).outputIds = [5, 6, 7])
    (boots_idle {} true 2 0 .whole 2 40 4 false .chunkCache (by decide) (by decide) rfl
      (by decide +kernel))
    (by decide +kernel)
    fun _ hreach ⟨hid, hdet, hlp, hfinal, hids⟩ =>
      have ⟨htokens, hidxs, _, _⟩ := logprobs_delivered_once hreach hid hdet hlp hfinal
      ⟨htokens.trans hids, hidxs.trans (htokens.trans hids)⟩

/-- With the comparison on and every token confirmed, the pass moves the offset past all entries
before the only message goes out: three tokens are delivered and no log-probability. -/
theorem logprobs_lost_by_pass :
    ∃ s, runEvents (step ⟨{}, smallServer.1⟩) (smallStart .chunkCache)
        confirmedLogprobs = .ok s ∧
      (s.heap 0).isDeterministic ∧ (s.heap 0).returnLogprob ∧ (s.heap 0).finishedOutput ∧
      (s.sentTo 0).flatMap (·.outputIds) = [5, 6, 7] ∧
      (s.sentTo 0).flatMap (·.outputTokenLogprobsVal) = [] ∧
      (s.sentTo 0).flatMap (·.outputTokenLogprobsIdx) = [] :=
  exists_runEvents _ _ _ (by decide +kernel)

end LLM42
