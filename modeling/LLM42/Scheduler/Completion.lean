import LLM42.Scheduler.Windows

/-! # Completion waits for verification

A deterministic request gives its KV cache back only when every token of its output is verified, and
its final message goes out in the same step, unless a re-prefill or its grammar ends it behind the
back of the verifier. -/

namespace LLM42

open Scheduler LLM42Worker Library

/-- What a completed request has reached. -/
def Req.Answered (r : Req) : Prop :=
  r.completed → r.llm42VerifiedTokens = r.outputIds.length ∧ r.finishedOutput

/-- The grammar of a request accepts a token and terminates on it. -/
def Req.EndsGrammar (r : Req) (token : Token) : Prop :=
  ∃ g ∈ r.grammar, ∃ g' ∈ g.acceptToken token, g'.isTerminated
deriving Decidable

instance (r : Req) (token : Token) : Decidable (r.Rejects token) :=
  decidable_of_iff (∃ g ∈ r.grammar, g.acceptToken token = none) Iff.rfl

instance (s : Scheduler) (tokens : ReqId → Token) : Decidable (s.Rejected tokens) := by
  unfold Rejected
  infer_instance

instance (s : Scheduler) (ids : List ReqId) (tokens : ReqId → Token) :
    Decidable (s.RejectedBy ids tokens) := by
  unfold RejectedBy
  infer_instance

section Requests

variable {cfg : SchedulerConfig} {rejected planned : Prop} {token : Token} {logits : LogitsRow}
  {v : Verdict} {e e' : BatchEntry} {r r₁ r₂ r' : Req} {message : Option StreamMessage}

theorem Req.streamOutput_answered (args : ServerArgs) (hf : r.finished) (ht : r.toFinish = none)
    (hv : r.llm42VerifiedTokens = r.outputIds.length) :
    (r.streamOutput args).1.Answered := by
  intro _
  have hcore := r.streamOutput_core args
  refine ⟨?_, ?_⟩
  · rw [Req.outputIds_congr hcore, Req.verified_congr hcore, hv]
  · have hwait : r.waitsForVerification args = false := by
      simp [waitsForVerification, hv]
    unfold streamOutput
    rw [if_neg (by simp [ht]), if_pos hf, hwait, Bool.or_false]
    split
    next h => exact h
    next =>
    have h := congrArg (fun x : Req => x.finishedOutput)
      (r.markFinal.withoutOffsets_sendOutput args)
    exact h

/-- A finished request has no abort pending. -/
def Req.Closed (r : Req) : Prop := r.finished → r.toFinish = none

theorem Req.AbortedIf.closed {p : Prop} (h : r.AbortedIf p r') (hc : r.Closed) : r'.Closed := by
  rcases h with rfl | ⟨_, hf, x, rfl⟩
  · exact hc
  · exact fun hf' => absurd hf' hf

theorem Req.AbortedIf.eq_of_finished {p : Prop} (h : r.AbortedIf p r') (hf : r.finished) : r' = r :=
  h.resolve_right fun hx => hx.2.1 hf

theorem Req.acceptToken_closed (hc : r.Closed) : (r.acceptToken token).Closed := by
  intro hf
  rw [Req.finished_congr (r.acceptToken_core token)] at hf
  unfold Req.acceptToken
  split
  · exact hc hf
  · split
    · exact hc hf
    · rw [if_pos hf]
      exact hc hf

theorem Req.checkFinished_closed (hc : r.Closed) : r.checkFinished.Closed := by
  intro hf
  by_cases h : r.finished
  · rw [Req.checkFinished_of_finished h]
    exact hc h
  · exact Req.checkFinished_closes h hf

theorem Req.rechecked_closed (hc : r.Closed) : r.rechecked.Closed := by
  unfold Req.rechecked
  split_ifs
  · exact hc
  · exact hc
  · exact Req.checkFinished_closed hc
  · exact Req.checkFinished_closed hc

theorem LLM42Worker.VerifyOutcome.closed {rows : List Token} {k net : ℕ}
    (h : VerifyOutcome r rows k r' net) (hc : r.Closed) : (r'.rolledBack net).Closed := by
  cases h with
  | accepted => exact hc
  | corrected => exact fun hf => by cases hf

/-- In LLM-42 mode the result loop of a deterministic request only appends and checks. -/
theorem Req.decoded_of_deterministic (henable : cfg.args.enableLlm42 = true)
    (hdet : r.isDeterministic) :
    r.decoded cfg token logits = (r.decodeToken token logits).acceptToken token := by
  simp [Req.decoded, henable, hdet]

theorem Live.decoded_of_deterministic (hlive : Live cfg 0 0 e r)
    (henable : cfg.args.enableLlm42 = true) (hdet : r.isDeterministic)
    (h₁ : r.advanced.AbortedIf rejected r₁)
    (h₂ : (r₁.decoded cfg token logits).AbortedIf rejected r₂) :
    Live cfg 0 0 (e.stepped token) r₂ := by
  have hadv : Live cfg 1 0 (e.stepped token) r.advanced := hlive.advanced
  have hdet₁ : r₁.isDeterministic := by
    rw [Req.isDeterministic_congr h₁.core_eq]
    exact hdet
  refine Live.congr ?_ h₂.core_eq
  rw [Req.decoded_of_deterministic henable hdet₁]
  exact ((hadv.congr h₁.core_eq).decodeToken token logits).congr (Req.acceptToken_core _ _)

theorem LLM42Worker.VerifyOutcome.verified_eq {rows : List Token} {k net : ℕ}
    (h : VerifyOutcome r rows k r' net) :
    r'.llm42VerifiedTokens = r'.outputIds.length ∧ r'.completed = r.completed := by
  cases h with
  | accepted => exact ⟨rfl, rfl⟩
  | corrected => exact ⟨by simp [length_rdrop], rfl⟩

theorem Req.checkFinished_acceptToken_unfinished (h : ¬ r.checkFinished.finished)
    (hrej : ¬ r.Rejects token) (hends : ¬ r.EndsGrammar token) :
    ¬ (r.acceptToken token).checkFinished.finished := by
  rw [Req.finished_checkFinished_iff] at h ⊢
  obtain ⟨hf, hg, hends'⟩ : ¬ r.finished ∧ ¬ r.grammarTerminated ∧ ¬ r.Ends := by
    simpa only [not_or] using h
  unfold Req.acceptToken
  split
  · exact h
  next g hgram =>
  split
  next g' hg' =>
    rintro (hfin | hterm | hend)
    · exact hf hfin
    · exact hends ⟨g, hgram, g', hg', hterm⟩
    · exact hends' hend
  next hnone => exact absurd ⟨g, hgram, hnone⟩ hrej

theorem Req.rechecked_answered (args : ServerArgs) (hcomp : r.completed = false) (hc : r.Closed)
    (hv : r.checkFinished.finished → r.llm42VerifiedTokens = r.outputIds.length) :
    (r.rechecked.streamOutput args).1.Answered := by
  intro hdone
  have hfin : r.checkFinished.finished ∧ r.rechecked = r.checkFinished.release := by
    rw [Req.completed_congr (r.rechecked.streamOutput_core args)] at hdone
    unfold Req.rechecked at hdone ⊢
    split_ifs at hdone ⊢ with hskip hdone' hfin
    · simp [hcomp] at hdone
    · simp [hcomp] at hdone
    · exact ⟨hfin, rfl⟩
    · simp [hcomp] at hdone
  obtain ⟨hfin, heq⟩ := hfin
  have hclosed := Req.rechecked_closed hc
  rw [heq] at hclosed hdone ⊢
  refine Req.streamOutput_answered args hfin (hclosed hfin) ?_ hdone
  have hver := hv hfin
  simpa [Req.release] using hver

theorem RequestDecode.answered (hlive : Live cfg 0 0 e r) (henable : cfg.args.enableLlm42 = true)
    (hdet : r.isDeterministic) (hunf : ¬ r.finished)
    (hwhen : cfg.worker.windowSize ≤ r.unverified.length + 1 ∨ (¬ rejected ∧
      ¬ r.Rejects token ∧ (r.EndsGrammar token → (r.decodeToken token logits).finished)))
    (h : RequestDecode cfg rejected planned token logits v e r e' r' message) : r'.Answered := by
  obtain @⟨r₁, r₂, r₃, _, _, _, h₁, h₂, hafter, rfl, _, hready⟩ := h
  have hdet₁ : r₁.isDeterministic := by
    rw [Req.isDeterministic_congr h₁.core_eq]
    exact hdet
  have hunf₁ : ¬ r₁.finished := by
    rw [Req.finished_congr h₁.core_eq]
    exact hunf
  have hdec : r₁.decoded cfg token logits = (r₁.decodeToken token logits).acceptToken token :=
    Req.decoded_of_deterministic henable hdet₁
  have hlive₂ := hlive.decoded_of_deterministic henable hdet h₁ h₂
  have hclosed : r₂.Closed := by
    refine h₂.closed ?_
    rw [hdec]
    exact Req.acceptToken_closed (Req.checkFinished_closed fun hf => absurd hf hunf₁)
  cases hafter with
  | off hdis => simp [hdis] at henable
  | on _ hstep =>
    cases hstep with
    | verified _ _ hout =>
      obtain ⟨hver, hcomp⟩ := hout.outcome.verified_eq
      exact Req.rechecked_answered cfg.args (hcomp.trans hlive₂.completed) (hout.outcome.closed hclosed)
        fun _ => hver
    | skipped hskip =>
      refine Req.rechecked_answered cfg.args hlive₂.completed hclosed fun hfin => ?_
      -- a ready request is in a group, so this one is not ready and nothing can finish it
      exfalso
      have hlen : r₂.outputIds.length = r.outputIds.length + 1 := by
        rw [Req.outputIds_congr h₂.core_eq, Req.length_outputIds_decoded,
          Req.outputIds_congr h₁.core_eq]
        rfl
      have hver : r₂.llm42VerifiedTokens = r.llm42VerifiedTokens := by
        rw [Req.verified_congr h₂.core_eq, Req.verified_decoded, Req.verified_congr h₁.core_eq]
        rfl
      have hle := hlive.verified_le
      have hdet₂ : r₂.isDeterministic := by
        rw [Req.isDeterministic_congr h₂.core_eq, Req.isDeterministic_decoded]
        exact hdet₁
      have hnot : ¬ cfg.worker.isReady r₂ := fun h =>
        hskip (hready (hlive₂.isCandidate hdet₂ (by omega)) h)
      simp only [isReady, Bool.or_eq_true, decide_eq_true_eq, not_or] at hnot
      rcases hwhen with hfull | ⟨hrej, hown, hends⟩
      · rw [Req.length_unverified] at hfull
        omega
      · obtain rfl := h₁.eq_of_not hrej
        obtain rfl := h₂.eq_of_not hrej
        rw [hdec, Req.finished_congr (Req.acceptToken_core _ _)] at hnot
        have hopen : ¬ (r.decodeToken token logits).finished := by
          have hfin' := hnot.1
          rw [Req.decodeToken, Req.finished_checkFinished_iff] at hfin' ⊢
          exact hfin'
        rw [hdec, Req.decodeToken, Req.checkFinished_of_unfinished hnot.1] at hfin
        exact Req.checkFinished_acceptToken_unfinished hnot.1 hown (fun h => hopen (hends h)) hfin

theorem Req.finished_prefillToken_iff (enable : Bool) :
    (r.prefillToken enable token logits).finished ↔
      (r.appendToken token logits).checkFinished.finished := by
  unfold Req.prefillToken
  dsimp only
  split
  · rw [Req.finished_checkFinished_iff, Req.finished_checkFinished_iff]
    exact Iff.rfl
  · exact Iff.rfl

theorem Req.prefillToken_closed (enable : Bool) (hf : ¬ r.finished) :
    (r.prefillToken enable token logits).Closed := by
  unfold Req.prefillToken
  dsimp only
  split
  · exact Req.checkFinished_closed fun hf' => absurd hf' hf
  · exact Req.checkFinished_closed fun hf' => absurd hf' hf

theorem RequestExtend.answered {row : ℕ} (hq : Queued cfg r) (henable : cfg.args.enableLlm42 = true)
    (hdet : r.isDeterministic)
    (hwhen : r.outputIds ≠ [] →
      ¬ rejected ∧ ¬ (r.prefillToken cfg.args.enableLlm42 token logits).finished)
    (h : RequestExtend cfg rejected token logits row r r' message) : r'.Answered := by
  obtain @⟨indices, node, r₁, r₂, r₃, _, _, _, h₁, hout, h₃, rfl, _⟩ := h
  obtain ⟨_, _, hids, hver, hsamp⟩ := h₁.fields
  have hunf₁ : ¬ r₁.finished := by
    rw [Req.finished_congr h₁.core_eq]
    exact hq.unfinished
  have hcomp₁ : r₁.completed = false := (Req.completed_congr h₁.core_eq).trans hq.completed
  cases hout with
  | finished hf =>
    have hnil : r.outputIds = [] := by
      by_contra hne
      obtain ⟨hrej, hopen⟩ := hwhen hne
      obtain rfl := h₁.eq_of_not hrej
      refine hopen ?_
      rw [Req.finished_prefillToken_iff, Req.finished_checkFinished_iff] at hf ⊢
      exact hf
    have hids₁ : r₁.outputIds = [] := hids.trans hnil
    have hdet₁ : r₁.isDeterministic := by
      rw [Req.isDeterministic_congr h₁.core_eq]
      exact hdet
    have hclosed : (r₁.prefillToken cfg.args.enableLlm42 token logits).Closed :=
      Req.prefillToken_closed cfg.args.enableLlm42 hunf₁
    have hver₂ : (r₁.prefillToken cfg.args.enableLlm42 token logits).llm42VerifiedTokens =
        (r₁.prefillToken cfg.args.enableLlm42 token logits).outputIds.length := by
      rw [Req.prefillToken_llm42VerifiedTokens, if_pos ⟨hdet₁, henable, hids₁⟩,
        Req.length_prefillToken, hids₁]
      rfl
    generalize r₁.prefillToken cfg.args.enableLlm42 token logits = r₂ at hf hclosed hver₂ h₃
    have hcore := r₂.release.acceptToken_core token
    have hf₃ : (r₂.release.acceptToken token).finished := (Req.finished_congr hcore).trans hf
    obtain rfl := h₃.eq_of_finished hf₃
    refine Req.streamOutput_answered cfg.args hf₃ ?_ ?_
    · have hreleased : r₂.release.Closed := hclosed
      exact Req.acceptToken_closed hreleased hf₃
    · rw [Req.outputIds_congr hcore, Req.verified_congr hcore]
      exact hver₂
  | shared start indices' node' hf _ =>
    intro hdone
    rw [Req.completed_congr (h₃.streamOutput_core cfg.args),
      Req.completed_congr (Req.acceptToken_core _ _)] at hdone
    simp [Req.shared, hcomp₁] at hdone

end Requests

/-- A deterministic request is prefilled again only with a token that does not finish it, and its
grammar neither refuses a token nor terminates on one while its window still has room. -/
def SchedulerEvent.FinishesVerified (cfg : SchedulerConfig) (s : Scheduler) :
    SchedulerEvent → Prop
  | .extend ids tokens logitsOf _ => ∀ id ∈ ids, (s.heap id).isDeterministic →
      (s.heap id).outputIds ≠ [] → ¬ s.RejectedBy ids tokens ∧
        ¬ ((s.heap id).prefillToken cfg.args.enableLlm42 (tokens id) (logitsOf id)).finished
  | .decode tokens logitsOf _ _ => ∀ id ∈ s.filterBatch.running, (s.heap id).isDeterministic →
      cfg.worker.windowSize ≤ (s.heap id).unverified.length + 1 ∨
        (¬ s.Rejected tokens ∧ ((s.heap id).EndsGrammar (tokens id) →
          ((s.heap id).decodeToken (tokens id) (logitsOf id)).finished))
  | _ => True

/-- Every deterministic request that completed was verified to its end and answered. -/
structure Verified (cfg : SchedulerConfig) (s : Scheduler) : Prop where
  consistent : Consistent cfg s
  answered : ∀ id < s.nextId, (s.heap id).isDeterministic → (s.heap id).Answered

section Runs

variable {cfg : SchedulerConfig} {s t : Scheduler}

instance (event : SchedulerEvent) : Decidable (event.FinishesVerified cfg s) := by
  delta SchedulerEvent.FinishesVerified
  induction event using SchedulerEvent.casesOn <;> infer_instance

/-- A deterministic request completes only verified to its end. -/
theorem Verified.step (henable : cfg.args.enableLlm42 = true) (h : Verified cfg s)
    {event : SchedulerEvent} (hwhen : event.FinishesVerified cfg s)
    (hs : s.step cfg event = .ok t) : Verified cfg t := by
  refine ⟨h.consistent.step hs, fun id hid hdet => ?_⟩
  cases h.consistent.requestStep hs hid with
  | kept hlt hkept _ _ _ =>
    rw [Req.isDeterministic_congr hkept.core_eq] at hdet
    rcases hkept with heq | ⟨_, _, x, heq⟩
    · rw [heq]
      exact h.answered id hlt hdet
    · rw [heq]
      exact h.answered id hlt hdet
  | received _ hnew hheap _ =>
    intro hdone
    rw [hheap, (Req.initial_of_isNew hnew).completed] at hdone
    cases hdone
  | extended hmem hq hstep _ _ =>
    have hdet' : (s.heap id).isDeterministic := hstep.extended.isDeterministic ▸ hdet
    exact hstep.answered (h.consistent.queued id hq) henable hdet' (hwhen id hmem hdet')
  | decoded P he heq _ _ hstep =>
    have hlive := live_of_mem_filterBatch h.consistent he
    have hunf := (mem_filterBatch.mp he).2
    rw [heq] at hlive hunf
    have hrun : id ∈ s.filterBatch.running := mem_running.mpr ⟨_, he, heq⟩
    have hdet' : (s.heap id).isDeterministic := hstep.isDeterministic ▸ hdet
    refine hstep.answered hlive henable hdet' hunf ?_
    refine (hwhen id hrun hdet').imp_right fun ⟨hrej, hends⟩ => ⟨hrej, fun h => ?_, hends⟩
    exact hrej ⟨id, hrun, h⟩
  | retracted _ hrun hheap _ =>
    intro hdone
    obtain ⟨e, he, heq⟩ := mem_running.mp hrun
    have hlive := live_of_mem_filterBatch h.consistent he
    rw [heq] at hlive
    rw [hheap] at hdone
    exact absurd hdone (by simpa [Req.retracted, resetForRetract] using hlive.completed)

/-- As long as every finish is decided before the verification of its step, a deterministic request
that gave its KV cache back has all its tokens verified and its final message sent. -/
theorem completed_verified (henable : cfg.args.enableLlm42 = true)
    (hs : Reachable (step cfg) (Boots cfg) (fun s e => e.FinishesVerified cfg s) s) :
    ∀ id < s.nextId, (s.heap id).isDeterministic → (s.heap id).completed →
      (s.heap id).llm42VerifiedTokens = (s.heap id).outputIds.length ∧
        (s.heap id).finishedOutput := by
  have hinv : Verified cfg s :=
    hs.invariant (fun _ hb => ⟨hb.consistent, fun id hid => by simp [hb.nextId] at hid⟩)
      fun _ _ _ hi hwhen hstep => hi.step henable hwhen hstep
  exact hinv.answered

end Runs

/-- A deterministic request that ends with the third token of its output. -/
def threeTokens (grammar : Option Grammar) : List SchedulerEvent :=
  oneTokenIn { smallReq with grammar, samplingParams.maxNewTokens := 3 } ++
    [.decode (fun _ => 7) (fun _ => 0) ⟨fun _ i => if i = 0 then 6 else 7, none⟩ []]

theorem completed_verified_threeTokens : ∃ s, runEvents (step ⟨{}, smallServer.1⟩)
        (smallStart (.radixCache .nil false)) (threeTokens none) = .ok s ∧
      (s.heap 0).completed ∧ (s.heap 0).outputIds = [5, 6, 7] ∧
      (s.heap 0).llm42VerifiedTokens = 3 ∧ (s.heap 0).finishedOutput :=
  exists_runEvents_imp (p := fun _ => _ ∧ _ ∧ _ ∧ _) (boots_smallStart rfl) (by decide +kernel)
    fun _ hreach ⟨hid, hdet, hdone, hids⟩ =>
      have hver := completed_verified rfl hreach 0 hid hdet hdone
      ⟨hdone, hids, by rwa [hids] at hver⟩

def twoTokenGrammar : Grammar where
  terminatedOn tokens := decide (tokens.length = 2)
  accepts _ _ := true

/-- The grammar terminates on the second token, behind the first finish check and with the window
half full: the second check completes the request, whose last token nobody verifies and whose final
message waits for it forever. -/
theorem completed_unverified_grammar : ∃ s, runEvents (step ⟨{}, smallServer.1⟩)
        (smallStart (.radixCache .nil false)) ((threeTokens (some twoTokenGrammar)).take 3) = .ok s ∧
      (s.heap 0).completed ∧ (s.heap 0).outputIds = [5, 6] ∧ (s.heap 0).llm42VerifiedTokens = 1 ∧
      (s.heap 0).finishedOutput = false ∧ s.filterBatch.runningBatch = [] :=
  exists_runEvents _ _ _ (by decide +kernel)

end LLM42
