import LLM42.Scheduler.Errors
import LLM42.Scheduler.Journey
import LLM42.Verification.FixedShape

/-! # No request runs ahead of its window

Between two steps a deterministic request has fewer unverified tokens than a window holds, as long as
no re-prefill adds a token that the window has no room for. Every pass then has the fixed shape. -/

namespace LLM42

open Scheduler LLM42Worker LLM42Info Library

/-- There is room for another token in the window of a deterministic request. -/
def Req.Fits (windowSize : ℕ) (r : Req) : Prop :=
  r.isDeterministic → r.unverified.length < windowSize

section Requests

variable {cfg : SchedulerConfig} {rejected planned : Prop} {token : Token} {logits : LogitsRow}
  {v : Verdict} {e e' : BatchEntry} {r r' : Req} {message : Option StreamMessage}

theorem Req.length_unverified_congr (hc : r'.core = r.core) :
    r'.unverified.length = r.unverified.length := by
  have h := congrArg (fun x : Req => x.unverified.length) hc
  exact h

theorem Req.Fits.congr {w : ℕ} (h : r.Fits w) (hc : r'.core = r.core) : r'.Fits w := by
  intro hdet
  rw [Req.length_unverified_congr hc]
  exact h (Req.isDeterministic_congr hc ▸ hdet)

@[simp] theorem Req.isDeterministic_decoded :
    (r.decoded cfg token logits).isDeterministic = r.isDeterministic := by
  unfold Req.decoded
  rw [Req.isDeterministic_congr (Req.acceptToken_core _ _)]
  split
  · exact Req.decodeToken_isDeterministic ..
  · exact Req.decodeToken_isDeterministic ..

@[simp] theorem Req.verified_decoded :
    (r.decoded cfg token logits).llm42VerifiedTokens = r.llm42VerifiedTokens := by
  have hcore := fun x : Req => congrArg (fun y : Req => y.llm42VerifiedTokens)
    (x.acceptToken_core token)
  refine (hcore _).trans ?_
  have hver : (r.decodeToken token logits).llm42VerifiedTokens = r.llm42VerifiedTokens :=
    r.decodeToken_llm42VerifiedTokens token logits
  split
  · exact hver
  · exact hver

@[simp] theorem Req.length_outputIds_decoded :
    (r.decoded cfg token logits).outputIds.length = r.outputIds.length + 1 := by
  unfold Req.decoded
  rw [Req.outputIds_congr (Req.acceptToken_core _ _)]
  split
  · exact r.length_decodeToken token logits
  · exact r.length_decodeToken token logits

theorem Req.length_unverified_decoded_le :
    (r.decoded cfg token logits).unverified.length ≤ r.unverified.length + 1 := by
  rw [Req.length_unverified, Req.length_unverified, Req.length_outputIds_decoded,
    Req.verified_decoded]
  omega

theorem Req.rolledBack_unverified (n : ℕ) (r : Req) : (r.rolledBack n).unverified = r.unverified :=
  rfl

theorem LLM42Worker.VerifyOutcome.unverified_eq {rows : List Token} {k net : ℕ}
    (h : VerifyOutcome r rows k r' net) : r'.unverified = [] := by
  cases h with
  | accepted => simp [Req.unverified, withStats]
  | corrected x t hk hle hrow => simp [Req.unverified, length_rdrop]

theorem Req.rechecked_counts (r : Req) : r.rechecked.outputIds.length = r.outputIds.length ∧
    r.rechecked.llm42VerifiedTokens = r.llm42VerifiedTokens ∧
    r.rechecked.isDeterministic = r.isDeterministic := by
  unfold Req.rechecked
  split_ifs
  · exact ⟨rfl, rfl, rfl⟩
  · exact ⟨rfl, rfl, rfl⟩
  · exact ⟨r.length_checkFinished, r.checkFinished_llm42VerifiedTokens,
      r.checkFinished_isDeterministic⟩
  · exact ⟨r.length_checkFinished, r.checkFinished_llm42VerifiedTokens,
      r.checkFinished_isDeterministic⟩

theorem Req.Fits.rechecked {w : ℕ} (h : r.Fits w) : r.rechecked.Fits w := by
  obtain ⟨hlen, hver, hdet⟩ := r.rechecked_counts
  intro hd
  rw [Req.length_unverified, hlen, hver, ← Req.length_unverified]
  exact h (hdet ▸ hd)

theorem Live.isCandidate (h : Live cfg 0 0 e r) (hdet : r.isDeterministic)
    (hlt : r.llm42VerifiedTokens < r.outputIds.length) : isCandidate r := by
  simp only [LLM42Worker.isCandidate, Bool.and_eq_true, Bool.not_eq_true', decide_eq_true_eq]
  exact ⟨⟨⟨hdet, by rw [h.row]; rfl⟩, h.isRetracted⟩, hlt⟩

theorem RequestDecode.fits (hlive : Live cfg 0 0 e r) (henable : cfg.args.enableLlm42 = true)
    (h : RequestDecode cfg rejected planned token logits v e r e' r' message) (hunf : ¬ r'.finished) :
    r'.Fits cfg.worker.windowSize := by
  obtain @⟨r₁, r₂, r₃, _, _, _, h₁, h₂, hafter, rfl, _, hready⟩ := h
  rw [Req.finished_congr (r₃.streamOutput_core cfg.args)] at hunf
  refine Req.Fits.congr ?_ (r₃.streamOutput_core cfg.args)
  cases hafter with
  | off hdis => simp [hdis] at henable
  | on _ hstep =>
    refine Req.Fits.rechecked fun hdet => ?_
    cases hstep with
    | verified _ _ hout =>
      have hnil := hout.outcome.unverified_eq
      rw [Req.rolledBack_unverified, hnil]
      exact cfg.worker.windowSize_pos
    | skipped hskip =>
      -- not in a group although it is a candidate: its window is not full
      by_contra hfull
      rcases hlive.accepted h₁ h₂ with hgone | ⟨hlive₂, _⟩
      · exact (Req.rechecked_of_unfinished hunf).1 hgone.finished
      · rw [Req.length_unverified] at hfull
        have hwin := cfg.worker.windowSize_pos
        refine hskip (hready (hlive₂.isCandidate hdet (by omega)) ?_)
        simp only [isReady, Bool.or_eq_true, decide_eq_true_eq]
        exact .inr (by omega)

theorem RequestExtend.fits {row : ℕ} (henable : cfg.args.enableLlm42 = true)
    (hroom : r.isDeterministic → r.outputIds ≠ [] → r.unverified.length + 2 ≤ cfg.worker.windowSize)
    (h : RequestExtend cfg rejected token logits row r r' message) :
    r'.Fits cfg.worker.windowSize := by
  obtain @⟨indices, node, r₁, r₂, _, _, _, _, h₁, hout, h₃, rfl, _⟩ := h
  obtain ⟨_, _, (hids : _ = r.outputIds), (hver : _ = r.llm42VerifiedTokens), hsamp⟩ := h₁.fields
  have hdet : r₁.isDeterministic = r.isDeterministic :=
    congrArg SamplingParams.isDeterministic hsamp
  have hprefill : (r₁.prefillToken cfg.args.enableLlm42 token logits).Fits
      cfg.worker.windowSize := by
    intro hd
    rw [Req.prefillToken_isDeterministic, hdet] at hd
    rw [Req.length_unverified, Req.length_prefillToken, Req.prefillToken_llm42VerifiedTokens, hids,
      hver, hdet]
    by_cases hnil : r.outputIds = []
    · rw [if_pos ⟨hd, henable, hnil⟩, hnil]
      exact cfg.worker.windowSize_pos
    · have hfit := hroom hd hnil
      rw [Req.length_unverified] at hfit
      rw [if_neg fun h => hnil h.2.2]
      omega
  refine Req.Fits.congr ?_ (h₃.streamOutput_core cfg.args)
  cases hout with
  | finished _ =>
    have hreleased : (r₁.prefillToken cfg.args.enableLlm42 token logits).release.Fits
        cfg.worker.windowSize := hprefill
    exact hreleased.congr (Req.acceptToken_core _ _)
  | shared start indices node _ _ =>
    have hshared : ((r₁.prefillToken cfg.args.enableLlm42 token logits).shared start indices
        node).Fits cfg.worker.windowSize := hprefill
    exact hshared.congr (Req.acceptToken_core _ _)

end Requests

/-- A re-prefill of a deterministic request finds room for two more tokens in its window: the one it
samples itself and the one of the decode step that follows. -/
def SchedulerEvent.RefillsFit (cfg : SchedulerConfig) (s : Scheduler) : SchedulerEvent → Prop
  | .extend ids _ _ _ => ∀ id ∈ ids, (s.heap id).isDeterministic → (s.heap id).outputIds ≠ [] →
      (s.heap id).unverified.length + 2 ≤ cfg.worker.windowSize
  | _ => True

/-- Between two steps every deterministic request has room in its window. -/
structure Windowed (cfg : SchedulerConfig) (s : Scheduler) : Prop where
  consistent : Consistent cfg s
  fits : ∀ id ∈ s.running, ¬ (s.heap id).finished → (s.heap id).Fits cfg.worker.windowSize

section Runs

variable {cfg : SchedulerConfig} {s t a : Scheduler} {tokens : ReqId → Token}
  {logitsOf : ReqId → LogitsRow} {verdict : Verdict} {victims : List NodeRef}

instance (event : SchedulerEvent) : Decidable (event.RefillsFit cfg s) := by
  delta SchedulerEvent.RefillsFit
  induction event using SchedulerEvent.casesOn <;> infer_instance

/-- A step leaves every deterministic request room in its window. -/
theorem Windowed.step (henable : cfg.args.enableLlm42 = true) (h : Windowed cfg s)
    {event : SchedulerEvent} (hfit : event.RefillsFit cfg s) (hs : s.step cfg event = .ok t) :
    Windowed cfg t := by
  have hc := h.consistent.step hs
  refine ⟨hc, fun id hid hunf => ?_⟩
  obtain ⟨e, he, heq⟩ := mem_running.mp hid
  cases h.consistent.requestStep hs (hc.lt id (List.mem_append_left _ hid)) with
  | kept _ hkept hbatch _ _ =>
    rw [Req.finished_congr hkept.core_eq] at hunf
    exact (h.fits id (mem_running.mpr ⟨e, hbatch e he heq, heq⟩) hunf).congr hkept.core_eq
  | received _ _ _ hnot => exact absurd hid hnot
  | extended hmem hq hstep _ _ =>
    exact hstep.fits henable (hfit id hmem)
  | decoded P he₀ heq₀ _ _ hstep =>
    have hlive := live_of_mem_filterBatch h.consistent he₀
    rw [heq₀] at hlive
    exact hstep.fits hlive henable hunf
  | retracted _ _ _ hnot => exact absurd hid hnot

theorem Windowed.verifiable (h : Windowed cfg s) (henable : cfg.args.enableLlm42 = true)
    (P : ResultPhases cfg s tokens logitsOf) {id : ReqId} (hid : id ∈ P.planned) :
    Verifiable (P.accepted.heap id) ∧
      (P.accepted.heap id).unverified.length ≤ cfg.worker.windowSize := by
  obtain ⟨hmem, hcand⟩ := candidate_of_mem_plannedIds hid
  obtain ⟨e, he, rfl⟩ := List.mem_map.mp hmem
  refine ⟨((P.accepted_entries h.consistent e he).verifiable henable hcand).2, ?_⟩
  rw [P.accepted_runningBatch h.consistent] at he
  obtain ⟨e₀, he₀, rfl⟩ := List.mem_map.mp he
  obtain ⟨r, h₁, h₂⟩ := (P.accepted_spec h.consistent).1 e₀ he₀
  have hdet := isDeterministic_of_isCandidate hcand
  have hreq : (e₀.stepped (tokens e₀.req)).req = e₀.req := rfl
  rw [hreq] at hdet ⊢
  have hfit := h.fits e₀.req (s.filterBatch_sublist.subset (mem_running.mpr ⟨e₀, he₀, rfl⟩))
    (mem_filterBatch.mp he₀).2
  have hadv : (s.heap e₀.req).advanced.Fits cfg.worker.windowSize := hfit
  rw [Req.isDeterministic_congr h₂.core_eq, Req.isDeterministic_decoded] at hdet
  rw [Req.length_unverified_congr h₂.core_eq]
  exact Req.length_unverified_decoded_le.trans (hadv.congr h₁.core_eq hdet)

/-- As long as every re-prefill fits, all batches of all passes have `fixed_size` windows of
`window_size` tokens, and no verification pass fails a check. -/
theorem verify_batches_fixed_shape {pool : FixedSizeVerificationPool}
    (henable : cfg.args.enableLlm42 = true) (halign : cfg.worker.alwaysAlign = true)
    (hpool : cfg.worker.fixedPool = some pool)
    (hs : Reachable (step cfg) (Boots cfg) (fun s e => e.RefillsFit cfg s) s) :
    (∀ tokens logitsOf victims a, s.resultLoop cfg tokens logitsOf victims = .ok a →
      ∀ verdict : Verdict, ∀ x ∈ cfg.worker.passBatches verdict.run a.memory.rows
        (cfg.worker.plannedPasses a.heap a.runningBatch) a.toVerifyState,
        ∃ b, x = .ok b ∧ b.FixedShape pool.fixedSize cfg.worker.windowSize) ∧
    ∀ event c, s.step cfg event ≠ .error (.verify c) := by
  have hwin : Windowed cfg s :=
    hs.invariant (fun _ hs => ⟨hs.consistent, by simp [running, hs.runningBatch]⟩)
      fun _ _ _ hi hfit hstep => hi.step henable hfit hstep
  have hc := hwin.consistent
  have hpasses : ∀ {tokens logitsOf} (P : ResultPhases cfg s tokens logitsOf) (verdict : Verdict),
      (∀ x ∈ cfg.worker.passBatches verdict.run P.accepted.memory.rows
        (cfg.worker.plannedPasses P.accepted.heap P.accepted.runningBatch)
        P.accepted.toVerifyState,
        ∃ b, x = .ok b ∧ b.FixedShape pool.fixedSize cfg.worker.windowSize) ∧
      ∃ y, cfg.worker.runPasses verdict.run P.accepted.memory.rows
        (cfg.worker.plannedPasses P.accepted.heap P.accepted.runningBatch)
        P.accepted.toVerifyState = .ok y := by
    intro tokens logitsOf P verdict
    have hnd : P.accepted.running.Nodup := P.accepted_running hc ▸ nodup_filterBatch hc
    exact passBatches_fixed hpool halign (fun p hp => plannedPasses_form hpool hp)
      (cfg.worker.nodup_plannedIds hnd) fun id hid => hwin.verifiable henable P hid
  constructor
  · intro tokens logitsOf victims a ha verdict
    obtain ⟨P, rfl⟩ := resultLoop_ok ha
    exact (hpasses P verdict).1
  · intro event c herr
    cases event with
    | extend ids tokens logitsOf victims =>
      rcases extend_error hc herr with ⟨n, hn⟩ | ⟨n, hn⟩ | ⟨m, k, hn⟩
      · cases hn
      · cases hn
      · cases hn
    | decode tokens logitsOf verdict victims =>
      rcases decode_error hc herr with ⟨n, hn⟩ | ⟨P, _, hver⟩
      · cases hn
      · obtain ⟨_, ⟨v, results⟩, hok⟩ := hpasses P verdict
        unfold verifyRequests checkAndVerifyDeterministicRequests at hver
        rw [show P.accepted.toVerifyState.heap = P.accepted.heap from rfl,
          show P.accepted.toVerifyState.batch = P.accepted.runningBatch from rfl, hok] at hver
        cases hver
    | retract ids victims =>
      obtain ⟨t, ht⟩ := retract_isOk hc ids victims
      rw [step, ht] at herr
      cases herr
    | _ => cases herr

end Runs

/-- Request 0 runs until its EOS token 2; request 1, with the longer prompt, is deterministic. -/
def twoRequests : List SchedulerEvent :=
  [.receive { rid := "a", originInputIds := List.range 13, vocabSize := 1000, eosTokenIds := [2],
              samplingParams := { maxNewTokens := 14 } },
   .receive { rid := "b", originInputIds := List.range 14, vocabSize := 1000,
              samplingParams := { maxNewTokens := 6, isDeterministic := true } },
   .extend [0] (fun _ => 5) (fun _ => 0) [], .extend [1] (fun _ => 5) (fun _ => 0) []]

/-- The deterministic request is retracted right after a verification that accepted its window. -/
def retractVerified : List SchedulerEvent :=
  twoRequests ++
  [.decode (fun _ => 6) (fun _ => 0) ⟨fun _ _ => 6, none⟩ [],
   .decode (fun _ => 6) (fun _ => 0) ⟨fun _ _ => 6, none⟩ [],
   .retract [1] (fun _ => []), .extend [1] (fun _ => 7) (fun _ => 0) []]

theorem verify_batches_fixed_shape_retractVerified :
    ∃ s, runEvents (step ⟨{}, smallServer.1⟩) (smallStart .chunkCache)
        retractVerified = .ok s ∧ (s.heap 1).outputIds = [5, 6, 6, 7] ∧
      (s.heap 1).llm42VerifiedTokens = 3 ∧
      ∀ event c, s.step ⟨{}, smallServer.1⟩ event ≠ .error (.verify c) :=
  exists_runEvents_imp (p := fun _ => _ ∧ _) (boots_smallStart rfl) (by decide +kernel)
    fun _ hreach ⟨hids, hver⟩ => ⟨hids, hver, (verify_batches_fixed_shape rfl rfl rfl hreach).2⟩

/-- Three decode steps leave one free slot for two requests, so the deterministic one is retracted
with one unverified token, and prefilled again when the other has finished. -/
def retractUnverified : List SchedulerEvent :=
  twoRequests ++
  [.decode (fun _ => 6) (fun _ => 0) ⟨fun _ _ => 6, none⟩ [],
   .decode (fun _ => 6) (fun _ => 0) ⟨fun _ _ => 6, none⟩ [],
   .decode (fun _ => 6) (fun _ => 0) ⟨fun _ _ => 6, none⟩ [],
   .retract [1] (fun _ => []),
   .decode (fun _ => 2) (fun _ => 0) ⟨fun _ _ => 6, none⟩ [],
   .extend [1] (fun _ => 7) (fun _ => 0) []]

/-- The next decode step verifies three tokens in a window of two: `from_requests` and the cache
locations keep to the window, the input ids do not. -/
theorem cacheLocMismatch_after_retraction :
    ∃ s, runEvents (step ⟨{}, smallServer.1⟩) (smallStart .chunkCache)
        retractUnverified = .ok s ∧ (s.heap 1).outputIds = [5, 6, 6, 6, 7] ∧
      (s.heap 1).llm42VerifiedTokens = 3 ∧
      s.step ⟨{}, smallServer.1⟩ (.decode (fun _ => 8) (fun _ => 0) ⟨fun _ _ => 6, none⟩ []) =
        .error (.verify (.cacheLocMismatch 5 4)) :=
  exists_runEvents _ _ _ (by decide +kernel)

end LLM42
