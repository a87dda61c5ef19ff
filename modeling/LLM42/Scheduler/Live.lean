import LLM42.Scheduler.DecodePhases

/-! # Requests of a batch

What holds of a request while it decodes, once it is done, and while it waits; and how each phase
of a decode step takes a request from one of these to the next. -/

namespace LLM42

/-- A decoding request and its row of the batch. The KV cache is `ahead` tokens longer than the
output calls for, and the row of the batch lags behind it by `lag`. -/
structure Live (cfg : SchedulerConfig) (ahead lag : ℕ) (e : BatchEntry) (r : Req) : Prop where
  row : r.kv.reqPoolIdx = some e.reqPoolIdx
  committed : r.kv.kvCommittedLen + 1 = r.originInputIds.length + r.outputIds.length + ahead
  allocated : r.kv.kvAllocatedLen = r.kv.kvCommittedLen
  seqLen : e.seqLen + lag = r.kv.kvCommittedLen
  output_pos : 0 < r.outputIds.length
  isRetracted : r.kv.isRetracted = false
  committedFreed : r.kv.kvCommittedFreed = false
  overallocatedFreed : r.kv.kvOverallocatedFreed = false
  completed : r.completed = false
  verified_le : r.llm42VerifiedTokens ≤ r.outputIds.length
  verified_pos : cfg.args.enableLlm42 → r.isDeterministic → 0 < r.llm42VerifiedTokens

/-- A request that finished and gave everything back. -/
structure Gone (r : Req) : Prop where
  finished : r.finished
  completed : r.completed = true
  row : r.kv.reqPoolIdx = none

/-- A request in the waiting queue, new or retracted. -/
structure Queued (cfg : SchedulerConfig) (r : Req) : Prop where
  unfinished : ¬ r.finished
  completed : r.completed = false
  row : r.kv.reqPoolIdx = none
  lastNode : r.kv.lastNode = none
  committedFreed : r.kv.kvCommittedFreed = false
  overallocatedFreed : r.kv.kvOverallocatedFreed = false
  verified_le : r.llm42VerifiedTokens ≤ r.outputIds.length
  verified_pos : cfg.args.enableLlm42 → r.isDeterministic → r.outputIds ≠ [] →
    0 < r.llm42VerifiedTokens

variable {cfg : SchedulerConfig} {ahead lag : ℕ} {e : BatchEntry} {r r' : Req}

theorem Live.of_core (h : Live cfg ahead lag e r.core) : Live cfg ahead lag e r :=
  { h with }

theorem Live.congr (h : Live cfg ahead lag e r) (hc : r'.core = r.core) :
    Live cfg ahead lag e r' := by
  refine Live.of_core ?_
  rw [hc]
  exact { h with }

section

variable (hc : r'.core = r.core)

include hc

theorem Req.finished_congr : r'.finished = r.finished := by
  have h := congrArg (fun x : Req => x.finishedReason.isSome) hc
  exact h

theorem Req.isDeterministic_congr : r'.isDeterministic = r.isDeterministic := by
  have h := congrArg (fun x : Req => x.samplingParams.isDeterministic) hc
  exact h

theorem Req.kv_congr : r'.kv = r.kv := by
  have h := congrArg (fun x : Req => x.kv) hc
  exact h

theorem Req.outputIds_congr : r'.outputIds = r.outputIds := by
  have h := congrArg (fun x : Req => x.outputIds) hc
  exact h

theorem Req.completed_congr : r'.completed = r.completed := by
  have h := congrArg (fun x : Req => x.completed) hc
  exact h

theorem Req.verified_congr : r'.llm42VerifiedTokens = r.llm42VerifiedTokens := by
  have h := congrArg (fun x : Req => x.llm42VerifiedTokens) hc
  exact h

end

theorem Gone.congr (h : Gone r) (hc : r'.core = r.core) : Gone r' :=
  ⟨(Req.finished_congr hc).trans h.finished, (Req.completed_congr hc).trans h.completed,
    (congrArg KvFields.reqPoolIdx (Req.kv_congr hc)).trans h.row⟩

def Settled (cfg : SchedulerConfig) (e : BatchEntry) (r : Req) : Prop :=
  Gone r ∨ (¬ r.finished ∧ Live cfg 0 0 e r)

theorem Settled.congr (h : Settled cfg e r) (hc : r'.core = r.core) : Settled cfg e r' := by
  rcases h with h | ⟨hf, h⟩
  · exact .inl (h.congr hc)
  · exact .inr ⟨by rwa [Req.finished_congr hc], h.congr hc⟩

/-- Between the result loop and the second check only deterministic requests may be finished and
hold on to their KV cache. -/
def Accepted (cfg : SchedulerConfig) (e : BatchEntry) (r : Req) : Prop :=
  Gone r ∨ (Live cfg 0 0 e r ∧ (r.finished → cfg.args.enableLlm42 ∧ r.isDeterministic))

theorem Live.advanced (h : Live cfg 0 0 e r) {i o : Token} :
    Live cfg 1 0 { e with inputId := i, outputId := o, seqLen := e.seqLen + 1 } r.advanced := by
  have hcomm := h.committed
  have hseq := h.seqLen
  have halloc := h.allocated
  refine { h with committed := ?_, allocated := ?_, seqLen := ?_ }
  all_goals
    simp only [Req.advanced]
    omega

theorem Live.decodeToken (h : Live cfg 1 0 e r) (token : Token) (logits : LogitsRow) :
    Live cfg 0 0 e (r.decodeToken token logits) where
  row := by simpa using h.row
  committed := by
    have := h.committed
    simp only [Req.length_decodeToken, Req.decodeToken_kv, Req.decodeToken_originInputIds]
    omega
  allocated := by simpa using h.allocated
  seqLen := by simpa using h.seqLen
  output_pos := by simp
  isRetracted := by simpa using h.isRetracted
  committedFreed := by simpa using h.committedFreed
  overallocatedFreed := by simpa using h.overallocatedFreed
  completed := by simpa [Req.decodeToken, Req.appendToken] using h.completed
  verified_le := by
    have := h.verified_le
    simp only [Req.decodeToken_llm42VerifiedTokens, Req.length_decodeToken]
    omega
  verified_pos := by simpa using h.verified_pos

theorem gone_release (hf : r.finished) : Gone r.release := ⟨hf, rfl, rfl⟩

theorem Live.decoded (h : Live cfg 1 0 e r) (token : Token) (logits : LogitsRow) :
    Accepted cfg e (r.decoded cfg token logits) := by
  have hlive := h.decodeToken token logits
  unfold Req.decoded
  dsimp only
  generalize r.decodeToken token logits = r₁ at hlive ⊢
  split
  next hf =>
    simp only [Bool.and_eq_true, Bool.not_eq_true'] at hf
    exact .inl ((gone_release hf.1).congr (Req.acceptToken_core _ _))
  next hf =>
  refine .inr ⟨hlive.congr (Req.acceptToken_core _ _), fun hfin => ?_⟩
  have hcore := r₁.acceptToken_core token
  rw [Req.finished_congr hcore] at hfin
  rw [Req.isDeterministic_congr hcore]
  simpa [hfin] using hf

/-- The row of the batch after a pass with a net rollback of `net` tokens. -/
def BatchEntry.refreshed (net : ℕ) (r : Req) (e : BatchEntry) : BatchEntry :=
  if 0 < net then
    { e with
      outputId := r.outputIds.getLastD (r.originInputIds.getLastD 0)
      seqLen := r.originInputIds.length + r.outputIds.length - 1 }
  else e

open LLM42Worker in
theorem Live.verified {rows : List Token} {k net : ℕ} (h : Live cfg 0 0 e r)
    (hout : VerifyOutcome r rows k r' net) : Live cfg net net (e.refreshed net r') r' := by
  have hcomm := h.committed
  have hseq := h.seqLen
  have hpos := h.output_pos
  have hulen := r.length_unverified
  unfold BatchEntry.refreshed
  cases hout with
  | accepted x hk =>
    exact { h with verified_le := le_rfl, verified_pos := fun _ _ => hpos }
  | corrected x t hk hle hrow =>
    have hlen : (r.outputIds.rdrop k ++ [t]).length = r.outputIds.length - k + 1 := by
      simp [length_rdrop]
    refine ⟨?_, ?_, h.allocated, ?_, ?_, h.isRetracted, h.committedFreed, h.overallocatedFreed,
      h.completed, ?_, ?_⟩
    · split
      · exact h.row
      · exact h.row
    · simp only [hlen, withStats]
      omega
    · split
      · simp only [hlen, withStats]
        omega
      · simp only [withStats]
        omega
    · simp only [hlen]
      omega
    · simp only [hlen]
      omega
    · intro _ _
      dsimp only
      omega

theorem Live.rolledBack {n : ℕ} (h : Live cfg n n e r) : Live cfg 0 0 e (r.rolledBack n) := by
  have hcomm := h.committed
  have hseq := h.seqLen
  have halloc := h.allocated
  refine { h with committed := ?_, allocated := ?_, seqLen := ?_ }
  all_goals
    simp only [Req.rolledBack]
    omega

open LLM42Worker LLM42Info in
/-- A request that the worker collects has KV cache and a token to replay from. -/
theorem Accepted.verifiable (h : Accepted cfg e r) (hllm : cfg.args.enableLlm42)
    (hc : isCandidate r) : Live cfg 0 0 e r ∧ Verifiable r := by
  simp only [isCandidate, Bool.and_eq_true, Bool.not_eq_true', decide_eq_true_eq] at hc
  obtain ⟨⟨⟨hdet, hrow⟩, _⟩, hlt⟩ := hc
  rcases h with h | ⟨h, _⟩
  · simp [h.row] at hrow
  · refine ⟨h, ?_, .inl (h.verified_pos hllm hdet), hrow⟩
    rw [← List.length_pos_iff, Req.length_unverified]
    omega

open LLM42Worker in
theorem Accepted.verified {rows : List Token} {k net : ℕ} (h : Live cfg 0 0 e r)
    (hllm : cfg.args.enableLlm42) (hdet : r.isDeterministic)
    (hout : VerifyOutcome r rows k r' net) :
    Accepted cfg (e.refreshed net r') (r'.rolledBack net) := by
  exact .inr ⟨(h.verified hout).rolledBack, fun _ => ⟨hllm, hout.isDeterministic.trans hdet⟩⟩

theorem Live.checkFinished (h : Live cfg ahead lag e r) : Live cfg ahead lag e r.checkFinished :=
  ⟨by simpa using h.row, by simpa using h.committed, by simpa using h.allocated,
    by simpa using h.seqLen, by simpa using h.output_pos, by simpa using h.isRetracted,
    by simpa using h.committedFreed, by simpa using h.overallocatedFreed,
    by simpa using h.completed, by simpa using h.verified_le, by simpa using h.verified_pos⟩

theorem Accepted.rechecked (h : Accepted cfg e r) : Settled cfg e r.rechecked := by
  unfold Req.rechecked
  rcases h with h | ⟨h, hdet⟩
  · split_ifs with h1 h2 h3
    · exact .inl h
    · exact .inl h
    · exact absurd h.completed h2
    · exact absurd h.completed h2
  · split_ifs with h1 h2 h3
    · right
      refine ⟨fun hf => ?_, h⟩
      simp [h.isRetracted, (hdet hf).2] at h1
    · simp [h.completed] at h2
    · exact .inl (gone_release h3)
    · exact .inr ⟨h3, h.checkFinished⟩

theorem Req.rechecked_of_unfinished (h : ¬ r.rechecked.finished) :
    ¬ r.finished ∧ r.rechecked.outputIds = r.outputIds := by
  unfold Req.rechecked at h ⊢
  split_ifs at h ⊢ with hskip hdone hfin
  · exact ⟨h, rfl⟩
  · exact ⟨h, rfl⟩
  · exact absurd hfin h
  · rw [Req.checkFinished_of_unfinished h]
    rw [Req.checkFinished_of_unfinished h] at h
    exact ⟨h, rfl⟩

end LLM42
