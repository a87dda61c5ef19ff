import LLM42.Scheduler.Aborts

/-! # Output and records

What a step writes for the tokens of a request: an extend batch appends one token with its row, a
decode step does the same and may have a pass rewrite the window. Holds for tokens of the vocabulary,
which no finish check replaces. -/

namespace LLM42

namespace Req

def written (r : Req) : Req :=
  { r.core with
    kv := {}
    completed := false
    finishedReason := none
    llm42VerifiedTokens := 0
    llm42NumRollbacks := 0
    llm42TokensRolledBack := 0
    llm42NumVerificationWindows := 0 }

variable {r r' : Req} {token : Token} {logits : LogitsRow}

theorem written_congr (hc : r'.core = r.core) : r'.written = r.written := by
  unfold written
  rw [hc]

section

variable (h : r'.written = r.written)

include h

theorem written_appendToken (token : Token) (logits : LogitsRow) :
    (r'.appendToken token logits).written = (r.appendToken token logits).written := by
  have happend : ∀ x : Req, (x.appendToken token logits).written =
      x.written.appendToken token logits := fun _ => rfl
  rw [happend, happend, h]

theorem outputIds_written : r'.outputIds = r.outputIds := by
  have hids := congrArg (fun x : Req => x.outputIds) h
  exact hids

theorem outsideVocab_written (t : Token) : r'.outsideVocab t = r.outsideVocab t := by
  have hvocab := congrArg (fun x : Req => x.outsideVocab t) h
  exact hvocab

end

def LastInVocab (r : Req) : Prop := ∀ t ∈ r.outputIds.getLast?, ¬ r.outsideVocab t

theorem LastInVocab.congr (h : r.LastInVocab) (hw : r'.written = r.written) :
    r'.LastInVocab := by
  intro t ht
  rw [outsideVocab_written hw]
  rw [outputIds_written hw] at ht
  exact h t ht

theorem lastInVocab_appendToken (h : ¬ r.outsideVocab token) :
    (r.appendToken token logits).LastInVocab := by
  intro t ht
  obtain rfl : token = t := by simpa using ht
  exact h

theorem written_checkFinished (h : r.LastInVocab) : r.checkFinished.written = r.written := by
  rw [checkFinished_eq, checkFinished_outputIds_of_inVocab h]
  rfl

theorem written_decoded (cfg : SchedulerConfig) (h : ¬ r.outsideVocab token) :
    (r.decoded cfg token logits).written = (r.appendToken token logits).written := by
  rw [← written_checkFinished (lastInVocab_appendToken h)]
  unfold decoded
  rw [written_congr (acceptToken_core _ _)]
  split
  · rfl
  · rfl

theorem written_rechecked (h : r.LastInVocab) : r.rechecked.written = r.written := by
  have hcheck := written_checkFinished h
  unfold rechecked
  split_ifs
  · rfl
  · rfl
  · exact hcheck
  · exact hcheck

theorem written_prefillToken (enable : Bool) (h : ¬ r.outsideVocab token) :
    (r.prefillToken enable token logits).written = (r.appendToken token logits).written := by
  have hlast := @lastInVocab_appendToken r token logits h
  unfold prefillToken
  dsimp only
  split
  · exact written_checkFinished hlast
  · exact written_checkFinished hlast

end Req

section Requests

variable {cfg : SchedulerConfig} {rejected planned : Prop} {token : Token} {logits : LogitsRow}
  {v : Verdict} {e e' : BatchEntry} {r r₁ r₂ r' : Req} {message : Option StreamMessage}

theorem RequestExtend.written {row : ℕ} (hvocab : ¬ r.outsideVocab token)
    (h : RequestExtend cfg rejected token logits row r r' message) :
    r'.written = (r.appendToken token logits).written := by
  obtain @⟨indices, node, r₁, r₂, r₃, _, _, _, h₁, hout, h₃, rfl, _⟩ := h
  have hw₁ : r₁.written = r.written := (Req.written_congr h₁.core_eq).trans rfl
  have hprefill : (r₁.prefillToken cfg.args.enableLlm42 token logits).written =
      (r.appendToken token logits).written := by
    rw [Req.written_prefillToken _ (by rwa [Req.outsideVocab_written hw₁])]
    exact Req.written_appendToken hw₁ token logits
  rw [Req.written_congr (h₃.streamOutput_core cfg.args), ← hprefill]
  cases hout with
  | finished _ => exact (Req.written_congr (Req.acceptToken_core _ _)).trans rfl
  | shared start indices' node' _ _ =>
    exact (Req.written_congr (Req.acceptToken_core _ _)).trans rfl

theorem Req.accepted_written (hvocab : ¬ r.outsideVocab token)
    (h₁ : r.advanced.AbortedIf rejected r₁)
    (h₂ : (r₁.decoded cfg token logits).AbortedIf rejected r₂) :
    r₂.written = (r.appendToken token logits).written ∧
      r₂.llm42VerifiedTokens = r.llm42VerifiedTokens := by
  have hw₁ : r₁.written = r.written := (Req.written_congr h₁.core_eq).trans rfl
  constructor
  · rw [Req.written_congr h₂.core_eq,
      Req.written_decoded cfg (by rwa [Req.outsideVocab_written hw₁])]
    exact Req.written_appendToken hw₁ token logits
  · rw [Req.verified_congr h₂.core_eq, Req.verified_decoded, Req.verified_congr h₁.core_eq]
    rfl

theorem Verdict.Outcome.lastInVocab {w : LLM42Worker} {id : ReqId} {net : ℕ}
    (h : v.Outcome w id r r' net) (hlast : r.LastInVocab)
    (hrows : ∀ i < r.unverified.length, ¬ r.outsideVocab (v.tokens id i)) : r'.LastInVocab := by
  have hout := h.outcome
  cases hout with
  | accepted x _ => exact hlast
  | corrected x t hk hle hrow =>
    intro u hu
    obtain rfl : t = u := by simpa using hu
    obtain ⟨i, hi, rfl⟩ : ∃ i < r.unverified.length, v.tokens id i = t := by
      have hmem := List.mem_of_getElem? hrow
      simpa [Verdict.rows] using hmem
    exact hrows i hi

/-- What a decode step leaves written: the token appended, or a pass on top of that. -/
theorem RequestDecode.written (hle : r.llm42VerifiedTokens ≤ r.outputIds.length)
    (hvocab : ¬ r.outsideVocab token)
    (hrows : cfg.args.enableLlm42 → ∀ i < r.unverified.length + 1,
      ¬ r.outsideVocab (v.tokens e.req i))
    (h : RequestDecode cfg rejected planned token logits v e r e' r' message) :
    r'.written = (r.appendToken token logits).written ∨ ∃ r₂ r₄ net, cfg.args.enableLlm42 = true ∧
        r₂.written = (r.appendToken token logits).written ∧
        r₂.llm42VerifiedTokens = r.llm42VerifiedTokens ∧
        r₂.unverified = r.unverified ++ [token] ∧ v.Outcome cfg.worker e.req r₂ r₄ net ∧
        r'.written = r₄.written := by
  obtain @⟨r₁, r₂, r₃, _, _, _, h₁, h₂, hafter, rfl, _, _⟩ := h
  obtain ⟨hw, hver⟩ := Req.accepted_written hvocab h₁ h₂
  rw [Req.written_congr (r₃.streamOutput_core cfg.args)]
  have hlast : r₂.LastInVocab := (Req.lastInVocab_appendToken hvocab).congr hw
  cases hafter with
  | off _ => exact .inl hw
  | on henable hstep =>
    cases hstep with
    | skipped _ => exact .inl ((Req.written_rechecked hlast).trans hw)
    | @verified net r₄ _ _ hout =>
      have hids : r₂.outputIds = r.outputIds ++ [token] := Req.outputIds_written hw
      have hwin := Req.unverified_of_append hids hver hle
      refine .inr ⟨r₂, r₄, net, henable, hw, hver, hwin, hout, ?_⟩
      have hlast₄ : r₄.LastInVocab := by
        refine hout.lastInVocab hlast fun i hi => ?_
        rw [hwin, List.length_append, List.length_singleton] at hi
        rw [Req.outsideVocab_written hw]
        exact hrows henable i hi
      have hrolled : (r₄.rolledBack net).LastInVocab := hlast₄
      exact (Req.written_rechecked hrolled).trans rfl

end Requests

end LLM42
