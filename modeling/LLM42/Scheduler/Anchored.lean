import LLM42.Memory.Ledger
import LLM42.Scheduler.Consistency

/-! # The shared prefix of a request

Where the prefix that a request shares with the tree ends, and how each step of a request keeps it
below every position that a rollback can reach. -/

namespace LLM42

open LLM42Worker List

/-- The shared prefix lies on the request's own tokens. -/
def Anchored (r : Req) : Prop :=
  Ledger.OnKey r.kv r.extraKey (r.originInputIds ++ r.outputIds.dropLast)

/-- No verification pass can discard a token of the shared prefix. -/
def Guarded (r : Req) : Prop :=
  r.isDeterministic → r.kv.cacheProtectedLen ≤ r.originInputIds.length + r.llm42VerifiedTokens

variable {cfg : SchedulerConfig} {r r' : Req} {extraKey : Option String} {rows : List Token}

theorem Ledger.OnKey.le {k : KvFields} {ids : List Token} (h : Ledger.OnKey k extraKey ids) :
    k.cacheProtectedLen ≤ ids.length := by
  unfold Ledger.OnKey at h
  split at h
  · omega
  · exact h.2

theorem Ledger.OnKey.append {k : KvFields} {ids ids' : List Token} (h : Ledger.OnKey k extraKey ids)
    (hbegins : ids <+: ids') : Ledger.OnKey k extraKey ids' := by
  obtain ⟨rest, rfl⟩ := hbegins
  refine h.mono ?_ ?_
  · rw [take_append_of_le_length h.le]
  · have := h.le
    rw [length_append]
    omega

theorem Anchored.congr (h : Anchored r) (hc : r'.core = r.core) : Anchored r' := by
  have hcore : Anchored r'.core := by
    rw [hc]
    exact h
  exact hcore

theorem Guarded.congr (h : Guarded r) (hc : r'.core = r.core) : Guarded r' := by
  have hcore : Guarded r'.core := by
    rw [hc]
    exact h
  exact hcore

/-- The tokens that the KV cache of a decoding request was computed for. -/
theorem Live.take_committed {e : BatchEntry} (h : Live cfg 0 0 e r) :
    (r.originInputIds ++ r.outputIds).take r.kv.kvCommittedLen =
      r.originInputIds ++ r.outputIds.dropLast := by
  have hcomm := h.committed
  have hpos := h.output_pos
  rw [take_append, take_of_length_le (by omega), dropLast_eq_take]
  congr 2
  omega

theorem Live.length_committed {e : BatchEntry} (h : Live cfg 0 0 e r) :
    (r.originInputIds ++ r.outputIds.dropLast).length = r.kv.kvCommittedLen := by
  have hcomm := h.committed
  have hpos := h.output_pos
  rw [length_append, length_dropLast]
  omega

section Decode

variable (token : Token) (logits : LogitsRow)

theorem Anchored.decodeToken (h : Anchored r) : Anchored (r.decodeToken token logits) := by
  unfold Anchored at h ⊢
  have hdrop : (r.decodeToken token logits).outputIds.dropLast = r.outputIds := by
    rw [Req.decodeToken, Req.dropLast_checkFinished]
    simp
  rw [hdrop]
  simp only [Req.decodeToken_kv, Req.decodeToken_originInputIds]
  rw [Req.decodeToken, Req.checkFinished_extraKey]
  have hbegins := dropLast_prefix r.outputIds
  exact h.append ((prefix_append_right_inj _).mpr hbegins)

theorem Anchored.decoded (h : Anchored r) (cfg : SchedulerConfig) : Anchored (r.decoded cfg token logits) := by
  have h₁ := h.decodeToken token logits
  refine Anchored.congr ?_ (Req.acceptToken_core _ _)
  split
  · exact h₁
  · exact h₁

theorem Guarded.decoded (h : Guarded r) (cfg : SchedulerConfig) : Guarded (r.decoded cfg token logits) := by
  have h₁ : Guarded (r.decodeToken token logits) := by
    intro hdet
    simpa using h (by simpa using hdet)
  refine Guarded.congr ?_ (Req.acceptToken_core _ _)
  split
  · exact h₁
  · exact h₁

end Decode

theorem Anchored.verified {k net : ℕ} (h : Anchored r) (hg : Guarded r) (hdet : r.isDeterministic)
    (hout : VerifyOutcome r rows k r' net) : Anchored r' := by
  cases hout with
  | accepted x _ => exact h
  | corrected x t hk hle _ =>
    have hguard := hg hdet
    have hulen := r.length_unverified
    unfold Anchored at h ⊢
    dsimp only [withStats]
    rw [dropLast_concat]
    have hsplit : (r.originInputIds ++ r.outputIds.rdrop k) <+:
        r.originInputIds ++ r.outputIds.dropLast := by
      rw [prefix_append_right_inj, dropLast_eq_take, List.rdrop]
      exact take_prefix_take_left (by omega)
    have hlen : r.kv.cacheProtectedLen ≤ (r.originInputIds ++ r.outputIds.rdrop k).length := by
      rw [length_append, length_rdrop]
      omega
    refine Ledger.OnKey.mono h ?_ hlen
    obtain ⟨rest, hrest⟩ := hsplit
    rw [← hrest, take_append_of_le_length hlen]

theorem Guarded.verified {k net : ℕ} (hg : Guarded r)
    (hver : r.llm42VerifiedTokens ≤ r.outputIds.length) (hout : VerifyOutcome r rows k r' net) :
    Guarded r' := by
  have hulen := r.length_unverified
  cases hout with
  | accepted x _ =>
    intro hdet
    exact (hg hdet).trans (Nat.add_le_add_left hver _)
  | corrected x t hk hle _ =>
    intro hdet
    have hguard := hg hdet
    change r.kv.cacheProtectedLen ≤ r.originInputIds.length + (r.outputIds.length - k + 1)
    omega

theorem Anchored.checkFinished (h : Anchored r) : Anchored r.checkFinished := by
  unfold Anchored at h ⊢
  rw [Req.dropLast_checkFinished]
  simpa using h

theorem Anchored.rechecked (h : Anchored r) : Anchored r.rechecked := by
  unfold Req.rechecked
  split_ifs
  · exact h
  · exact h
  · exact h.checkFinished
  · exact h.checkFinished

theorem Guarded.rechecked (h : Guarded r) : Guarded r.rechecked := by
  have hcheck : Guarded r.checkFinished := by
    intro hdet
    simpa using h (by simpa using hdet)
  unfold Req.rechecked
  split_ifs
  · exact h
  · exact h
  · exact hcheck
  · exact hcheck

section RequestDecode

variable {rejected planned : Prop} {token : Token} {logits : LogitsRow} {v : Verdict}
  {e e' : BatchEntry} {message : Option StreamMessage}

theorem VerifyStep.anchored (hacc : Accepted cfg e r) (henable : cfg.args.enableLlm42)
    (h : Anchored r) (hg : Guarded r) (hs : VerifyStep cfg.worker v planned e r e' r') :
    Anchored r' ∧ Guarded r' := by
  cases hs with
  | skipped _ => exact ⟨h, hg⟩
  | verified _ hcand hout =>
    obtain ⟨hlive, _⟩ := hacc.verifiable henable hcand
    have hver := h.verified hg (isDeterministic_of_isCandidate hcand) hout.outcome
    have hgver := hg.verified hlive.verified_le hout.outcome
    exact ⟨hver, hgver⟩

theorem AfterResult.anchored (hacc : Accepted cfg e r) (h : Anchored r)
    (hg : cfg.args.enableLlm42 → Guarded r) (hs : AfterResult cfg v planned e r e' r') :
    Anchored r' ∧ (cfg.args.enableLlm42 → Guarded r') := by
  cases hs with
  | off hdis => exact ⟨h, hg⟩
  | on henable hstep =>
    obtain ⟨ha, hga⟩ := hstep.anchored hacc henable h (hg henable)
    exact ⟨ha.rechecked, fun _ => hga.rechecked⟩

/-- A decode step keeps the shared prefix of a request out of reach of rollbacks. -/
theorem RequestDecode.anchored (hlive : Live cfg 0 0 e r) (h : Anchored r)
    (hg : cfg.args.enableLlm42 → Guarded r)
    (hs : RequestDecode cfg rejected planned token logits v e r e' r' message) :
    Anchored r' ∧ (cfg.args.enableLlm42 → Guarded r') := by
  obtain @⟨r₁, r₂, r₃, _, _, _, h₁, h₂, hafter, rfl, _, _⟩ := hs
  have hcore := r₃.streamOutput_core cfg.args
  have hacc := hlive.accepted h₁ h₂
  have hadv : Anchored r.advanced := h
  have hgadv : cfg.args.enableLlm42 → Guarded r.advanced := hg
  have hmid := ((hadv.congr h₁.core_eq).decoded token logits cfg).congr h₂.core_eq
  have hgmid : cfg.args.enableLlm42 → Guarded _ := fun he =>
    (((hgadv he).congr h₁.core_eq).decoded token logits cfg).congr h₂.core_eq
  obtain ⟨ha, hga⟩ := hafter.anchored hacc hmid hgmid
  exact ⟨ha.congr hcore, fun he => (hga he).congr hcore⟩

end RequestDecode

section RequestExtend

variable {rejected : Prop} {token : Token} {logits : LogitsRow} {row : ℕ}
  {message : Option StreamMessage} {node : Option NodeRef} {indices : List ℕ}

theorem Req.PrefixMatch.onKey {r₁ : Req} (h : r.PrefixMatch indices node)
    (h₁ : ((r.matched indices node).assigned row).AbortedIf rejected r₁) :
    Ledger.OnKey r₁.kv r₁.extraKey (r.originInputIds ++ r.outputIds) := by
  have hkey : Ledger.OnKey (r.matched indices node).kv r.extraKey
      (r.originInputIds ++ r.outputIds) := by
    have hle := h.length_le
    rcases h.node_eq with ⟨rfl, rfl⟩ | rfl
    · exact rfl
    · refine ⟨rfl, ?_⟩
      simp only [Req.matched, length_append]
      omega
  rcases h₁ with rfl | ⟨_, _, x, rfl⟩
  · exact hkey
  · exact hkey

theorem dropLast_prefillToken (r : Req) (enable : Bool) :
    (r.prefillToken enable token logits).outputIds.dropLast = r.outputIds := by
  unfold Req.prefillToken
  rw [Req.dropLast_checkFinished]
  split <;> simp

theorem Req.PrefixMatch.anchored {r₁ : Req} (h : r.PrefixMatch indices node)
    (h₁ : ((r.matched indices node).assigned row).AbortedIf rejected r₁) (enable : Bool)
    (token : Token) (logits : LogitsRow) : Anchored (r₁.prefillToken enable token logits) := by
  have hkey := h.onKey h₁
  obtain ⟨_, horigin, hout, _⟩ := h₁.fields
  unfold Anchored
  rw [dropLast_prefillToken]
  simpa [horigin, hout, Req.assigned, Req.matched] using hkey

/-- What an extend batch does to the tokens of a request. -/
structure Extended (cfg : SchedulerConfig) (r r' : Req) : Prop where
  originInputIds : r'.originInputIds = r.originInputIds
  outputIds : r'.outputIds.dropLast = r.outputIds
  isDeterministic : r'.isDeterministic = r.isDeterministic
  verified : r'.llm42VerifiedTokens =
    if r.isDeterministic ∧ cfg.args.enableLlm42 ∧ r.outputIds = [] then 1
    else r.llm42VerifiedTokens

theorem Extended.congr {r'' : Req} (h : Extended cfg r r') (hc : r''.core = r'.core) :
    Extended cfg r r'' := by
  have hcore : Extended cfg r r''.core := by
    rw [hc]
    exact { h with }
  exact { hcore with }

section

variable (hx : RequestExtend cfg rejected token logits row r r' message)

include hx

theorem RequestExtend.extended : Extended cfg r r' := by
  obtain @⟨indices, node, r₁, r₂, _, _, _, hmatch, h₁, hout, h₃, rfl, _⟩ := hx
  obtain ⟨_, horigin, houtput, hver, hsamp⟩ := h₁.fields
  have hdet : r₁.isDeterministic = r.isDeterministic :=
    congrArg SamplingParams.isDeterministic hsamp
  have hmid : Extended cfg r (r₁.prefillToken cfg.args.enableLlm42 token logits) := by
    refine ⟨?_, ?_, ?_, ?_⟩
    · rw [Req.prefillToken_originInputIds, horigin]
      rfl
    · rw [dropLast_prefillToken, houtput]
      rfl
    · rw [Req.prefillToken_isDeterministic, hdet]
    · rw [Req.prefillToken_llm42VerifiedTokens, hdet, houtput, hver]
      rfl
  generalize r₁.prefillToken cfg.args.enableLlm42 token logits = r₃ at hout hmid
  refine Extended.congr ?_ (h₃.streamOutput_core cfg.args)
  cases hout with
  | finished _ =>
    refine Extended.congr ?_ (Req.acceptToken_core _ _)
    exact { hmid with }
  | shared start indices' node' _ _ =>
    refine Extended.congr ?_ (Req.acceptToken_core _ _)
    exact { hmid with }

theorem RequestExtend.anchored : Anchored r' := by
  obtain @⟨indices, node, r₁, r₂, _, _, _, hmatch, h₁, hout, h₃, rfl, _⟩ := hx
  have hanch := hmatch.anchored h₁ cfg.args.enableLlm42 token logits
  refine Anchored.congr ?_ (h₃.streamOutput_core cfg.args)
  cases hout with
  | finished _ => exact Anchored.congr (r := Req.release _) hanch (Req.acceptToken_core _ _)
  | shared start indices' node' _ hnode =>
    refine Anchored.congr ?_ (Req.acceptToken_core _ _)
    rcases hnode with ⟨rfl, rfl⟩ | ⟨rfl, rfl⟩
    · exact hanch
    · obtain ⟨hkv, horigin, houtput, _⟩ := h₁.fields
      have hfill : (r₁.prefillToken cfg.args.enableLlm42 token logits).kv.fillIds =
          (r₁.prefillToken cfg.args.enableLlm42 token logits).originInputIds ++
            (r₁.prefillToken cfg.args.enableLlm42 token logits).outputIds.dropLast := by
        rw [dropLast_prefillToken, Req.prefillToken_kv, Req.prefillToken_originInputIds, hkv,
          horigin, houtput]
        rfl
      refine ⟨?_, ?_⟩
      · simp only [Req.shared]
        rw [← hfill, take_length]
      · simp only [Req.shared]
        rw [← hfill]

/-- Where nothing unverified is prefilled again, nothing unverified is shared. -/
theorem RequestExtend.guarded (hver : r.isDeterministic → r.unverified = []) : Guarded r' := by
  intro hdet
  have hext := hx.extended
  have hle := hx.anchored.le
  rw [hext.originInputIds, hext.outputIds, length_append] at hle
  rw [hext.isDeterministic] at hdet
  rw [hext.originInputIds, hext.verified]
  split
  next hnew =>
    rw [hnew.2.2, length_nil] at hle
    omega
  next =>
  have hlen := r.length_unverified
  rw [hver hdet, length_nil] at hlen
  omega

end

end RequestExtend

end LLM42
