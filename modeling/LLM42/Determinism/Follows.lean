import LLM42.Determinism.Forward

/-! # The reference sequence

What a deterministic request should output depends only on the model and on the request's own
parameters. A request follows this reference when its verified tokens and the KV entries below
them belong to it; every step of the protocol keeps that. -/

namespace LLM42

open List

namespace VerifierModel

variable {E : Type} (model : VerifierModel E)

def promptEntries (r : Req) : List E :=
  (List.range r.originInputIds.length).map (model.promptEntry r.originInputIds)

def reference (r : Req) (n : ℕ) : Token :=
  (model.generator r).tokenAt (model.promptEntries r)
    (r.checkedToken 0 (model.firstToken r.samplingParams r.originInputIds)) n

def referenceCache (r : Req) (n : ℕ) : List E :=
  (model.generator r).cacheAt (model.promptEntries r)
    (r.checkedToken 0 (model.firstToken r.samplingParams r.originInputIds)) n

/-- A deterministic request and its row of the KV cache keep to the reference: verified tokens
are reference tokens, and the entries before the last verified token are reference entries. -/
structure Follows (r : Req) (row : ℕ → E) : Prop where
  verified_pos : 0 < r.llm42VerifiedTokens
  verified_le : r.llm42VerifiedTokens ≤ r.outputIds.length
  tokens : ∀ i < r.llm42VerifiedTokens, r.outputIds[i]? = some (model.reference r i)
  checked : ∀ i t, r.outputIds[i]? = some t → r.checkedToken i t = t
  cache : entriesBelow row (r.originInputIds.length + r.llm42VerifiedTokens - 1) =
    model.referenceCache r (r.llm42VerifiedTokens - 1)
  toFinish : r.toFinish = none
  grammar : r.grammar = none

/-- The replay of the open window of a request, padded to `p` tokens. -/
abbrev replayWindow (r : Req) (row : ℕ → E) (p : ℕ) : List Token × (ℕ → E) :=
  model.replayRow r.samplingParams row (r.originInputIds.length + r.llm42VerifiedTokens - 1)
    (LLM42Info.rowInputIds r p r.unverified.length)

variable {model} {row : ℕ → E} {r : Req}

theorem reference_congr {r r' : Req} (h : r'.static = r.static) :
    model.reference r' = model.reference r := by
  change model.reference r'.static = model.reference r.static
  rw [h]

theorem referenceCache_congr {r r' : Req} (h : r'.static = r.static) :
    model.referenceCache r' = model.referenceCache r := by
  change model.referenceCache r'.static = model.referenceCache r.static
  rw [h]

theorem checkedToken_congr {r r' : Req} (h : r'.static = r.static) :
    r'.checkedToken = r.checkedToken := by
  change r'.static.checkedToken = r.static.checkedToken
  rw [h]

theorem static_checkFinished (r : Req) : r.checkFinished.static = r.static := by
  rw [r.checkFinished_eq]
  rfl

theorem checkFinished_outputIds_of_checked
    (hchecked : ∀ i t, r.outputIds[i]? = some t → r.checkedToken i t = t) (ht : r.toFinish = none)
    (hg : r.grammar = none) : r.checkFinished.outputIds = r.outputIds := by
  by_cases hf : r.finished
  · rw [Req.checkFinished_of_finished hf]
  · rcases eq_nil_or_concat' r.outputIds with hnil | ⟨xs, t, hc⟩
    · have hlen := r.length_checkFinished
      rw [hnil, length_nil, length_eq_zero_iff] at hlen
      rw [hlen, hnil]
    · rw [Req.checkFinished_outputIds hc hf ht hg, hchecked xs.length t (by simp [hc]), hc]

theorem Follows.checkFinished (h : model.Follows r row) : model.Follows r.checkFinished row := by
  have hout := checkFinished_outputIds_of_checked h.checked h.toFinish h.grammar
  have hst := static_checkFinished r
  constructor
  · simpa using h.verified_pos
  · simpa using h.verified_le
  · intro i hi
    rw [hout, reference_congr hst]
    exact h.tokens i (by simpa using hi)
  · intro i t hi
    rw [hout] at hi
    rw [checkedToken_congr hst]
    exact h.checked i t hi
  · simpa [referenceCache_congr hst] using h.cache
  · exact Req.checkFinished_toFinish h.toFinish
  · simpa using h.grammar

theorem checked_concat (xs : List Token)
    (hchecked : ∀ i t, xs[i]? = some t → r.checkedToken i t = t) (t : Token) :
    ∀ i u, (xs ++ [r.checkedToken xs.length t])[i]? = some u → r.checkedToken i u = u := by
  intro i u hu
  rw [getElem?_append] at hu
  split at hu
  · exact hchecked i u hu
  next hi =>
  have hi' : i - xs.length = 0 := by
    by_contra hne
    rw [getElem?_eq_none (by simp; omega)] at hu
    cases hu
  obtain rfl : i = xs.length := by omega
  simp only [Nat.sub_self, getElem?_cons_zero, Option.some.injEq] at hu
  rw [← hu, r.checkedToken_idem]

theorem Follows.decodeToken (h : model.Follows r row) (hf : ¬ r.finished) (token : Token)
    (logits : LogitsRow) (e : E) :
    model.Follows (r.decodeToken token logits)
      (Function.update row (r.originInputIds.length + r.outputIds.length - 1) e) := by
  have hst : (r.decodeToken token logits).static = r.static := (static_checkFinished _).trans rfl
  have hout : (r.decodeToken token logits).outputIds =
      r.outputIds ++ [r.checkedToken r.outputIds.length token] :=
    Req.checkFinished_outputIds rfl hf h.toFinish h.grammar
  have hv := h.verified_le
  have hpos := h.verified_pos
  constructor
  · simpa using hpos
  · rw [hout]
    simp only [Req.decodeToken_llm42VerifiedTokens, length_append]
    omega
  · intro i hi
    simp only [Req.decodeToken_llm42VerifiedTokens] at hi
    rw [hout, reference_congr hst, getElem?_append_left (by omega)]
    exact h.tokens i hi
  · rw [hout, checkedToken_congr hst]
    exact checked_concat _ h.checked token
  · rw [referenceCache_congr hst, Req.decodeToken_originInputIds,
      Req.decodeToken_llm42VerifiedTokens, ← h.cache]
    refine entriesBelow_congr fun p hp => ?_
    rw [Function.update_of_ne (by omega)]
  · exact Req.checkFinished_toFinish h.toFinish
  · simpa [Req.decodeToken, Req.appendToken] using h.grammar

theorem follows_prefillToken (hs : r.isSubmitted) (hdet : r.isDeterministic) (logits : LogitsRow)
    (kv : KvFields)
    (hrow : ∀ p < r.originInputIds.length, row p = model.promptEntry r.originInputIds p) :
    model.Follows { r.prefillToken true (model.firstToken r.samplingParams r.originInputIds) logits
      with kv := kv } row := by
  simp only [Req.isSubmitted, Bool.and_eq_true, List.isEmpty_iff, decide_eq_true_eq,
    Option.isNone_iff_eq_none] at hs
  obtain ⟨⟨⟨⟨hids, hver⟩, hreason⟩, hto⟩, hgrammar⟩ := hs
  set token := model.firstToken r.samplingParams r.originInputIds with htoken
  have heq : r.prefillToken true token logits =
      { r.appendToken token logits with llm42VerifiedTokens := 1 }.checkFinished := by
    simp [Req.prefillToken, hdet, hids]
  rw [heq]
  set r1 : Req := { r.appendToken token logits with llm42VerifiedTokens := 1 } with hr1
  have hout : r1.checkFinished.outputIds = [r.checkedToken 0 token] := by
    have hc : r1.outputIds = [] ++ [token] := by simp [hr1, hids]
    have hnf : ¬ r1.finished := by simp [hr1, Req.finished, Req.appendToken, hreason]
    exact Req.checkFinished_outputIds hc hnf hto hgrammar
  have hst : { r1.checkFinished with kv := kv }.static = r.static :=
    (static_checkFinished r1).trans rfl
  constructor
  · simp [hr1]
  · simp [hr1]
  · intro i hi
    obtain rfl : i = 0 := by simpa [hr1] using hi
    rw [reference_congr hst]
    simp [hout, reference, htoken]
  · rw [checkedToken_congr hst]
    rw [hout]
    exact checked_concat [] (by simp) token
  · rw [referenceCache_congr hst]
    have ho : r1.checkFinished.originInputIds = r.originInputIds := by simp [hr1, Req.appendToken]
    have hv : r1.checkFinished.llm42VerifiedTokens = 1 := by simp [hr1]
    simp only [ho, hv, Nat.add_sub_cancel, Nat.sub_self]
    exact entriesBelow_congr hrow
  · exact Req.checkFinished_toFinish hto
  · simpa [hr1, Req.appendToken] using hgrammar

open LLM42Info in
theorem rowInputIds_window {p : ℕ} (hv : 0 < r.llm42VerifiedTokens)
    (hle : r.llm42VerifiedTokens ≤ r.outputIds.length) (hp : r.unverified.length ≤ p)
    (hne : r.unverified ≠ []) :
    (rowInputIds r p r.unverified.length)[0]? = r.outputIds[r.llm42VerifiedTokens - 1]? ∧
    ∀ i, i + 1 < r.unverified.length →
      (rowInputIds r p r.unverified.length)[i + 1]? = r.unverified[i]? := by
  have hctx : contextToken r = some (r.outputIds[r.llm42VerifiedTokens - 1]) := by
    rw [contextToken, if_pos hv, getD_eq_getElem?_getD, getElem?_eq_getElem (by omega),
      Option.getD_some]
  obtain ⟨pad, hids⟩ := rowInputIds_eq_cons hne hctx hp
  rw [hids]
  refine ⟨by simp [getElem?_eq_getElem (show r.llm42VerifiedTokens - 1 < r.outputIds.length by
    omega)], ?_⟩
  intro i hi
  rw [getElem?_cons_succ, getElem?_append_left (by rw [length_dropLast]; omega),
    getElem?_dropLast, if_pos (by omega)]

open LLM42Info LLM42Worker in
/-- A replay yields the reference's tokens up to the first mismatch, and its next one there. -/
theorem Follows.replay (h : model.Follows r row) {p m : ℕ} (hp : r.unverified.length ≤ p)
    (hm : m < r.unverified.length) (hlen : (rowInputIds r p r.unverified.length).length = p)
    (hagree : ∀ i < m, r.unverified[i]? = (model.replayWindow r row p).1[i]?) :
    (∀ i < m, r.unverified[i]? = some (model.reference r (r.llm42VerifiedTokens + i))) ∧
    (model.replayWindow r row p).1[m]? = some (model.emit r.samplingParams
      (model.referenceCache r (r.llm42VerifiedTokens + m))) ∧
    entriesBelow (model.replayWindow r row p).2 (r.originInputIds.length + r.llm42VerifiedTokens + m) =
      model.referenceCache r (r.llm42VerifiedTokens + m) := by
  have hne : r.unverified ≠ [] := by
    rintro hnil
    simp [hnil] at hm
  have hpos := h.verified_pos
  obtain ⟨h0, hwin⟩ := rowInputIds_window hpos h.verified_le hp hne
  set ids := rowInputIds r p r.unverified.length with hids
  set v := r.llm42VerifiedTokens with hv
  have hfirst : ids[0]? = some ((model.generator r).tokenAt (model.promptEntries r)
      (r.checkedToken 0 (model.firstToken r.samplingParams r.originInputIds)) (v - 1)) := by
    rw [h0]
    exact h.tokens (v - 1) (by omega)
  have hagree' : ∀ i < m, ids[i + 1]? = ((model.generator r).replayOut
      (model.referenceCache r (v - 1)) ids)[i]? := by
    intro i hi
    rw [hwin i (by omega), hagree i hi, model.replayRow_out, h.cache]
  have hcommit : ∀ i < m, ∀ t, ids[i + 1]? = some t → r.checkedToken (v - 1 + i + 1) t = t := by
    intro i hi t ht
    rw [hwin i (by omega), Req.getElem?_unverified] at ht
    rw [show v - 1 + i + 1 = v + i by omega]
    exact h.checked _ _ ht
  obtain ⟨htok, hemit, hcache⟩ :=
    (model.generator r).replay_of_agree (by omega) hfirst hagree' hcommit
  refine ⟨?_, ?_, ?_⟩
  · intro i hi
    rw [← hwin i (by omega), htok (i + 1) (by omega)]
    exact congrArg (fun n => some (model.reference r n)) (by omega)
  · have hm' := hemit m le_rfl
    rw [model.replayRow_out, h.cache]
    refine hm'.trans ?_
    exact congrArg (fun n => some (model.emit r.samplingParams (model.referenceCache r n)))
      (by omega)
  · have hm' := hcache (m + 1) le_rfl
    have hrow := model.replayRow_cache r row (r.originInputIds.length + v - 1) ids
      (show m + 1 ≤ ids.length by omega)
    rw [show r.originInputIds.length + v - 1 + (m + 1) = r.originInputIds.length + v + m by omega]
      at hrow
    rw [hrow, h.cache]
    refine hm'.trans ?_
    exact congrArg (model.referenceCache r) (by omega)

theorem reference_of_pos (r : Req) {n : ℕ} (hn : 0 < n) : model.reference r n =
    r.checkedToken n (model.emit r.samplingParams (model.referenceCache r n)) := by
  obtain ⟨n, rfl⟩ : ∃ m, n = m + 1 := ⟨n - 1, by omega⟩
  rfl

/-- A window whose tokens all agree with their rows consists of reference tokens. -/
theorem Follows.accept (h : model.Follows r row) {p : ℕ} (hne : r.unverified ≠ [])
    (hp : r.unverified.length ≤ p)
    (hlen : (LLM42Info.rowInputIds r p r.unverified.length).length = p)
    (hagree : ∀ i < r.unverified.length, r.unverified[i]? = (model.replayWindow r row p).1[i]?)
    (x : LLM42Worker.PassStats) :
    model.Follows { LLM42Worker.withStats r x with llm42VerifiedTokens := r.outputIds.length }
      (model.replayWindow r row p).2 := by
  have hpos := length_pos_iff.mpr hne
  have hulen := r.length_unverified
  have hv := h.verified_pos
  obtain ⟨htok, hlast, hcache⟩ := h.replay hp (show r.unverified.length - 1 < _ by omega) hlen
    fun i hi => hagree i (by omega)
  have hall : ∀ i < r.unverified.length,
      r.unverified[i]? = some (model.reference r (r.llm42VerifiedTokens + i)) := by
    intro i hi
    by_cases hi' : i < r.unverified.length - 1
    · exact htok i hi'
    · obtain rfl : i = r.unverified.length - 1 := by omega
      have hu := (hagree _ hi).trans hlast
      have hc := h.checked _ _ ((r.getElem?_unverified _).symm.trans hu)
      rw [hu, reference_of_pos r (by omega), hc]
  constructor
  · change 0 < r.outputIds.length
    omega
  · exact le_rfl
  · intro i hi
    by_cases hi' : i < r.llm42VerifiedTokens
    · exact h.tokens i hi'
    · have hi2 : i < r.outputIds.length := hi
      have hget := hall (i - r.llm42VerifiedTokens) (by omega)
      rw [Req.getElem?_unverified] at hget
      rwa [show r.llm42VerifiedTokens + (i - r.llm42VerifiedTokens) = i by omega] at hget
  · exact h.checked
  · change entriesBelow _ (r.originInputIds.length + r.outputIds.length - 1) =
      model.referenceCache r (r.outputIds.length - 1)
    rw [show r.originInputIds.length + r.outputIds.length - 1 =
        r.originInputIds.length + r.llm42VerifiedTokens + (r.unverified.length - 1) by omega,
      show r.outputIds.length - 1 = r.llm42VerifiedTokens + (r.unverified.length - 1) by omega]
    exact hcache
  · exact h.toFinish
  · exact h.grammar

/-- The verifier's token at the first mismatch is the next reference token, once checked. -/
theorem Follows.correct (h : model.Follows r row) {p m : ℕ} {t : Token}
    (hp : r.unverified.length ≤ p) (hm : m < r.unverified.length)
    (hlen : (LLM42Info.rowInputIds r p r.unverified.length).length = p)
    (hagree : ∀ i < m, r.unverified[i]? = (model.replayWindow r row p).1[i]?)
    (ht : (model.replayWindow r row p).1[m]? = some t) {r' : Req}
    (hst : r'.static = r.static)
    (hout : r'.outputIds = r.outputIds.take (r.llm42VerifiedTokens + m) ++ [t])
    (hver : r'.llm42VerifiedTokens = r.llm42VerifiedTokens + m + 1)
    (hfin : r'.finishedReason = none) (hto : r'.toFinish = none) (hgr : r'.grammar = none) :
    model.Follows r'.checkFinished (model.replayWindow r row p).2 := by
  have hulen := r.length_unverified
  have hv := h.verified_pos
  obtain ⟨htok, hlast, hcache⟩ := h.replay hp hm hlen hagree
  obtain rfl : t = _ := Option.some.inj (ht.symm.trans hlast)
  set xs := r.outputIds.take (r.llm42VerifiedTokens + m) with hxs
  have hxlen : xs.length = r.llm42VerifiedTokens + m := by
    rw [hxs, length_take]
    omega
  have hst' : r'.checkFinished.static = r.static := (static_checkFinished r').trans hst
  have hids : r'.checkFinished.outputIds =
      xs ++ [model.reference r (r.llm42VerifiedTokens + m)] := by
    rw [Req.checkFinished_outputIds hout (by simp [Req.finished, hfin]) hto hgr,
      checkedToken_congr hst, hxlen, reference_of_pos r (by omega)]
  have hxget : ∀ i < xs.length, xs[i]? = r.outputIds[i]? := by
    intro i hi
    rw [hxs, getElem?_take_of_lt (by omega)]
  have horigin : r'.originInputIds = r.originInputIds := congrArg (·.originInputIds) hst
  constructor
  · simp [hver]
  · rw [hids]
    simp [hver, hxlen]
  · intro i hi
    simp only [Req.checkFinished_llm42VerifiedTokens, hver] at hi
    rw [hids, reference_congr hst']
    by_cases hi' : i < xs.length
    · rw [getElem?_append_left hi', hxget i hi']
      by_cases hiv : i < r.llm42VerifiedTokens
      · exact h.tokens i hiv
      · have hget := htok (i - r.llm42VerifiedTokens) (by omega)
        rw [Req.getElem?_unverified] at hget
        rwa [show r.llm42VerifiedTokens + (i - r.llm42VerifiedTokens) = i by omega] at hget
    · obtain rfl : i = xs.length := by omega
      simp [hxlen]
  · rw [hids, checkedToken_congr hst', reference_of_pos r (by omega), ← hxlen]
    refine checked_concat xs ?_ _
    intro i u hu
    have hi : i < xs.length := (List.getElem?_eq_some_iff.mp hu).1
    exact h.checked i u (by rw [← hxget i hi, hu])
  · rw [referenceCache_congr hst']
    simp only [Req.checkFinished_originInputIds, Req.checkFinished_llm42VerifiedTokens, horigin,
      hver, Nat.add_sub_cancel]
    rw [show r.originInputIds.length + (r.llm42VerifiedTokens + m + 1) - 1 =
      r.originInputIds.length + r.llm42VerifiedTokens + m by omega]
    exact hcache
  · exact Req.checkFinished_toFinish hto
  · simpa using hgr

end VerifierModel

end LLM42
