import LLM42.Request.Basic

/-! # Finish checks

`Req.check_finished` for one newly accepted token, what it can change, and the per-request parts of
`process_batch_result_prefill` and `process_batch_result_decode` that append the token first. -/

namespace LLM42.Req

/-- The text of the last few tokens, long enough for every stop string and stop pattern. -/
def tailStr (r : Req) : Text :=
  let maxLenTailStr := max (r.samplingParams.stopStrMaxLen + 1) (r.samplingParams.stopRegexMaxLen + 1)
  let tailLen := min (maxLenTailStr + 1) r.outputIds.length
  match r.tokenizer with
  | none => []
  | some t => t.decode (r.outputIds.rtake tailLen)

def matchesEos (r : Req) (token : Token) : Bool :=
  decide (token ∈ r.samplingParams.stopTokenIds) || decide (token ∈ r.eosTokenIds) ||
    match r.tokenizer with
    | none => false
    | some t => decide (some token = t.eosTokenId) || decide (token ∈ t.additionalStopTokenIds)

/-- `_check_token_based_finish`; `none` when it returns `False`. -/
def checkTokenBasedFinish (r : Req) (newAcceptedTokens : List Token) : Option Req :=
  if r.samplingParams.ignoreEos then none
  else match newAcceptedTokens.findIdx? r.matchesEos with
    | none => none
    | some i => some { r with
        finishedReason := some (.matchedToken (newAcceptedTokens.getD i 0))
        finishedLen := some (r.outputIds.length - newAcceptedTokens.length + i + 1) }

def outsideVocab (r : Req) (token : Token) : Bool := decide ((r.vocabSize : ℤ) < token ∨ token < 0)

/-- `_check_vocab_boundary_finish`: an impossible token is overwritten by a stop token. -/
def checkVocabBoundaryFinish (r : Req) (newAcceptedTokens : List Token) : Option Req :=
  match newAcceptedTokens.findIdx? r.outsideVocab with
  | none => none
  | some i =>
    let offset := r.outputIds.length - newAcceptedTokens.length + i
    let afterStop := match r.samplingParams.stopTokenIds with
      | [] => r.outputIds
      | t :: _ => r.outputIds.set offset t
    let afterEos := match r.eosTokenIds with
      | [] => afterStop
      | t :: _ => afterStop.set offset t
    some { r with
      outputIds := afterEos
      finishedReason := some (.matchedStr "NaN happened".toList)
      finishedLen := some (offset + 1) }

/-- `_check_str_based_finish`: stop strings first, then stop patterns. -/
def checkStrBasedFinish (r : Req) : Option Req :=
  match r.samplingParams.stopStrs.find? fun s =>
      decide (s <:+: r.tailStr) || decide (s <:+: r.decodedText) with
  | some s => some { r with finishedReason := some (.matchedStr s) }
  | none => match r.samplingParams.stopRegexStrs.find? fun p => p.search r.tailStr with
    | some p => some { r with finishedReason := some (.matchedRegex p.pattern) }
    | none => none

def grammarTerminated (r : Req) : Bool :=
  match r.grammar with
  | none => false
  | some g => g.isTerminated

def checkFinished (r : Req) : Req :=
  if r.finished then r
  else match r.toFinish with
  | some reason => { r with finishedReason := some reason, toFinish := none }
  | none =>
    if r.samplingParams.maxNewTokens ≤ r.outputIds.length then
      { r with
        finishedReason := some (.length r.samplingParams.maxNewTokens)
        finishedLen := some r.samplingParams.maxNewTokens }
    else if r.grammarTerminated then
      { r with finishedReason := some (.matchedToken (r.outputIds.getLastD 0)) }
    else
      let new := r.outputIds.rtake 1
      match r.checkTokenBasedFinish new with
      | some r' => r'
      | none => match r.checkVocabBoundaryFinish new with
        | some r' => r'
        | none => (r.checkStrBasedFinish).getD r

def vocabReplacement (r : Req) (token : Token) : Token :=
  match r.eosTokenIds, r.samplingParams.stopTokenIds with
  | t :: _, _ => t
  | [], t :: _ => t
  | [], [] => token

/-- What `check_finished` leaves as the token at output position `pos`. -/
def checkedToken (r : Req) (pos : ℕ) (token : Token) : Token :=
  if r.samplingParams.maxNewTokens ≤ pos + 1 then token
  else if !r.samplingParams.ignoreEos && r.matchesEos token then token
  else if r.outsideVocab token then r.vocabReplacement token
  else token

theorem rtake_one_concat {α : Type*} (xs : List α) (x : α) : (xs ++ [x]).rtake 1 = [x] := by
  simp [List.rtake_eq_reverse_take_reverse]

/-- No stop token and no impossible token at the end of the output. -/
def LastTokenPlain (r : Req) : Prop :=
  ∀ xs t, r.outputIds = xs ++ [t] →
    (r.samplingParams.ignoreEos ∨ ¬ r.matchesEos t) ∧ ¬ r.outsideVocab t

/-- The outcomes of a finish check, one for each way the code leaves the function. -/
inductive FinishCase (r : Req) : Req → Prop
  | already : r.finished → FinishCase r r
  | aborted (reason : FinishReason) : ¬ r.finished → r.toFinish = some reason →
      FinishCase r { r with finishedReason := some reason, toFinish := none }
  | length : ¬ r.finished → r.toFinish = none →
      r.samplingParams.maxNewTokens ≤ r.outputIds.length →
      FinishCase r { r with
        finishedReason := some (.length r.samplingParams.maxNewTokens)
        finishedLen := some r.samplingParams.maxNewTokens }
  | grammar : ¬ r.finished → r.toFinish = none →
      r.outputIds.length < r.samplingParams.maxNewTokens → r.grammarTerminated →
      FinishCase r { r with finishedReason := some (.matchedToken (r.outputIds.getLastD 0)) }
  | token (xs : List Token) (t : Token) : ¬ r.finished → r.toFinish = none →
      r.outputIds.length < r.samplingParams.maxNewTokens → ¬ r.grammarTerminated →
      r.outputIds = xs ++ [t] → ¬ r.samplingParams.ignoreEos → r.matchesEos t →
      FinishCase r { r with
        finishedReason := some (.matchedToken t), finishedLen := some r.outputIds.length }
  | vocab (xs : List Token) (t : Token) : ¬ r.finished → r.toFinish = none →
      r.outputIds.length < r.samplingParams.maxNewTokens → ¬ r.grammarTerminated →
      r.outputIds = xs ++ [t] → (r.samplingParams.ignoreEos ∨ ¬ r.matchesEos t) →
      r.outsideVocab t →
      FinishCase r { r with
        outputIds := xs ++ [r.vocabReplacement t]
        finishedReason := some (.matchedStr "NaN happened".toList)
        finishedLen := some r.outputIds.length }
  | text (reason : FinishReason) : ¬ r.finished → r.toFinish = none →
      r.outputIds.length < r.samplingParams.maxNewTokens → ¬ r.grammarTerminated →
      r.LastTokenPlain → r.checkStrBasedFinish = some { r with finishedReason := some reason } →
      FinishCase r { r with finishedReason := some reason }
  | unfinished : ¬ r.finished → r.toFinish = none →
      r.outputIds.length < r.samplingParams.maxNewTokens → ¬ r.grammarTerminated →
      r.LastTokenPlain → r.checkStrBasedFinish = none → FinishCase r r

theorem checkTokenBasedFinish_concat (r : Req) (xs : List Token) (t : Token)
    (h : r.outputIds = xs ++ [t]) :
    r.checkTokenBasedFinish [t] = if !r.samplingParams.ignoreEos && r.matchesEos t then
        some { r with finishedReason := some (.matchedToken t), finishedLen := some r.outputIds.length }
      else none := by
  cases hi : r.samplingParams.ignoreEos <;> cases hm : r.matchesEos t <;>
    simp [checkTokenBasedFinish, hi, hm, h]

theorem checkVocabBoundaryFinish_concat (r : Req) (xs : List Token) (t : Token)
    (h : r.outputIds = xs ++ [t]) :
    r.checkVocabBoundaryFinish [t] = if r.outsideVocab t then
        some { r with
          outputIds := xs ++ [r.vocabReplacement t]
          finishedReason := some (.matchedStr "NaN happened".toList)
          finishedLen := some r.outputIds.length }
      else none := by
  cases hv : r.outsideVocab t with
  | false => simp [checkVocabBoundaryFinish, hv]
  | true =>
    cases he : r.eosTokenIds <;> cases hs : r.samplingParams.stopTokenIds <;>
      simp [checkVocabBoundaryFinish, vocabReplacement, hv, he, hs, h]

theorem checkStrBasedFinish_some {r r' : Req} (h : r.checkStrBasedFinish = some r') :
    ∃ reason, r' = { r with finishedReason := some reason } := by
  unfold checkStrBasedFinish at h
  split at h
  · exact ⟨_, (Option.some.inj h).symm⟩
  · split at h
    · exact ⟨_, (Option.some.inj h).symm⟩
    · cases h

theorem checkStrBasedFinish_reason {r r' : Req} (h : r.checkStrBasedFinish = some r') :
    (∀ m, r'.finishedReason ≠ some (.abort m)) ∧ ∀ n, r'.finishedReason ≠ some (.length n) := by
  unfold checkStrBasedFinish at h
  split at h
  · cases h
    simp
  · split at h
    · cases h
      simp
    · cases h

variable {r : Req}

theorem checkStrBasedFinish_case (hf : ¬ r.finished) (ht : r.toFinish = none)
    (hl : r.outputIds.length < r.samplingParams.maxNewTokens) (hg : ¬ r.grammarTerminated)
    (hp : r.LastTokenPlain) : FinishCase r (r.checkStrBasedFinish.getD r) := by
  cases hs : r.checkStrBasedFinish with
  | none => exact .unfinished hf ht hl hg hp hs
  | some r' =>
    obtain ⟨reason, rfl⟩ := checkStrBasedFinish_some hs
    exact .text reason hf ht hl hg hp hs

theorem checkFinished_case (r : Req) : FinishCase r r.checkFinished := by
  unfold checkFinished
  by_cases hf : r.finished
  · rw [if_pos hf]
    exact .already hf
  rw [if_neg hf]
  split
  next reason ht => exact .aborted reason hf ht
  next ht =>
  by_cases hl : r.samplingParams.maxNewTokens ≤ r.outputIds.length
  · rw [if_pos hl]
    exact .length hf ht hl
  rw [if_neg hl]
  rw [not_le] at hl
  by_cases hg : r.grammarTerminated
  · rw [if_pos hg]
    exact .grammar hf ht hl hg
  rw [if_neg hg]
  rcases List.eq_nil_or_concat' r.outputIds with hnil | ⟨xs, t, hc⟩
  · have hlast : r.LastTokenPlain := by
      intro xs t h
      simp [hnil] at h
    have h1 : r.checkTokenBasedFinish (r.outputIds.rtake 1) = none := by
      simp [hnil, checkTokenBasedFinish]
    have h2 : r.checkVocabBoundaryFinish (r.outputIds.rtake 1) = none := by
      simp [hnil, checkVocabBoundaryFinish]
    simp only [h1, h2]
    exact checkStrBasedFinish_case hf ht hl hg hlast
  · have hlast : r.outputIds.rtake 1 = [t] := by rw [hc, rtake_one_concat]
    simp only [hlast, checkTokenBasedFinish_concat r xs t hc,
      checkVocabBoundaryFinish_concat r xs t hc]
    by_cases hm : (!r.samplingParams.ignoreEos && r.matchesEos t) = true
    · rw [if_pos hm]
      simp only [Bool.and_eq_true, Bool.not_eq_true'] at hm
      exact .token xs t hf ht hl hg hc (by simp [hm.1]) hm.2
    rw [if_neg hm]
    have hm' : r.samplingParams.ignoreEos ∨ ¬ r.matchesEos t := by
      cases hi : r.samplingParams.ignoreEos <;> simp_all
    by_cases hv : r.outsideVocab t
    · rw [if_pos hv]
      exact .vocab xs t hf ht hl hg hc hm' hv
    rw [if_neg hv]
    refine checkStrBasedFinish_case hf ht hl hg ?_
    intro ys u h
    obtain ⟨rfl, rfl⟩ : ys = xs ∧ u = t := by
      simpa using h.symm.trans hc
    exact ⟨hm', hv⟩

def StopsOnText (r : Req) : Prop :=
  (r.samplingParams.stopStrs.find? fun s =>
      decide (s <:+: r.tailStr) || decide (s <:+: r.decodedText)).isSome ∨
    (r.samplingParams.stopRegexStrs.find? fun p => p.search r.tailStr).isSome

theorem checkStrBasedFinish_eq_none_iff (r : Req) :
    r.checkStrBasedFinish = none ↔ ¬ r.StopsOnText := by
  unfold checkStrBasedFinish StopsOnText
  split
  next h => simp [h]
  next h =>
  split
  next h' => simp [h']
  next h' => simp [h, h']

/-- A check has a reason to finish the request, its grammar apart. -/
def Ends (r : Req) : Prop :=
  r.toFinish.isSome ∨ r.samplingParams.maxNewTokens ≤ r.outputIds.length ∨ ¬ r.LastTokenPlain ∨
    r.StopsOnText

/-- When a check finds a request finished. -/
theorem finished_checkFinished_iff (r : Req) :
    r.checkFinished.finished ↔ r.finished ∨ r.grammarTerminated ∨ r.Ends := by
  have h := r.checkFinished_case
  generalize r.checkFinished = r' at h ⊢
  cases h with
  | already hf => exact iff_of_true hf (.inl hf)
  | aborted reason _ ht => exact iff_of_true rfl (.inr (.inr (.inl (by simp [ht]))))
  | length _ _ hl => exact iff_of_true rfl (.inr (.inr (.inr (.inl hl))))
  | grammar _ _ _ hg => exact iff_of_true rfl (.inr (.inl hg))
  | token xs t _ _ _ _ hc hi hm =>
    refine iff_of_true rfl (.inr (.inr (.inr (.inr (.inl fun hp => ?_)))))
    rcases (hp xs t hc).1 with h | h
    · exact hi h
    · exact h hm
  | vocab xs t _ _ _ _ hc _ hv =>
    exact iff_of_true rfl (.inr (.inr (.inr (.inr (.inl fun hp => (hp xs t hc).2 hv)))))
  | text reason _ _ _ _ _ hs =>
    have hstop : r.StopsOnText := by
      by_contra hn
      rw [← checkStrBasedFinish_eq_none_iff, hs] at hn
      cases hn
    exact iff_of_true rfl (.inr (.inr (.inr (.inr (.inr hstop)))))
  | unfinished hf ht hl hg hp hs =>
    refine iff_of_false hf ?_
    rintro (h | h | h | h | h | h)
    · exact hf h
    · exact hg h
    · simp [ht] at h
    · exact absurd h (Nat.not_le.mpr hl)
    · exact h hp
    · exact (checkStrBasedFinish_eq_none_iff r).mp hs h

theorem checkFinished_closes (hf : ¬ r.finished) (h : r.checkFinished.finished) :
    r.checkFinished.toFinish = none := by
  have hc := r.checkFinished_case
  generalize r.checkFinished = r' at hc h ⊢
  cases hc with
  | already h' => exact absurd h' hf
  | aborted => rfl
  | length _ ht | grammar _ ht | token _ _ _ ht | vocab _ _ _ ht | text _ _ ht =>
    exact ht
  | unfinished _ ht => exact ht

theorem checkFinished_ne_abort (hf : ¬ r.finished) (ht : r.toFinish = none) (m : String) :
    r.checkFinished.finishedReason ≠ some (.abort m) := by
  have hc := r.checkFinished_case
  generalize r.checkFinished = r' at hc ⊢
  cases hc with
  | already h => exact absurd h hf
  | aborted reason _ h => simp [ht] at h
  | length | grammar | token | vocab => simp
  | text reason _ _ _ _ _ hs => exact (checkStrBasedFinish_reason hs).1 m
  | unfinished =>
    intro h
    simp [finished, h] at hf

theorem checkFinished_eq (r : Req) : r.checkFinished = { r with
      outputIds := r.checkFinished.outputIds, finishedReason := r.checkFinished.finishedReason
      finishedLen := r.checkFinished.finishedLen, toFinish := r.checkFinished.toFinish } := by
  have h := r.checkFinished_case
  generalize r.checkFinished = r' at h ⊢
  cases h <;> rfl

section Frame

variable (r : Req)

@[simp] theorem checkFinished_rid : r.checkFinished.rid = r.rid := by rw [checkFinished_eq]

@[simp] theorem checkFinished_originInputIds :
    r.checkFinished.originInputIds = r.originInputIds := by rw [checkFinished_eq]

@[simp] theorem checkFinished_samplingParams :
    r.checkFinished.samplingParams = r.samplingParams := by rw [checkFinished_eq]

@[simp] theorem checkFinished_isDeterministic :
    r.checkFinished.isDeterministic = r.isDeterministic := by
  simp [isDeterministic]

@[simp] theorem checkFinished_grammar : r.checkFinished.grammar = r.grammar := by rw [checkFinished_eq]

@[simp] theorem checkFinished_extraKey : r.checkFinished.extraKey = r.extraKey := by rw [checkFinished_eq]

@[simp] theorem checkFinished_completed : r.checkFinished.completed = r.completed := by rw [checkFinished_eq]

@[simp] theorem checkFinished_kv : r.checkFinished.kv = r.kv := by rw [checkFinished_eq]

@[simp] theorem checkFinished_llm42VerifiedTokens :
    r.checkFinished.llm42VerifiedTokens = r.llm42VerifiedTokens := by rw [checkFinished_eq]

@[simp] theorem checkFinished_llm42TokensRolledBack :
    r.checkFinished.llm42TokensRolledBack = r.llm42TokensRolledBack := by rw [checkFinished_eq]

end Frame

@[simp] theorem length_checkFinished (r : Req) :
    r.checkFinished.outputIds.length = r.outputIds.length := by
  have h := r.checkFinished_case
  generalize r.checkFinished = r' at h ⊢
  cases h with
  | vocab xs t _ _ _ _ hc _ _ => simp [hc]
  | _ => rfl

theorem dropLast_checkFinished (r : Req) :
    r.checkFinished.outputIds.dropLast = r.outputIds.dropLast := by
  have h := r.checkFinished_case
  generalize r.checkFinished = r' at h ⊢
  cases h with
  | vocab xs t _ _ _ _ hc _ _ => simp [hc]
  | _ => rfl

theorem checkFinished_outputIds_of_inVocab (h : ∀ t ∈ r.outputIds.getLast?, ¬ r.outsideVocab t) :
    r.checkFinished.outputIds = r.outputIds := by
  have hc := r.checkFinished_case
  generalize r.checkFinished = r' at hc ⊢
  cases hc with
  | vocab xs t _ _ _ _ hids _ hv =>
    exact absurd hv (h t (by simp [hids]))
  | _ => rfl

theorem checkFinished_of_unfinished (h : ¬ r.checkFinished.finished) : r.checkFinished = r := by
  have hc := r.checkFinished_case
  generalize r.checkFinished = r' at hc h ⊢
  cases hc with
  | unfinished => rfl
  | already => rfl
  | _ => exact absurd rfl h

theorem checkFinished_toFinish (h : r.toFinish = none) : r.checkFinished.toFinish = none := by
  have hc := r.checkFinished_case
  generalize r.checkFinished = r' at hc ⊢
  cases hc with
  | aborted => rfl
  | _ => exact h

theorem checkFinished_of_finished (h : r.finished) : r.checkFinished = r := by
  simp [checkFinished, h]

/-- The last token after a check, when no abort or grammar is involved. -/
theorem checkFinished_outputIds {xs : List Token} {t : Token} (hc : r.outputIds = xs ++ [t])
    (hf : ¬ r.finished) (ht : r.toFinish = none) (hg : r.grammar = none) :
    r.checkFinished.outputIds = xs ++ [r.checkedToken xs.length t] := by
  have h := r.checkFinished_case
  generalize r.checkFinished = r' at h ⊢
  have hlen : r.outputIds.length = xs.length + 1 := by simp [hc]
  cases h with
  | already h => exact absurd h hf
  | aborted reason _ h => simp [ht] at h
  | length _ _ h =>
    rw [hlen] at h
    simp [checkedToken, h, hc]
  | grammar _ _ _ h => simp [grammarTerminated, hg] at h
  | token ys u _ _ hl _ h hi hm =>
    obtain ⟨rfl, rfl⟩ : ys = xs ∧ u = t := by simpa using h.symm.trans hc
    simp [checkedToken, hi, hm, hc]
  | vocab ys u _ _ hl _ h hm hv =>
    obtain ⟨rfl, rfl⟩ : ys = xs ∧ u = t := by simpa using h.symm.trans hc
    rw [hlen] at hl
    have hne : (!r.samplingParams.ignoreEos && r.matchesEos u) = false := by
      rcases hm with h | h <;> simp [h]
    simp [checkedToken, Nat.not_le.mpr hl, hne, hv]
  | text reason _ _ hl _ hp _ | unfinished _ _ hl _ hp _ =>
    obtain ⟨hm, hv⟩ := hp xs t hc
    have hne : (!r.samplingParams.ignoreEos && r.matchesEos t) = false := by
      rcases hm with h | h <;> simp [h]
    simp [checkedToken, hne, hv, hc]

private theorem vocabReplacement_idem (r : Req) (t : Token) :
    r.vocabReplacement (r.vocabReplacement t) = r.vocabReplacement t := by
  cases he : r.eosTokenIds <;> cases hs : r.samplingParams.stopTokenIds <;>
    simp [vocabReplacement, he, hs]

private theorem checkedToken_eq_or (r : Req) (pos : ℕ) (t : Token) :
    r.checkedToken pos t = t ∨ r.checkedToken pos t = r.vocabReplacement t := by
  unfold checkedToken
  split_ifs <;> simp

theorem checkedToken_idem (r : Req) (pos : ℕ) (t : Token) :
    r.checkedToken pos (r.checkedToken pos t) = r.checkedToken pos t := by
  rcases r.checkedToken_eq_or pos t with h | h
  · rw [h, h]
  · rw [h]
    rcases r.checkedToken_eq_or pos (r.vocabReplacement t) with h' | h'
    · exact h'
    · rw [h', vocabReplacement_idem]

/-- `req.customized_info[key].append(value)`; a key seen for the first time gets a new list. -/
def appendInfo (key : String) (value : CustomInfo) :
    List (String × List CustomInfo) → List (String × List CustomInfo)
  | [] => [(key, [value])]
  | (k, values) :: rest =>
    if k = key then (k, values ++ [value]) :: rest else (k, values) :: appendInfo key value rest

def collectRecords (r : Req) (logits : LogitsRow) : TokenRecords :=
  let top := r.returnLogprob && decide (0 < r.topLogprobsNum)
  let tokenIds := r.returnLogprob && r.tokenIdsLogprob.isSome
  { topLogprobsVal := r.records.topLogprobsVal ++ if top then [logits.topLogprobsVal] else []
    topLogprobsIdx := r.records.topLogprobsIdx ++ if top then [logits.topLogprobsIdx] else []
    tokenIdsLogprobsVal :=
      r.records.tokenIdsLogprobsVal ++ if tokenIds then [logits.tokenIdsLogprobsVal] else []
    tokenIdsLogprobsIdx :=
      r.records.tokenIdsLogprobsIdx ++ if tokenIds then [logits.tokenIdsLogprobsIdx] else []
    customizedInfo := logits.customizedInfo.foldl (fun info x => appendInfo x.1 x.2 info)
      r.records.customizedInfo }

def appendToken (r : Req) (token : Token) (logits : LogitsRow) : Req :=
  { r with
    outputIds := r.outputIds ++ [token]
    outputTokenLogprobsVal :=
      if r.returnLogprob then r.outputTokenLogprobsVal.map (· ++ [logits.logprob])
      else r.outputTokenLogprobsVal
    outputTokenLogprobsIdx :=
      if r.returnLogprob then r.outputTokenLogprobsIdx.map (· ++ [token])
      else r.outputTokenLogprobsIdx
    records := r.collectRecords logits }

def decodeToken (r : Req) (token : Token) (logits : LogitsRow) : Req :=
  (r.appendToken token logits).checkFinished

/-- The prefill path: the very first output token of a deterministic request counts as verified,
since prefill already runs with a fixed shape. -/
def prefillToken (enableLlm42 : Bool) (r : Req) (token : Token) (logits : LogitsRow) : Req :=
  let r := r.appendToken token logits
  let r := if r.isDeterministic && enableLlm42 && decide (r.outputIds.length = 1) then
      { r with llm42VerifiedTokens := 1 }
    else r
  r.checkFinished

attribute [local simp] appendToken

variable (r : Req) (token : Token) (logits : LogitsRow)

@[simp] theorem appendToken_outputIds :
    (r.appendToken token logits).outputIds = r.outputIds ++ [token] := rfl

@[simp] theorem appendToken_samplingParams :
    (r.appendToken token logits).samplingParams = r.samplingParams := rfl

@[simp] theorem appendToken_isDeterministic :
    (r.appendToken token logits).isDeterministic = r.isDeterministic := rfl

@[simp] theorem length_decodeToken :
    (r.decodeToken token logits).outputIds.length = r.outputIds.length + 1 := by
  simp [decodeToken]

@[simp] theorem decodeToken_llm42VerifiedTokens :
    (r.decodeToken token logits).llm42VerifiedTokens = r.llm42VerifiedTokens := by
  simp [decodeToken]

@[simp] theorem decodeToken_kv : (r.decodeToken token logits).kv = r.kv := by
  simp [decodeToken]

@[simp] theorem decodeToken_originInputIds :
    (r.decodeToken token logits).originInputIds = r.originInputIds := by
  simp [decodeToken]

@[simp] theorem decodeToken_isDeterministic :
    (r.decodeToken token logits).isDeterministic = r.isDeterministic := by
  simp [decodeToken, isDeterministic]

variable (enableLlm42 : Bool)

@[simp] theorem length_prefillToken :
    (prefillToken enableLlm42 r token logits).outputIds.length = r.outputIds.length + 1 := by
  unfold prefillToken
  dsimp only
  split <;> simp

@[simp] theorem prefillToken_samplingParams :
    (prefillToken enableLlm42 r token logits).samplingParams = r.samplingParams := by
  unfold prefillToken
  dsimp only
  split <;> simp

@[simp] theorem prefillToken_kv : (prefillToken enableLlm42 r token logits).kv = r.kv := by
  unfold prefillToken
  dsimp only
  split <;> simp

@[simp] theorem prefillToken_originInputIds :
    (prefillToken enableLlm42 r token logits).originInputIds = r.originInputIds := by
  unfold prefillToken
  dsimp only
  split <;> simp

@[simp] theorem prefillToken_completed :
    (prefillToken enableLlm42 r token logits).completed = r.completed := by
  unfold prefillToken
  dsimp only
  split <;> simp

@[simp] theorem prefillToken_extraKey :
    (prefillToken enableLlm42 r token logits).extraKey = r.extraKey := by
  unfold prefillToken
  dsimp only
  split <;> simp

@[simp] theorem prefillToken_isDeterministic :
    (prefillToken enableLlm42 r token logits).isDeterministic = r.isDeterministic := by
  simp [isDeterministic]

theorem prefillToken_llm42VerifiedTokens :
    (prefillToken enableLlm42 r token logits).llm42VerifiedTokens =
      if r.isDeterministic ∧ enableLlm42 ∧ r.outputIds = [] then 1 else r.llm42VerifiedTokens := by
  unfold prefillToken
  dsimp only
  split
  · simp_all [isDeterministic]
  · rw [if_neg (by simp_all [isDeterministic])]
    simp

end LLM42.Req
