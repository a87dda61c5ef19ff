import LLM42.Verification.Shape

/-! # Outcome of a pass for one request

Either every token of the window is accepted, or the last `k` tokens are replaced by one token of
the verifier. In both cases everything left in the output is verified. -/

namespace LLM42

open List

namespace LLM42Info

theorem firstMismatchPosition_le (os vs : List Token) :
    firstMismatchPosition os vs ≤ os.length := by
  induction os generalizing vs with
  | nil => simp [firstMismatchPosition]
  | cons o os ih =>
    cases vs with
    | nil => simp [firstMismatchPosition]
    | cons v vs =>
      have := ih vs
      simp only [firstMismatchPosition]
      split
      · simp only [length_cons]
        omega
      · simp

theorem take_firstMismatchPosition (os vs : List Token) :
    os.take (firstMismatchPosition os vs) = vs.take (firstMismatchPosition os vs) := by
  induction os generalizing vs with
  | nil => simp [firstMismatchPosition]
  | cons o os ih =>
    cases vs with
    | nil => simp [firstMismatchPosition]
    | cons v vs =>
      simp only [firstMismatchPosition]
      split
      next h => rw [h, take_succ_cons, take_succ_cons, ih]
      · simp

theorem firstMismatchPosition_self (os : List Token) : firstMismatchPosition os os = os.length := by
  induction os with
  | nil => rfl
  | cons o os ih => simp [firstMismatchPosition, ih]

end LLM42Info

namespace LLM42Worker

open LLM42Info

/-- Tokens that the comparison selected by `skip_mismatch` discards from a window. -/
def rollbackCount (w : LLM42Worker) (window rows : List Token) : ℕ :=
  if 100 ≤ w.skipMismatch then window.length - firstMismatchPosition window rows
  else if w.skipMismatch ≤ 0 then 0
  else if 0 < window.length then w.mismatchPercentage.tokensToRollback window.length else 0

theorem rollbackCount_le (w : LLM42Worker) (window rows : List Token) :
    w.rollbackCount window rows ≤ window.length := by
  unfold rollbackCount
  split_ifs with h1 h2 h3
  · omega
  · omega
  · exact w.mismatchPercentage.le _
  · omega

/-- A pass that leaves a window as it is: every token agrees with the verifier's, or nothing is
compared. A percentage always discards something. -/
def Accepts (w : LLM42Worker) (window rows : List Token) : Prop :=
  w.skipMismatch ≤ 0 ∨ (100 ≤ w.skipMismatch ∧ window = rows)
deriving Decidable

theorem rollbackCount_eq_zero_iff (w : LLM42Worker) {window rows : List Token}
    (hne : window ≠ []) (hlen : rows.length = window.length) :
    w.rollbackCount window rows = 0 ↔ w.Accepts window rows := by
  have hpos := length_pos_iff.mpr hne
  unfold rollbackCount Accepts
  split_ifs with h1 h2
  · have hskip : ¬ w.skipMismatch ≤ 0 := fun h => by linarith
    have hle := firstMismatchPosition_le window rows
    simp only [hskip, h1, true_and, false_or]
    constructor
    · intro h0
      have hfm : firstMismatchPosition window rows = window.length := by omega
      have htake := take_firstMismatchPosition window rows
      rwa [hfm, take_length, ← hlen, take_length] at htake
    · rintro rfl
      rw [firstMismatchPosition_self]
      omega
  · simp [h2]
  · simp only [h1, h2, false_and, or_self, iff_false]
    exact (w.mismatchPercentage.pos hpos).ne'

/-- Rows of a window whose tokens are in the output after the pass. -/
def keptRows (w : LLM42Worker) (window rows : List Token) : ℕ :=
  if 0 < w.rollbackCount window rows then window.length - w.rollbackCount window rows + 1
  else window.length

/-- The stored log-probabilities after a pass. Where nothing is compared they stay. -/
def passLogprobs (w : LLM42Worker) (rows : List Token) (lps : Option (List Logprob)) (r : Req) :
    Req :=
  if w.skipMismatch ≤ 0 then r
  else replaceLogprobs r.unverified.length (lps.map (·.take (w.keptRows r.unverified rows)))
    (rows.take (w.keptRows r.unverified rows)) r

/-- Bookkeeping that a pass may change and that no later token depends on. -/
structure PassStats where
  logprobsVal : Option (List Logprob)
  logprobsIdx : Option (List Token)
  logprobsOffset : ℕ
  numRollbacks : ℕ

def withStats (r : Req) (x : PassStats) : Req :=
  { r with
    outputTokenLogprobsVal := x.logprobsVal
    outputTokenLogprobsIdx := x.logprobsIdx
    sendOutputTokenLogprobsOffset := x.logprobsOffset
    llm42NumRollbacks := x.numRollbacks
    llm42NumVerificationWindows := r.llm42NumVerificationWindows + 1 }

/-- The two outcomes of a pass that discards `k` tokens of the window of `r`. -/
inductive VerifyOutcome (r : Req) (rows : List Token) (k : ℕ) : Req → ℕ → Prop
  | accepted (x : PassStats) : k = 0 →
      VerifyOutcome r rows k
        { withStats r x with llm42VerifiedTokens := r.outputIds.length } 0
  | corrected (x : PassStats) (t : Token) : 0 < k → k ≤ r.unverified.length →
      rows[r.unverified.length - k]? = some t →
      VerifyOutcome r rows k
        { withStats r x with
          outputIds := r.outputIds.rdrop k ++ [t]
          finishedReason := none
          llm42TokensRolledBack := r.llm42TokensRolledBack + (k - 1)
          llm42VerifiedTokens := r.outputIds.length - k + 1 } (k - 1)

variable {rows : List Token} {r r' : Req} {k net : ℕ}

section

variable (h : VerifyOutcome r rows k r' net)

include h

theorem VerifyOutcome.isDeterministic : r'.isDeterministic = r.isDeterministic := by
  cases h with
  | accepted => rfl
  | corrected => rfl

theorem VerifyOutcome.kv_eq : r'.kv = r.kv := by
  cases h with
  | accepted => rfl
  | corrected => rfl

/-- The output after a pass whose verifier agrees with the tokens that stay. -/
theorem VerifyOutcome.outputIds_eq
    (hkept : r.unverified.take (r.unverified.length - k) = rows.take (r.unverified.length - k)) :
    r'.outputIds = r.outputIds.take r.llm42VerifiedTokens ++
      rows.take (if 0 < k then r.unverified.length - k + 1 else r.unverified.length) := by
  have hsplit : r.outputIds = r.outputIds.take r.llm42VerifiedTokens ++ r.unverified :=
    (take_append_drop _ _).symm
  cases h with
  | accepted x hk =>
    rw [hk, if_neg (Nat.lt_irrefl 0)]
    rw [hk, Nat.sub_zero, take_length] at hkept
    rw [← hkept]
    exact hsplit
  | corrected x t hk hle hrow =>
    rw [if_pos hk, take_add_one, hrow, ← hkept]
    have hlen := r.length_unverified
    have hrdrop : r.outputIds.rdrop k = r.outputIds.take r.llm42VerifiedTokens ++
        r.unverified.take (r.unverified.length - k) := by
      have hver : r.outputIds.length - k = r.llm42VerifiedTokens + (r.unverified.length - k) := by
        omega
      rw [List.rdrop, hver, take_add, Req.unverified]
    rw [hrdrop, append_assoc]
    rfl

end

theorem replaceLogprobs_eq (n : ℕ) (new : Option (List Logprob)) (newIdx : List Token) (r : Req) :
    ∃ val idx off, replaceLogprobs n new newIdx r = { r with
      outputTokenLogprobsVal := val
      outputTokenLogprobsIdx := idx
      sendOutputTokenLogprobsOffset := off } := by
  unfold replaceLogprobs
  split
  · exact ⟨_, _, _, rfl⟩
  · exact ⟨_, _, _, rfl⟩

theorem length_rdrop {α : Type*} (l : List α) (k : ℕ) : (l.rdrop k).length = l.length - k := by
  simp [List.rdrop]

theorem recordResult_compareReq {pct : Option MismatchPercentage} {r : Req} {k : ℕ} (lps : Option (List Logprob))
    (hlen : rows.length = r.unverified.length) (hne : r.unverified ≠ [])
    (hk : k ≤ r.unverified.length)
    (hpoint : rollbackPoint pct r.unverified rows = (r.unverified.length - k, k)) :
    let c := compareReq pct r.unverified.length r.unverified rows lps r
    VerifyOutcome r rows k (recordResult r.unverified.length c) c.2.2 := by
  have hpos := length_pos_iff.mpr hne
  have hulen := r.length_unverified
  unfold compareReq
  simp only [hpoint]
  by_cases hk0 : 0 < k
  · have hlt : r.unverified.length - k < rows.length := by omega
    have hrow : (rows.drop (r.unverified.length - k)).take 1 = [rows[r.unverified.length - k]] := by
      rw [drop_eq_getElem_cons hlt, take_succ_cons, take_zero]
    have hsome : rows[r.unverified.length - k]? = some rows[r.unverified.length - k] :=
      getElem?_eq_getElem hlt
    rw [if_pos hk0, hrow]
    obtain ⟨val, idx, off, heq⟩ := replaceLogprobs_eq r.unverified.length
      (lps.map (·.take (r.unverified.length - k + [rows[r.unverified.length - k]].length)))
      (rows.take (r.unverified.length - k + [rows[r.unverified.length - k]].length))
      { r with
        outputIds := r.outputIds.rdrop k ++ [rows[r.unverified.length - k]]
        finishedReason := none }
    rw [heq]
    by_cases hk1 : 0 < k - 1
    · have houtcome := VerifyOutcome.corrected (r := r) ⟨val, idx, off, r.llm42NumRollbacks + 1⟩
        _ hk0 hk hsome
      simpa [recordResult, hk1, withStats, length_rdrop] using houtcome
    · have houtcome := VerifyOutcome.corrected (r := r) ⟨val, idx, off, r.llm42NumRollbacks⟩
        _ hk0 hk hsome
      obtain rfl : k = 1 := by omega
      have hlast : r.llm42VerifiedTokens + r.unverified.length = r.outputIds.length - 1 + 1 := by
        omega
      simpa [recordResult, withStats, hlast] using houtcome
  · obtain rfl : k = 0 := by omega
    rw [if_neg hk0]
    obtain ⟨val, idx, off, heq⟩ := replaceLogprobs_eq r.unverified.length lps rows r
    have hlast : r.llm42VerifiedTokens + r.unverified.length = r.outputIds.length := by omega
    have houtcome : VerifyOutcome r rows 0 _ _ := .accepted ⟨val, idx, off, r.llm42NumRollbacks⟩ rfl
    rw [heq]
    simpa [recordResult, withStats, hlast] using houtcome

/-- The stored log-probabilities of a request and how many of them were sent. -/
def logprobRecord (r : Req) : Option (List Logprob) × Option (List Token) × ℕ :=
  (r.outputTokenLogprobsVal, r.outputTokenLogprobsIdx, r.sendOutputTokenLogprobsOffset)

theorem logprobRecord_replaceLogprobs (n : ℕ) (new : Option (List Logprob)) (newIdx : List Token)
    (h : logprobRecord r' = logprobRecord r) :
    logprobRecord (replaceLogprobs n new newIdx r') =
      logprobRecord (replaceLogprobs n new newIdx r) := by
  simp only [logprobRecord, Prod.mk.injEq] at h
  obtain ⟨hval, hidx, hoff⟩ := h
  unfold replaceLogprobs
  rw [hval]
  split
  · simp [logprobRecord, hidx]
  · simp [logprobRecord, hval, hidx, hoff]

theorem logprobRecord_recordResult (n : ℕ) (x : Req × (ℕ × ℕ)) :
    logprobRecord (recordResult n x) = logprobRecord x.1 := by
  unfold recordResult
  split <;> rfl

theorem logprobRecord_compareReq (w : LLM42Worker) {pct : Option MismatchPercentage} {r : Req}
    {lps : Option (List Logprob)} (hskip : ¬ w.skipMismatch ≤ 0)
    (hlen : rows.length = r.unverified.length) (hlps : ∀ l ∈ lps, l.length = r.unverified.length)
    (hpoint : rollbackPoint pct r.unverified rows =
      (r.unverified.length - w.rollbackCount r.unverified rows,
        w.rollbackCount r.unverified rows)) :
    logprobRecord (compareReq pct r.unverified.length r.unverified rows lps r).1 =
      logprobRecord (w.passLogprobs rows lps r) := by
  have hle := w.rollbackCount_le r.unverified rows
  unfold compareReq passLogprobs keptRows
  simp only [hpoint, if_neg hskip]
  by_cases hk : 0 < w.rollbackCount r.unverified rows
  · have hone : ((rows.drop (r.unverified.length -
        w.rollbackCount r.unverified rows)).take 1).length = 1 := by
      rw [length_take, length_drop]
      omega
    rw [if_pos hk, if_pos hk, hone]
    exact logprobRecord_replaceLogprobs _ _ _ rfl
  · rw [if_neg hk, if_neg hk]
    have htake : lps.map (·.take r.unverified.length) = lps := by
      cases lps with
      | none => rfl
      | some l => rw [Option.map_some, take_of_length_le (hlps l rfl).le]
    rw [htake, take_of_length_le hlen.le]

section

variable (w : LLM42Worker) {force : Bool} {r : Req} (out : VerifyOutput) (offset : ℕ)
  (hne : r.unverified ≠ []) (hfull : window force w.windowSize r = r.unverified)

include hne hfull

/-- A pass compares nothing, or it goes back to the point that its comparison finds. -/
theorem compareOne_cases :
    let rows := rowsFrom out.tokenIds offset r.unverified.length
    let k := w.rollbackCount r.unverified rows
    (w.skipMismatch ≤ 0 ∧ k = 0 ∧
        w.compareOne force out offset r = (r, (r.outputIds.length - r.llm42VerifiedTokens, 0))) ∨
      (¬ w.skipMismatch ≤ 0 ∧ ∃ pct, rollbackPoint pct r.unverified rows =
          (r.unverified.length - k, k) ∧
        w.compareOne force out offset r = compareReq pct r.unverified.length r.unverified rows
          (out.logprobs.map fun lps => rowsFrom lps offset r.unverified.length) r) := by
  intro rows k
  have hle := firstMismatchPosition_le r.unverified rows
  simp only [compareOne, hfull]
  by_cases h1 : 100 ≤ w.skipMismatch
  · refine .inr ⟨fun h => by linarith, none, ?_, if_pos h1⟩
    simp only [k, rollbackCount, if_pos h1, rollbackPoint, Prod.mk.injEq, and_true]
    omega
  rw [if_neg h1]
  by_cases h2 : w.skipMismatch ≤ 0
  · exact .inl ⟨h2, by simp [k, rollbackCount, h1, h2], if_pos h2⟩
  · refine .inr ⟨h2, some w.mismatchPercentage, ?_, if_neg h2⟩
    simp only [k, rollbackCount, if_neg h1, if_neg h2, rollbackPoint,
      if_pos (length_pos_iff.mpr hne)]

/-- The log-probabilities after a pass whose window holds the whole unverified output. -/
theorem verifyReq_logprobRecord : logprobRecord (w.verifyReq force out offset r) =
      logprobRecord (w.passLogprobs (rowsFrom out.tokenIds offset r.unverified.length)
        (out.logprobs.map fun lps => rowsFrom lps offset r.unverified.length) r) := by
  rw [verifyReq, logprobRecord_recordResult]
  rcases w.compareOne_cases out offset hne hfull with ⟨hskip, -, heq⟩ | ⟨hskip, pct, hpoint, heq⟩
  · rw [heq, passLogprobs, if_pos hskip]
  · rw [heq]
    refine w.logprobRecord_compareReq hskip (by simp) (fun l hl => ?_) hpoint
    obtain ⟨lps, _, rfl⟩ := Option.mem_map.mp hl
    simp

/-- What a pass over the whole unverified output does to the tokens. -/
theorem verifyReq_outcome :
    VerifyOutcome r (rowsFrom out.tokenIds offset r.unverified.length)
      (w.rollbackCount r.unverified (rowsFrom out.tokenIds offset r.unverified.length))
      (w.verifyReq force out offset r) (w.netRollback force out offset r) := by
  rw [verifyReq, netRollback, hfull]
  rcases w.compareOne_cases out offset hne hfull with ⟨-, hzero, heq⟩ | ⟨-, pct, hpoint, heq⟩
  · have hlast : r.llm42VerifiedTokens + r.unverified.length = r.outputIds.length := by
      have hpos := length_pos_iff.mpr hne
      rw [Req.length_unverified] at hpos ⊢
      omega
    have houtcome : VerifyOutcome r (rowsFrom out.tokenIds offset r.unverified.length) _ _ _ :=
      .accepted ⟨r.outputTokenLogprobsVal, r.outputTokenLogprobsIdx,
        r.sendOutputTokenLogprobsOffset, r.llm42NumRollbacks⟩ hzero
    rw [heq]
    simpa [recordResult, withStats, hlast] using houtcome
  · rw [heq]
    exact recordResult_compareReq _ (by simp) hne (w.rollbackCount_le _ _) hpoint

end

end LLM42Worker

end LLM42
