import LLM42.Library.Columns
import LLM42.Request.Basic

/-! # Penalizers

The batched penalizers of `sampling/penaltylib` and their orchestrator. A penalizer keeps one row for
each request of its batch, feeds it the output tokens one at a time and never takes one back. -/

namespace LLM42

open Library List

structure BatchedPenalizer (ρ : Type) where
  isRequiredFor : Req → Bool
  prepareRow : Req → ρ
  cumulateRow : Token → ρ → ρ

namespace BatchedPenalizer

variable {ρ : Type} (p : BatchedPenalizer ρ)

/-- The tensors of a penalizer, one row for each request; `none` while it is not prepared. -/
abbrev Tensors (ρ : Type) : Type := Option (List ρ)

def isRequired (reqs : List Req) : Bool := reqs.any p.isRequiredFor

def prepare (reqs : List Req) : Tensors ρ → List ρ
  | some rows => rows
  | none => reqs.map p.prepareRow

def prepareIfRequired (reqs : List Req) : Tensors ρ :=
  if p.isRequired reqs then some (reqs.map p.prepareRow) else none

def cumulateOutputTokens (outputIds : List Token) (tensors : Tensors ρ) : Tensors ρ :=
  tensors.map (zipWith p.cumulateRow outputIds)

/-- The rows of the requests that `keep` selects; a penalizer that none of them needs is torn down. -/
def filter (heap : ReqId → Req) (ids : List ReqId) (keep : ReqId → Bool) (tensors : Tensors ρ) :
    Tensors ρ :=
  if p.isRequired ((ids.filter keep).map heap) then
    tensors.map fun rows => ((ids.zip rows).filter fun x => keep x.1).map (·.2)
  else none

/-- The rows at the positions `keep`, where `reqs` are the requests that stay; `none` when a position
is out of range. -/
def selectRows (reqs : List Req) (keep : List ℕ) (tensors : Tensors ρ) : Option (Tensors ρ) :=
  if p.isRequired reqs then selectIfAny keep tensors else some none

def merge (reqs theirReqs : List Req) (tensors their : Tensors ρ) : Tensors ρ :=
  if tensors.isNone && their.isNone then none
  else some (p.prepare reqs tensors ++ p.prepare theirReqs their)

def rowOf (ids : List ReqId) (tensors : Tensors ρ) (id : ReqId) : Option ρ :=
  tensors.bind fun rows => rows[ids.idxOf id]?

def feed (r : Req) (tokens : List Token) : ρ :=
  tokens.foldl (fun row token => p.cumulateRow token row) (p.prepareRow r)

theorem feed_concat (r : Req) (tokens : List Token) (token : Token) :
    p.feed r (tokens ++ [token]) = p.cumulateRow token (p.feed r tokens) := by
  simp [feed]

theorem feed_of_idle {r : Req} (h : ∀ token, p.cumulateRow token (p.prepareRow r) = p.prepareRow r)
    (tokens : List Token) : p.feed r tokens = p.prepareRow r := by
  induction tokens using reverseRecOn with
  | nil => rfl
  | append_singleton tokens token ih => rw [feed_concat, ih, h]

/-- A penalizer reads of a request only what never changes. -/
def Stable : Prop := ∀ r r' : Req, r'.fixed = r.fixed →
  p.isRequiredFor r' = p.isRequiredFor r ∧ p.prepareRow r' = p.prepareRow r

variable {p}

theorem Stable.isRequiredFor_eq (h : p.Stable) {r r' : Req} (hr : r'.fixed = r.fixed) :
    p.isRequiredFor r' = p.isRequiredFor r :=
  (h r r' hr).1

/-- The row was fed tokens one at a time; where the request needs the penalizer, those expected. -/
def RowFor (p : BatchedPenalizer ρ) (r : Req) (expected : List Token) (row : ρ) : Prop :=
  ∃ fed, row = p.feed r fed ∧ (p.isRequiredFor r → fed = expected)

/-- The tensors hold a row for each request, or none needs one. -/
def Tracks (p : BatchedPenalizer ρ) (heap : ReqId → Req) (expected : ReqId → List Token)
    (ids : List ReqId) : Tensors ρ → Prop
  | none => ∀ id ∈ ids, ¬ p.isRequiredFor (heap id)
  | some rows => Forall₂ (fun id row => p.RowFor (heap id) (expected id) row) ids rows

section Tracks

variable {heap heap' : ReqId → Req} {expected expected' : ReqId → List Token} {ids : List ReqId}
  {tensors their : Tensors ρ}

theorem tracks_none (h : ¬ p.isRequired (ids.map heap) = true) :
    p.Tracks heap expected ids none :=
  fun _ hid hreq => h (any_eq_true.mpr ⟨_, mem_map_of_mem hid, hreq⟩)

theorem tracks_prepareIfRequired (h : ∀ id ∈ ids, p.isRequiredFor (heap id) → expected id = []) :
    p.Tracks heap expected ids (p.prepareIfRequired (ids.map heap)) := by
  unfold prepareIfRequired
  split
  · exact forall₂_map_map fun id hid => ⟨[], rfl, fun hreq => (h id hid hreq).symm⟩
  next hnot => exact tracks_none hnot

section

variable (h : p.Tracks heap expected ids tensors)

include h

/-- Each row counts the token of its own request. -/
theorem Tracks.cumulate {tokens : List Token}
    (htokens : Forall₂ (fun id token => p.isRequiredFor (heap id) →
      expected' id = expected id ++ [token]) ids tokens) :
    p.Tracks heap expected' ids (p.cumulateOutputTokens tokens tensors) := by
  cases tensors with
  | none => exact h
  | some rows =>
    induction htokens generalizing rows with
    | nil =>
      cases h
      exact .nil
    | cons htoken _ ih =>
      cases h with
      | cons hrow hrest =>
        obtain ⟨fed, rfl, hfed⟩ := hrow
        refine .cons ⟨fed ++ [_], (p.feed_concat _ _ _).symm, fun hreq => ?_⟩ (ih _ hrest)
        rw [hfed hreq, htoken hreq]

theorem Tracks.filter (keep : ReqId → Bool) :
    p.Tracks heap expected (ids.filter keep) (p.filter heap ids keep tensors) := by
  unfold BatchedPenalizer.filter
  split
  next hreq =>
    clear hreq
    cases tensors with
    | none => exact fun id hid => h id (mem_of_mem_filter hid)
    | some rows =>
      have hrows : Forall₂ (fun id row => p.RowFor (heap id) (expected id) row) ids rows := h
      clear h
      change Forall₂ _ _ _
      induction hrows with
      | nil => exact .nil
      | @cons id row _ _ hrow _ ih =>
        simp only [zip_cons_cons, filter_cons]
        split
        · exact .cons hrow ih
        · exact ih
  next hnot => exact tracks_none hnot

theorem Tracks.selectRows {keep : List ℕ} {ids' : List ReqId} (hsel : select keep ids = some ids') :
    ∃ tensors', p.selectRows (ids'.map heap) keep tensors = some tensors' ∧
      p.Tracks heap expected ids' tensors' := by
  unfold BatchedPenalizer.selectRows
  split
  · cases tensors with
    | none => exact ⟨none, rfl, fun id hid => h id (select_subset hsel hid)⟩
    | some rows =>
      obtain ⟨rows', hrows, hrel⟩ := forall₂_select h hsel
      exact ⟨some rows', by rw [selectIfAny, hrows]; rfl, hrel⟩
  next hnot => exact ⟨none, rfl, tracks_none hnot⟩

theorem Tracks.of_none {ids' : List ReqId} (hnone : tensors = none) (hsub : ids' ⊆ ids) :
    p.Tracks heap expected' ids' tensors := by
  subst hnone
  exact fun id hid => h id (hsub hid)

end

@[simp] theorem merge_none (reqs theirReqs : List Req) : p.merge reqs theirReqs none none = none :=
  rfl

theorem Tracks.prepare (h : p.Tracks heap expected ids tensors) :
    Forall₂ (fun id row => p.RowFor (heap id) (expected id) row) ids
      (p.prepare (ids.map heap) tensors) := by
  cases tensors with
  | none => exact forall₂_map_map fun id hid => ⟨[], rfl, fun hreq => absurd hreq (h id hid)⟩
  | some rows => exact h

theorem Tracks.merge {theirIds : List ReqId} (h : p.Tracks heap expected ids tensors)
    (htheir : p.Tracks heap expected theirIds their) :
    p.Tracks heap expected (ids ++ theirIds)
      (p.merge (ids.map heap) (theirIds.map heap) tensors their) := by
  unfold BatchedPenalizer.merge
  split
  next hnone =>
    simp only [Bool.and_eq_true, Option.isNone_iff_eq_none] at hnone
    obtain ⟨rfl, rfl⟩ := hnone
    exact forall_mem_append.mpr ⟨h, htheir⟩
  · exact rel_append h.prepare htheir.prepare

theorem Tracks.congr (hp : p.Stable) (h : p.Tracks heap expected ids tensors)
    (hfixed : ∀ id ∈ ids, (heap' id).fixed = (heap id).fixed)
    (hexp : ∀ id ∈ ids, p.isRequiredFor (heap id) → expected' id = expected id) :
    p.Tracks heap' expected' ids tensors := by
  cases tensors with
  | none =>
    intro id hid hreq
    rw [hp.isRequiredFor_eq (hfixed id hid)] at hreq
    exact h id hid hreq
  | some rows =>
    refine forall₂_imp_mem h fun id hid row hrow => ?_
    obtain ⟨fed, rfl, hfed⟩ := hrow
    refine ⟨fed, by rw [feed, feed, (hp _ _ (hfixed _ hid)).2], fun hreq => ?_⟩
    rw [hp.isRequiredFor_eq (hfixed _ hid)] at hreq
    rw [hfed hreq, hexp _ hid hreq]

theorem Tracks.rowFor (h : p.Tracks heap expected ids tensors) {id : ReqId} (hid : id ∈ ids) :
    (p.isRequiredFor (heap id) → (rowOf ids tensors id).isSome) ∧
      ∀ row ∈ rowOf ids tensors id, p.RowFor (heap id) (expected id) row := by
  cases tensors with
  | none => exact ⟨fun hreq => absurd hreq (h id hid), fun row hrow => by simp [rowOf] at hrow⟩
  | some rows =>
    obtain ⟨row, hget, hrow⟩ := forall₂_getElem? h (getElem?_idxOf hid)
    have hrowOf : rowOf ids (some rows) id = some row := hget
    rw [hrowOf]
    refine ⟨fun _ => rfl, ?_⟩
    rintro _ ⟨⟩
    exact hrow

end Tracks

end BatchedPenalizer

structure CumulatedPenalty where
  penalty : ℚ
  cumulated : Token → ℚ

def frequencyPenalizer : BatchedPenalizer CumulatedPenalty where
  isRequiredFor r := decide (r.samplingParams.frequencyPenalty ≠ 0)
  prepareRow r := ⟨r.samplingParams.frequencyPenalty, fun _ => 0⟩
  cumulateRow token row :=
    { row with
      cumulated := Function.update row.cumulated token (row.cumulated token + row.penalty) }

def presencePenalizer : BatchedPenalizer CumulatedPenalty where
  isRequiredFor r := decide (r.samplingParams.presencePenalty ≠ 0)
  prepareRow r := ⟨r.samplingParams.presencePenalty, fun _ => 0⟩
  cumulateRow token row :=
    { row with cumulated := Function.update row.cumulated token row.penalty }

structure MinNewTokensRow where
  minNewTokens : ℕ
  stopTokenIds : List Token
  lenOutputTokens : ℕ

/-- `BatchedMinNewTokensPenalizer`: only the number of tokens counts. -/
def minNewTokensPenalizer : BatchedPenalizer MinNewTokensRow where
  isRequiredFor r := decide (0 < r.samplingParams.minNewTokens)
  prepareRow r :=
    { minNewTokens := r.samplingParams.minNewTokens
      stopTokenIds := r.samplingParams.stopTokenIds ++ (r.tokenizer.map fun t =>
        t.additionalStopTokenIds ++ t.eosTokenId.toList).getD []
      lenOutputTokens := 0 }
  cumulateRow _ row := { row with lenOutputTokens := row.lenOutputTokens + 1 }

theorem Req.samplingParams_fixed {r r' : Req} (h : r'.fixed = r.fixed) :
    r'.samplingParams = r.samplingParams := by
  have hp := congrArg (fun x : Req => x.samplingParams) h
  exact hp

theorem frequencyPenalizer_stable : frequencyPenalizer.Stable := by
  intro r r' h
  simp [frequencyPenalizer, Req.samplingParams_fixed h]

theorem presencePenalizer_stable : presencePenalizer.Stable := by
  intro r r' h
  simp [presencePenalizer, Req.samplingParams_fixed h]

theorem minNewTokensPenalizer_stable : minNewTokensPenalizer.Stable := by
  intro r r' h
  have ht := congrArg (fun x : Req => x.tokenizer) h
  simp only [Req.fixed] at ht
  simp [minNewTokensPenalizer, Req.samplingParams_fixed h, ht]

structure PenalizerOrchestrator where
  isRequired : Bool := false
  frequency : Option (List CumulatedPenalty) := none
  minNewTokens : Option (List MinNewTokensRow) := none
  presence : Option (List CumulatedPenalty) := none

namespace PenalizerOrchestrator

def create (reqs : List Req) : PenalizerOrchestrator where
  isRequired := frequencyPenalizer.isRequired reqs || minNewTokensPenalizer.isRequired reqs ||
    presencePenalizer.isRequired reqs
  frequency := frequencyPenalizer.prepareIfRequired reqs
  minNewTokens := minNewTokensPenalizer.prepareIfRequired reqs
  presence := presencePenalizer.prepareIfRequired reqs

def cumulateOutputTokens (outputIds : List Token) (o : PenalizerOrchestrator) :
    PenalizerOrchestrator :=
  { o with
    frequency := frequencyPenalizer.cumulateOutputTokens outputIds o.frequency
    minNewTokens := minNewTokensPenalizer.cumulateOutputTokens outputIds o.minNewTokens
    presence := presencePenalizer.cumulateOutputTokens outputIds o.presence }

def filter (heap : ReqId → Req) (ids : List ReqId) (keep : ReqId → Bool)
    (o : PenalizerOrchestrator) : PenalizerOrchestrator :=
  if !o.isRequired then o
  else
    let reqs := (ids.filter keep).map heap
    { isRequired := frequencyPenalizer.isRequired reqs || minNewTokensPenalizer.isRequired reqs ||
        presencePenalizer.isRequired reqs
      frequency := frequencyPenalizer.filter heap ids keep o.frequency
      minNewTokens := minNewTokensPenalizer.filter heap ids keep o.minNewTokens
      presence := presencePenalizer.filter heap ids keep o.presence }

def selectRows (reqs : List Req) (keep : List ℕ) (o : PenalizerOrchestrator) :
    Option PenalizerOrchestrator :=
  if !o.isRequired then some o
  else do
    let frequency ← frequencyPenalizer.selectRows reqs keep o.frequency
    let minNewTokens ← minNewTokensPenalizer.selectRows reqs keep o.minNewTokens
    let presence ← presencePenalizer.selectRows reqs keep o.presence
    return {
      isRequired := frequencyPenalizer.isRequired reqs || minNewTokensPenalizer.isRequired reqs ||
        presencePenalizer.isRequired reqs
      frequency, minNewTokens, presence }

/-- The part of `filter_batch` that concerns the penalizers. Nothing happens when all requests stay,
nor when none does: the empty batch keeps the old rows. -/
def filterBatch (heap : ReqId → Req) (ids : List ReqId) (keep : ReqId → Bool)
    (o : PenalizerOrchestrator) : PenalizerOrchestrator :=
  let kept := ids.filter keep
  if kept.isEmpty || decide (kept.length = ids.length) then o else o.filter heap ids keep

def merge (reqs theirReqs : List Req) (o their : PenalizerOrchestrator) : PenalizerOrchestrator :=
  if !o.isRequired && !their.isRequired then o
  else
    { isRequired := true
      frequency := frequencyPenalizer.merge reqs theirReqs o.frequency their.frequency
      minNewTokens := minNewTokensPenalizer.merge reqs theirReqs o.minNewTokens their.minNewTokens
      presence := presencePenalizer.merge reqs theirReqs o.presence their.presence }

/-- Every penalizer has its rows; without any the orchestrator says that it is not required. -/
structure Tracks (heap : ReqId → Req) (expected : ReqId → List Token) (ids : List ReqId)
    (o : PenalizerOrchestrator) : Prop where
  frequency : frequencyPenalizer.Tracks heap expected ids o.frequency
  minNewTokens : minNewTokensPenalizer.Tracks heap expected ids o.minNewTokens
  presence : presencePenalizer.Tracks heap expected ids o.presence
  unused : o.isRequired = false → o.frequency = none ∧ o.minNewTokens = none ∧ o.presence = none

def isRequiredFor (r : Req) : Bool :=
  frequencyPenalizer.isRequiredFor r || minNewTokensPenalizer.isRequiredFor r ||
    presencePenalizer.isRequiredFor r

theorem isRequiredFor_of {r : Req} (h : frequencyPenalizer.isRequiredFor r ∨
    minNewTokensPenalizer.isRequiredFor r ∨ presencePenalizer.isRequiredFor r) :
    isRequiredFor r := by
  rcases h with h | h | h <;> simp [isRequiredFor, h]

section Tracks

variable {heap heap' : ReqId → Req} {expected expected' : ReqId → List Token} {ids : List ReqId}
  {o their : PenalizerOrchestrator}

theorem tracks_create (h : ∀ id ∈ ids, isRequiredFor (heap id) → expected id = []) :
    (create (ids.map heap)).Tracks heap expected ids := by
  refine ⟨BatchedPenalizer.tracks_prepareIfRequired fun id hid hr => ?_,
    BatchedPenalizer.tracks_prepareIfRequired fun id hid hr => ?_,
    BatchedPenalizer.tracks_prepareIfRequired fun id hid hr => ?_, fun hnot => ?_⟩
  · exact h id hid (isRequiredFor_of (.inl hr))
  · exact h id hid (isRequiredFor_of (.inr (.inl hr)))
  · exact h id hid (isRequiredFor_of (.inr (.inr hr)))
  · simp only [create, Bool.or_eq_false_iff] at hnot
    simp [create, BatchedPenalizer.prepareIfRequired, hnot]

section

variable (h : o.Tracks heap expected ids)

include h

theorem Tracks.cumulate {tokens : List Token}
    (htokens : Forall₂ (fun id token => isRequiredFor (heap id) →
      expected' id = expected id ++ [token]) ids tokens) :
    (o.cumulateOutputTokens tokens).Tracks heap expected' ids := by
  refine ⟨h.frequency.cumulate ?_, h.minNewTokens.cumulate ?_, h.presence.cumulate ?_,
    fun hnot => ?_⟩
  · exact htokens.imp fun _ _ ht hr => ht (isRequiredFor_of (.inl hr))
  · exact htokens.imp fun _ _ ht hr => ht (isRequiredFor_of (.inr (.inl hr)))
  · exact htokens.imp fun _ _ ht hr => ht (isRequiredFor_of (.inr (.inr hr)))
  · obtain ⟨hf, hm, hp⟩ := h.unused hnot
    simp [cumulateOutputTokens, BatchedPenalizer.cumulateOutputTokens, hf, hm, hp]

theorem Tracks.of_unused {ids' : List ReqId} (hnot : o.isRequired = false) (hsub : ids' ⊆ ids) :
    o.Tracks heap expected' ids' := by
  obtain ⟨hf, hm, hp⟩ := h.unused hnot
  exact ⟨h.frequency.of_none hf hsub, h.minNewTokens.of_none hm hsub, h.presence.of_none hp hsub,
    h.unused⟩

theorem Tracks.filter (keep : ReqId → Bool) :
    (o.filter heap ids keep).Tracks heap expected (ids.filter keep) := by
  unfold PenalizerOrchestrator.filter
  split
  next hnot => exact h.of_unused (by simpa using hnot) filter_sublist.subset
  · refine ⟨h.frequency.filter keep, h.minNewTokens.filter keep, h.presence.filter keep,
      fun hnot => ?_⟩
    simp only [Bool.or_eq_false_iff] at hnot
    simp [BatchedPenalizer.filter, hnot]

theorem Tracks.selectRows {keep : List ℕ} {ids' : List ReqId} (hsel : select keep ids = some ids') :
    ∃ o', o.selectRows (ids'.map heap) keep = some o' ∧ o'.Tracks heap expected ids' := by
  unfold PenalizerOrchestrator.selectRows
  split
  next hnot => exact ⟨o, rfl, h.of_unused (by simpa using hnot) (select_subset hsel)⟩
  · obtain ⟨f, hf, hfreq⟩ := h.frequency.selectRows hsel
    obtain ⟨m, hm, hmin⟩ := h.minNewTokens.selectRows hsel
    obtain ⟨p, hp, hpres⟩ := h.presence.selectRows hsel
    refine ⟨_, by rw [hf, hm, hp]; rfl, hfreq, hmin, hpres, fun hnot => ?_⟩
    simp only [Bool.or_eq_false_iff] at hnot
    obtain ⟨⟨hnf, hnm⟩, hnp⟩ := hnot
    rw [BatchedPenalizer.selectRows, hnf] at hf
    rw [BatchedPenalizer.selectRows, hnm] at hm
    rw [BatchedPenalizer.selectRows, hnp] at hp
    exact ⟨(Option.some.inj hf).symm, (Option.some.inj hm).symm, (Option.some.inj hp).symm⟩

theorem Tracks.filterBatch {keep : ReqId → Bool} (hne : ids.filter keep ≠ []) :
    (o.filterBatch heap ids keep).Tracks heap expected (ids.filter keep) := by
  unfold PenalizerOrchestrator.filterBatch
  dsimp only
  split
  next hsame =>
    have hlen : (ids.filter keep).length = ids.length := by simpa [hne] using hsame
    rwa [filter_eq_self.mpr (length_filter_eq_length_iff.mp hlen)]
  · exact h.filter keep

theorem Tracks.merge {theirIds : List ReqId} (htheir : their.Tracks heap expected theirIds) :
    (o.merge (ids.map heap) (theirIds.map heap) their).Tracks heap expected (ids ++ theirIds) := by
  unfold PenalizerOrchestrator.merge
  split
  next hnot =>
    simp only [Bool.and_eq_true, Bool.not_eq_true'] at hnot
    obtain ⟨hf, hm, hp⟩ := h.unused hnot.1
    obtain ⟨hf', hm', hp'⟩ := htheir.unused hnot.2
    have hfreq := h.frequency.merge htheir.frequency
    have hmin := h.minNewTokens.merge htheir.minNewTokens
    have hpres := h.presence.merge htheir.presence
    rw [hf, hf', BatchedPenalizer.merge_none, ← hf] at hfreq
    rw [hm, hm', BatchedPenalizer.merge_none, ← hm] at hmin
    rw [hp, hp', BatchedPenalizer.merge_none, ← hp] at hpres
    exact ⟨hfreq, hmin, hpres, h.unused⟩
  · exact ⟨h.frequency.merge htheir.frequency, h.minNewTokens.merge htheir.minNewTokens,
      h.presence.merge htheir.presence, fun hnot => by simp at hnot⟩

theorem Tracks.congr (hfixed : ∀ id ∈ ids, (heap' id).fixed = (heap id).fixed)
    (hexp : ∀ id ∈ ids, isRequiredFor (heap id) → expected' id = expected id) :
    o.Tracks heap' expected' ids :=
  ⟨h.frequency.congr frequencyPenalizer_stable hfixed fun id hid hr =>
      hexp id hid (isRequiredFor_of (.inl hr)),
    h.minNewTokens.congr minNewTokensPenalizer_stable hfixed fun id hid hr =>
      hexp id hid (isRequiredFor_of (.inr (.inl hr))),
    h.presence.congr presencePenalizer_stable hfixed fun id hid hr =>
      hexp id hid (isRequiredFor_of (.inr (.inr hr))),
    h.unused⟩

end

end Tracks

end PenalizerOrchestrator

end LLM42
