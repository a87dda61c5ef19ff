import Mathlib.Data.List.Dedup
import LLM42.Sampling.Penalizers

/-! # Sampling parameters of a batch

`SamplingBatchInfo` keeps the sampling parameters of a batch in one tensor for each parameter, with
a row for every request. A batch is filtered by position and merged by putting the rows of another
batch behind its own; a tensor that no request needs is missing, and is filled with its default when
the other batch has it. -/

namespace LLM42

open Library List

structure MultimodalInputs where
  mmItems : List ℕ
  numImageTokens : Option ℕ
deriving DecidableEq

abbrev CustomParams := List (String × ℤ)

/-- What a request brings besides the fields of `Req`. A custom logit processor is known by the hash
of its text. -/
structure BatchReq extends Req where
  multimodalInputs : Option MultimodalInputs := none
  customLogitProcessor : Option ℕ := none
  customParams : Option CustomParams := none
  isPrefillOnly : Bool := false

structure BatchConfig where
  enableOverlap : Bool := false
  isMixedChunk : Bool := false
  isEncoderDecoder : Bool := false
  /-- `enable_deterministic_inference`, or LLM-42 switched on. -/
  enableDeterministic : Bool := false
  enableCustomLogitProcessor : Bool := false

/-! ## Custom logit processors -/

/-- The three fields for custom logit processors; a processor comes with the mask of the rows it
applies to. -/
structure CustomProcessors where
  hasCustomLogitProcessor : Bool := false
  customLogitProcessor : Option (List (ℕ × List Bool)) := none
  customParams : Option (List (Option CustomParams)) := none

namespace CustomProcessors

def fromReqs (cfg : BatchConfig) (reqs : List BatchReq) : CustomProcessors :=
  if cfg.enableCustomLogitProcessor && reqs.any (·.customLogitProcessor.isSome) then
    { hasCustomLogitProcessor := true
      customLogitProcessor := some <| (reqs.filterMap (·.customLogitProcessor)).dedup.map fun k =>
        (k, reqs.map fun r => decide (r.customLogitProcessor = some k))
      customParams := some (reqs.map (·.customParams)) }
  else {}

def selectMasks (keep : List ℕ) : List (ℕ × List Bool) → Option (List (ℕ × List Bool))
  | [] => some []
  | (k, mask) :: rest => do
    let mask ← select keep mask
    let rest ← selectMasks keep rest
    return (k, mask) :: rest

/-- `_filter_batch_custom_logit_processor`: a processor that applies to no row is dropped. -/
def filter (keep : List ℕ) (c : CustomProcessors) : Option CustomProcessors :=
  if !c.hasCustomLogitProcessor then some c
  else do
    let processors ← selectMasks keep (← c.customLogitProcessor)
    let processors := processors.filter fun x => x.2.any id
    let params ← select keep (← c.customParams)
    if processors.isEmpty then return {}
    else return { c with
      customLogitProcessor := some processors
      customParams := some params }

def maskOf (processors : List (ℕ × List Bool)) (size k : ℕ) : List Bool :=
  (processors.lookup k).getD (replicate size false)

/-- `merge_custom_logit_processor`; `none` is its failed assertion. -/
def mergeProcessors (lhs rhs : List (ℕ × List Bool)) (bs₁ bs₂ : ℕ) :
    Option (List (ℕ × List Bool)) :=
  let merged := ((lhs.map Prod.fst ++ rhs.map Prod.fst).dedup).map fun k =>
    (k, maskOf lhs bs₁ k ++ maskOf rhs bs₂ k)
  if merged.all fun x => x.2.length = bs₁ + bs₂ then some merged else none

def paramsOf (size : ℕ) : Option (List (Option CustomParams)) → List (Option CustomParams)
  | none | some [] => replicate size none
  | some params => params

def merge (c other : CustomProcessors) (bs₁ bs₂ : ℕ) : Option CustomProcessors :=
  if c.hasCustomLogitProcessor || other.hasCustomLogitProcessor then do
    let processors ← mergeProcessors (c.customLogitProcessor.getD [])
      (other.customLogitProcessor.getD []) bs₁ bs₂
    return {
      hasCustomLogitProcessor := true
      customLogitProcessor := some processors
      customParams := some (paramsOf bs₁ c.customParams ++ paramsOf bs₂ other.customParams) }
  else some c

variable (cfg : BatchConfig) (requests : ReqId → BatchReq)

/-- A row of parameters: the request's own, or none where the request has no processor. -/
def OwnParams (id : ReqId) (params : Option CustomParams) : Prop :=
  params = (requests id).customParams ∨
    params = none ∧ (requests id).customLogitProcessor = none

def OwnMask (k : ℕ) (id : ReqId) (b : Bool) : Prop :=
  b = decide ((requests id).customLogitProcessor = some k)

/-- The masks have a row for each request, and no processor in use is missing. -/
structure MasksAligned (ids : List ReqId) (processors : List (ℕ × List Bool)) : Prop where
  rows : ∀ x ∈ processors, Forall₂ (OwnMask requests x.1) ids x.2
  complete : ∀ id ∈ ids, ∀ k ∈ (requests id).customLogitProcessor, ∃ mask, (k, mask) ∈ processors

/-- Masks and parameters have a row for each request, or no request needs them. -/
def Aligned (ids : List ReqId) (c : CustomProcessors) : Prop :=
  if c.hasCustomLogitProcessor then
    cfg.enableCustomLogitProcessor ∧ ∃ processors params,
      c.customLogitProcessor = some processors ∧ c.customParams = some params ∧
      Forall₂ (OwnParams requests) ids params ∧ MasksAligned requests ids processors
  else c.customLogitProcessor = none ∧ c.customParams = none ∧
    (cfg.enableCustomLogitProcessor → ∀ id ∈ ids, (requests id).customLogitProcessor = none)

variable {cfg requests} {ids ids' : List ReqId} {c c' other : CustomProcessors}
  {processors : List (ℕ × List Bool)}

theorem aligned_fromReqs (ids : List ReqId) :
    (fromReqs cfg (ids.map requests)).Aligned cfg requests ids := by
  unfold fromReqs
  split
  next hany =>
    rw [Bool.and_eq_true] at hany
    refine ⟨hany.1, _, _, rfl, rfl, ?_, ?_, ?_⟩
    · exact forall₂_map_map fun _ _ => .inl rfl
    · intro x hx
      obtain ⟨k, -, rfl⟩ := mem_map.mp hx
      exact forall₂_map_map fun _ _ => rfl
    · intro id hid k hk
      refine ⟨_, mem_map.mpr ⟨k, ?_, rfl⟩⟩
      rw [mem_dedup, mem_filterMap]
      exact ⟨requests id, mem_map_of_mem hid, hk⟩
  next hnone =>
  refine ⟨rfl, rfl, fun hen id hid => ?_⟩
  simp only [hen, Bool.true_and, any_map, any_eq_true, not_exists, not_and,
    Function.comp_apply] at hnone
  exact Option.not_isSome_iff_eq_none.mp (hnone id hid)

theorem MasksAligned.selectMasks {keep : List ℕ} (h : MasksAligned requests ids processors)
    (hsel : select keep ids = some ids') :
    ∃ out, selectMasks keep processors = some out ∧
      (∀ x ∈ out, Forall₂ (OwnMask requests x.1) ids' x.2) ∧
      out.map Prod.fst = processors.map Prod.fst := by
  have hrows := h.rows
  clear h
  induction processors with
  | nil => exact ⟨[], rfl, by simp, rfl⟩
  | cons x processors ih =>
    obtain ⟨k, mask⟩ := x
    obtain ⟨out, hout, hrel, hkeys⟩ := ih fun y hy => hrows y (mem_cons_of_mem _ hy)
    obtain ⟨mask', hmask', hrel'⟩ := forall₂_select (hrows (k, mask) mem_cons_self) hsel
    refine ⟨(k, mask') :: out, by simp [CustomProcessors.selectMasks, hmask', hout], ?_,
      by simp [hkeys]⟩
    intro y hy
    rcases mem_cons.mp hy with rfl | hy
    · exact hrel'
    · exact hrel y hy

theorem any_of_ownMask {k : ℕ} {mask : List Bool} {i : ReqId}
    (h : Forall₂ (OwnMask requests k) ids mask) (hi : i ∈ ids)
    (hk : k ∈ (requests i).customLogitProcessor) : mask.any id = true := by
  obtain ⟨n, hn, hget⟩ := getElem_of_mem hi
  obtain ⟨b, hb, hown⟩ := forall₂_getElem? h (List.getElem?_eq_some_iff.mpr ⟨hn, hget⟩)
  rw [any_eq_true]
  refine ⟨b, mem_of_getElem? hb, ?_⟩
  rw [hown]
  exact decide_eq_true hk

section

variable (h : c.Aligned cfg requests ids)

include h

theorem Aligned.filter {keep : List ℕ} (hsel : select keep ids = some ids') :
    ∃ c', c.filter keep = some c' ∧ c'.Aligned cfg requests ids' := by
  have hsub := select_subset hsel
  unfold CustomProcessors.filter
  unfold Aligned at h
  split at h
  next hhas =>
    obtain ⟨hen, processors, params, hp, hps, hparams, hmasks⟩ := h
    obtain ⟨out, hout, hrows, hkeys⟩ := hmasks.selectMasks hsel
    obtain ⟨params', hparams', hown⟩ := forall₂_select hparams hsel
    -- A processor that a remaining request uses survives, since its mask applies to that row.
    have hcomplete : ∀ i ∈ ids', ∀ k ∈ (requests i).customLogitProcessor,
        ∃ mask, (k, mask) ∈ out.filter fun x => x.2.any id := by
      intro i hi k hk
      obtain ⟨mask, hmask⟩ := hmasks.complete i (hsub hi) k hk
      have hkey : k ∈ out.map Prod.fst := hkeys ▸ mem_map_of_mem hmask
      obtain ⟨⟨_, mask'⟩, hmem, rfl⟩ := mem_map.mp hkey
      exact ⟨mask', mem_filter.mpr ⟨hmem, any_of_ownMask (hrows _ hmem) hi hk⟩⟩
    simp only [hhas, Bool.not_true, Bool.false_eq_true, if_false, hp, hps, hout, hparams',
      Option.bind_eq_bind, Option.bind_some]
    split
    next hempty =>
      refine ⟨_, rfl, rfl, rfl, fun _ i hi => ?_⟩
      rw [Option.eq_none_iff_forall_not_mem]
      intro k hk
      obtain ⟨mask, hmask⟩ := hcomplete i hi k hk
      rw [isEmpty_iff.mp hempty] at hmask
      cases hmask
    · refine ⟨_, rfl, ?_⟩
      exact ⟨hen, _, _, rfl, rfl, hown, fun x hx => hrows x (mem_of_mem_filter hx), hcomplete⟩
  next hhas =>
  refine ⟨c, by simp [hhas], ?_⟩
  simp only [Aligned, hhas, Bool.false_eq_true, if_false]
  exact ⟨h.1, h.2.1, fun hen i hi => h.2.2 hen i (hsub hi)⟩

theorem Aligned.masks (hen : cfg.enableCustomLogitProcessor) :
    MasksAligned requests ids (c.customLogitProcessor.getD []) := by
  unfold Aligned at h
  split at h
  · obtain ⟨-, processors, params, hp, -, -, hmasks⟩ := h
    rw [hp]
    exact hmasks
  · rw [h.1]
    exact ⟨by simp, fun i hi k hk => by simp [h.2.2 hen i hi] at hk⟩

theorem Aligned.paramsOf (hen : cfg.enableCustomLogitProcessor) :
    Forall₂ (OwnParams requests) ids
      (paramsOf ids.length c.customParams) := by
  unfold Aligned at h
  split at h
  · obtain ⟨-, processors, params, -, hps, hparams, -⟩ := h
    rw [hps]
    cases hparams with
    | nil => exact .nil
    | cons hrow hrest => exact .cons hrow hrest
  · rw [h.2.1]
    exact forall₂_replicate fun i hi => .inr ⟨rfl, h.2.2 hen i hi⟩

end

theorem MasksAligned.maskOf (h : MasksAligned requests ids processors) (k : ℕ) :
    Forall₂ (OwnMask requests k) ids (CustomProcessors.maskOf processors ids.length k) := by
  unfold CustomProcessors.maskOf
  cases hlook : processors.lookup k with
  | some mask =>
    have hmem : (k, mask) ∈ processors := by
      obtain ⟨l₁, l₂, rfl, -⟩ := lookup_eq_some_iff.mp hlook
      simp
    exact h.rows _ hmem
  | none =>
    refine forall₂_replicate fun i hi => ?_
    refine (decide_eq_false fun hk => ?_).symm
    obtain ⟨mask, hmask⟩ := h.complete i hi k hk
    rw [lookup_eq_none_iff] at hlook
    simpa using hlook _ hmask

theorem MasksAligned.mergeProcessors {lhs rhs : List (ℕ × List Bool)}
    (hl : MasksAligned requests ids lhs) (hr : MasksAligned requests ids' rhs) :
    ∃ out, CustomProcessors.mergeProcessors lhs rhs ids.length ids'.length = some out ∧
      MasksAligned requests (ids ++ ids') out := by
  have hrow : ∀ k, Forall₂ (OwnMask requests k) (ids ++ ids')
      (CustomProcessors.maskOf lhs ids.length k ++ CustomProcessors.maskOf rhs ids'.length k) :=
    fun k => rel_append (hl.maskOf k) (hr.maskOf k)
  unfold CustomProcessors.mergeProcessors
  rw [if_pos]
  · refine ⟨_, rfl, fun x hx => ?_, fun i hi k hk => ?_⟩
    · obtain ⟨k, -, rfl⟩ := mem_map.mp hx
      exact hrow k
    · refine ⟨_, mem_map.mpr ⟨k, ?_, rfl⟩⟩
      rw [mem_dedup, mem_append]
      rcases mem_append.mp hi with hi | hi
      · obtain ⟨mask, hmask⟩ := hl.complete i hi k hk
        exact .inl (mem_map_of_mem hmask)
      · obtain ⟨mask, hmask⟩ := hr.complete i hi k hk
        exact .inr (mem_map_of_mem hmask)
  · rw [all_eq_true]
    intro x hx
    obtain ⟨k, -, rfl⟩ := mem_map.mp hx
    simpa [eq_comm] using (hrow k).length_eq

theorem Aligned.merge (h : c.Aligned cfg requests ids) (hother : other.Aligned cfg requests ids') :
    ∃ c', c.merge other ids.length ids'.length = some c' ∧
      c'.Aligned cfg requests (ids ++ ids') := by
  unfold CustomProcessors.merge
  split
  next hany =>
    have hen : cfg.enableCustomLogitProcessor = true := by
      rcases Bool.or_eq_true_iff.mp hany with hhas | hhas
      · simp only [Aligned, hhas, if_true] at h
        exact h.1
      · simp only [Aligned, hhas, if_true] at hother
        exact hother.1
    obtain ⟨out, hout, hmasks⟩ := (h.masks hen).mergeProcessors (hother.masks hen)
    refine ⟨_, by rw [hout]; rfl, ?_⟩
    exact ⟨hen, _, _, rfl, rfl, rel_append (h.paramsOf hen) (hother.paramsOf hen), hmasks⟩
  next hnone =>
  simp only [Bool.or_eq_true, not_or, Bool.not_eq_true] at hnone
  refine ⟨c, rfl, ?_⟩
  simp only [Aligned, hnone.1, hnone.2, Bool.false_eq_true, if_false] at h hother ⊢
  exact ⟨h.1, h.2.1, fun hen => forall_mem_append.mpr ⟨h.2.2 hen, hother.2.2 hen⟩⟩

end CustomProcessors

/-! ## Tensors with a row for each request -/

/-- A row of `logit_bias`: one number for each token of the vocabulary. -/
abbrev BiasRow := ℕ → ℚ

/-- `logit_bias[i, int(key)] = value` for every entry, over zeros. -/
def biasRow (entries : List (ℕ × ℚ)) : BiasRow :=
  entries.foldl (fun row x => Function.update row x.1 x.2) fun _ => 0

structure SamplingBatchInfo where
  temperatures : List ℚ
  topPs : List ℚ
  topKs : List ℤ
  minPs : List ℚ
  isAnyDeterministic : Bool
  deterministicIndices : List Bool
  isAllGreedy : Bool
  needTopPSampling : Bool
  needTopKSampling : Bool
  needMinPSampling : Bool
  penalizerOrchestrator : PenalizerOrchestrator
  customProcessors : CustomProcessors
  samplingSeed : Option (List ℤ)
  logitBias : Option (List BiasRow)

def mergeBiasTensor (lhs rhs : Option (List BiasRow)) (bs₁ bs₂ : ℕ) : Option (List BiasRow) :=
  match lhs, rhs with
  | none, none => none
  | some lhs, some rhs => some (lhs ++ rhs)
  | some lhs, none => some (lhs ++ replicate bs₂ (fun _ => 0 : BiasRow))
  | none, some rhs => some (replicate bs₁ (fun _ => 0 : BiasRow) ++ rhs)

/-- Tensors that only one of two batches has stay as they are. -/
def mergeTensor {α : Type} (lhs rhs : Option (List α)) : Option (List α) :=
  match lhs, rhs with
  | some lhs, some rhs => some (lhs ++ rhs)
  | lhs, _ => lhs

namespace SamplingBatchInfo

def seedOf (r : BatchReq) : ℤ := r.samplingParams.samplingSeed.getD 42

def fromScheduleBatch (cfg : BatchConfig) (reqs : List BatchReq) : SamplingBatchInfo where
  temperatures := reqs.map (·.samplingParams.temperature)
  topPs := reqs.map (·.samplingParams.topP)
  topKs := reqs.map (·.samplingParams.topK)
  minPs := reqs.map (·.samplingParams.minP)
  isAnyDeterministic := reqs.any (·.samplingParams.isDeterministic)
  deterministicIndices := reqs.map (·.samplingParams.isDeterministic)
  isAllGreedy := reqs.all (decide <| ·.samplingParams.topK ≤ 1)
  needTopPSampling := reqs.any (decide <| ·.samplingParams.topP ≠ 1)
  needTopKSampling := reqs.any (decide <| ·.samplingParams.topK ≠ topKAll)
  needMinPSampling := reqs.any (decide <| 0 < ·.samplingParams.minP)
  penalizerOrchestrator := .create (reqs.map (·.toReq))
  customProcessors := .fromReqs cfg reqs
  samplingSeed := if cfg.enableDeterministic then some (reqs.map seedOf) else none
  logitBias :=
    if reqs.any (!·.samplingParams.logitBias.isEmpty) then
      some (reqs.map fun r => biasRow r.samplingParams.logitBias)
    else none

def len (info : SamplingBatchInfo) : ℕ := info.temperatures.length

def filterBatch (reqs : List BatchReq) (keep : List ℕ) (info : SamplingBatchInfo) :
    Option SamplingBatchInfo := do
  let penalizerOrchestrator ← info.penalizerOrchestrator.selectRows (reqs.map (·.toReq)) keep
  let customProcessors ← info.customProcessors.filter keep
  let temperatures ← select keep info.temperatures
  let topPs ← select keep info.topPs
  let topKs ← select keep info.topKs
  let minPs ← select keep info.minPs
  let samplingSeed ← selectIfAny keep info.samplingSeed
  let deterministicIndices ← select keep info.deterministicIndices
  let logitBias ← selectIfAny keep info.logitBias
  return { info with
    penalizerOrchestrator, customProcessors, temperatures, topPs, topKs, minPs, samplingSeed,
    deterministicIndices, logitBias
    isAnyDeterministic := deterministicIndices.any id }

/-- `merge_batch`. The penalizers that one side lacks are prepared from the requests of the two
batches before the merge; the other defaults have one row for each temperature. -/
def mergeBatch (reqs theirReqs : List BatchReq) (info other : SamplingBatchInfo) :
    Option SamplingBatchInfo := do
  let customProcessors ← info.customProcessors.merge other.customProcessors info.len other.len
  return {
    penalizerOrchestrator := info.penalizerOrchestrator.merge (reqs.map (·.toReq))
      (theirReqs.map (·.toReq)) other.penalizerOrchestrator
    customProcessors
    logitBias := mergeBiasTensor info.logitBias other.logitBias info.len other.len
    temperatures := info.temperatures ++ other.temperatures
    topPs := info.topPs ++ other.topPs
    topKs := info.topKs ++ other.topKs
    minPs := info.minPs ++ other.minPs
    samplingSeed := mergeTensor info.samplingSeed other.samplingSeed
    deterministicIndices := info.deterministicIndices ++ other.deterministicIndices
    isAnyDeterministic := info.isAnyDeterministic || other.isAnyDeterministic
    isAllGreedy := info.isAllGreedy && other.isAllGreedy
    needTopPSampling := info.needTopPSampling || other.needTopPSampling
    needTopKSampling := info.needTopKSampling || other.needTopKSampling
    needMinPSampling := info.needMinPSampling || other.needMinPSampling }

/-! ## Rows and requests -/

section

variable (cfg : BatchConfig) (requests : ReqId → BatchReq) (fed : ReqId → List Token)

/-- `logit_bias` has the bias of each request, or no request has one. -/
def BiasAligned (ids : List ReqId) : Option (List BiasRow) → Prop
  | none => ∀ id ∈ ids, (requests id).samplingParams.logitBias = []
  | some rows =>
    Forall₂ (fun id row => row = biasRow (requests id).samplingParams.logitBias) ids rows

/-- `sampling_seed` is there in deterministic mode, with the seed of each request. -/
def SeedAligned (ids : List ReqId) : Option (List ℤ) → Prop
  | none => cfg.enableDeterministic = false
  | some rows => cfg.enableDeterministic = true ∧
    Forall₂ (fun id seed => seed = seedOf (requests id)) ids rows

/-- Every tensor has one row for each request, with the request's own parameter; the penalizers were
fed the tokens `fed`. -/
structure Aligned (ids : List ReqId) (info : SamplingBatchInfo) : Prop where
  temperatures : Forall₂ (fun id v => v = (requests id).samplingParams.temperature) ids
    info.temperatures
  topPs : Forall₂ (fun id v => v = (requests id).samplingParams.topP) ids info.topPs
  topKs : Forall₂ (fun id v => v = (requests id).samplingParams.topK) ids info.topKs
  minPs : Forall₂ (fun id v => v = (requests id).samplingParams.minP) ids info.minPs
  deterministicIndices : Forall₂ (fun id v => v = (requests id).samplingParams.isDeterministic)
    ids info.deterministicIndices
  penalizers : info.penalizerOrchestrator.Tracks (fun id => (requests id).toReq) fed ids
  customProcessors : info.customProcessors.Aligned cfg requests ids
  samplingSeed : SeedAligned cfg requests ids info.samplingSeed
  logitBias : BiasAligned requests ids info.logitBias

end

section

variable {cfg : BatchConfig} {requests : ReqId → BatchReq} {fed : ReqId → List Token}
  {ids ids' : List ReqId} {info other : SamplingBatchInfo} {keep : List ℕ}

theorem biasAligned_fromReqs (ids : List ReqId) :
    BiasAligned requests ids (fromScheduleBatch cfg (ids.map requests)).logitBias := by
  simp only [fromScheduleBatch]
  split
  · exact forall₂_map_map fun _ _ => rfl
  next hnone =>
  intro id hid
  simp only [any_map, any_eq_true, not_exists, not_and, Function.comp_apply,
    Bool.not_eq_true, Bool.not_eq_false'] at hnone
  exact isEmpty_iff.mp (hnone id hid)

theorem aligned_fromScheduleBatch {ids : List ReqId} (hfed : ∀ id ∈ ids, fed id = []) :
    (fromScheduleBatch cfg (ids.map requests)).Aligned cfg requests fed ids where
  temperatures := forall₂_map_map fun _ _ => rfl
  topPs := forall₂_map_map fun _ _ => rfl
  topKs := forall₂_map_map fun _ _ => rfl
  minPs := forall₂_map_map fun _ _ => rfl
  deterministicIndices := forall₂_map_map fun _ _ => rfl
  penalizers := by
    simp only [fromScheduleBatch, map_map]
    exact PenalizerOrchestrator.tracks_create fun id hid _ => hfed id hid
  customProcessors := CustomProcessors.aligned_fromReqs ids
  samplingSeed := by
    simp only [fromScheduleBatch]
    split
    next hdet => exact ⟨hdet, forall₂_map_map fun _ _ => rfl⟩
    next hdet => exact Bool.eq_false_iff.mpr hdet
  logitBias := biasAligned_fromReqs ids

theorem BiasAligned.select {col : Option (List BiasRow)} (h : BiasAligned requests ids col)
    (hsel : select keep ids = some ids') :
    ∃ col', selectIfAny keep col = some col' ∧ BiasAligned requests ids' col' := by
  cases col with
  | none => exact ⟨none, rfl, fun id hid => h id (select_subset hsel hid)⟩
  | some rows =>
    obtain ⟨rows', hrows', hrel⟩ := forall₂_select h hsel
    exact ⟨some rows', by rw [selectIfAny, hrows']; rfl, hrel⟩

theorem SeedAligned.select {col : Option (List ℤ)} (h : SeedAligned cfg requests ids col)
    (hsel : select keep ids = some ids') :
    ∃ col', selectIfAny keep col = some col' ∧ SeedAligned cfg requests ids' col' := by
  cases col with
  | none => exact ⟨none, rfl, h⟩
  | some rows =>
    obtain ⟨rows', hrows', hrel⟩ := forall₂_select h.2 hsel
    exact ⟨some rows', by rw [selectIfAny, hrows']; rfl, h.1, hrel⟩

theorem Aligned.filterBatch (h : info.Aligned cfg requests fed ids)
    (hsel : select keep ids = some ids') :
    ∃ info', info.filterBatch (ids'.map requests) keep = some info' ∧
      info'.Aligned cfg requests fed ids' := by
  obtain ⟨o, ho, hpen⟩ := h.penalizers.selectRows hsel
  obtain ⟨c, hc, hcustom⟩ := h.customProcessors.filter hsel
  obtain ⟨temperatures, ht, htemp⟩ := forall₂_select h.temperatures hsel
  obtain ⟨topPs, hp, htopP⟩ := forall₂_select h.topPs hsel
  obtain ⟨topKs, hk, htopK⟩ := forall₂_select h.topKs hsel
  obtain ⟨minPs, hm, hminP⟩ := forall₂_select h.minPs hsel
  obtain ⟨dets, hd, hdet⟩ := forall₂_select h.deterministicIndices hsel
  obtain ⟨seeds, hs, hseed⟩ := h.samplingSeed.select hsel
  obtain ⟨bias, hb, hbias⟩ := h.logitBias.select hsel
  have ho : info.penalizerOrchestrator.selectRows ((ids'.map requests).map (·.toReq)) keep =
      some o := by
    rw [map_map]
    exact ho
  refine ⟨_, by
    rw [SamplingBatchInfo.filterBatch, ho, hc, ht, hp, hk, hm, hs, hd, hb]
    rfl, ?_⟩
  exact ⟨htemp, htopP, htopK, hminP, hdet, hpen, hcustom, hseed, hbias⟩

theorem BiasAligned.merge {lhs rhs : Option (List BiasRow)} (hl : BiasAligned requests ids lhs)
    (hr : BiasAligned requests ids' rhs) :
    BiasAligned requests (ids ++ ids') (mergeBiasTensor lhs rhs ids.length ids'.length) := by
  -- A batch without the tensor holds requests without a bias, whose rows are zero.
  have hzero : ∀ {keys : List ReqId}, BiasAligned requests keys none →
      BiasAligned requests keys (some (replicate keys.length fun _ => 0)) := fun h =>
    forall₂_replicate fun id hid => by rw [h id hid]; rfl
  cases lhs with
  | none =>
    cases rhs with
    | none => exact forall_mem_append.mpr ⟨hl, hr⟩
    | some rhs => exact rel_append (hzero hl) hr
  | some lhs =>
    cases rhs with
    | none => exact rel_append hl (hzero hr)
    | some rhs => exact rel_append hl hr

theorem SeedAligned.merge {lhs rhs : Option (List ℤ)} (hl : SeedAligned cfg requests ids lhs)
    (hr : SeedAligned cfg requests ids' rhs) :
    SeedAligned cfg requests (ids ++ ids') (mergeTensor lhs rhs) := by
  cases lhs with
  | none => exact hl
  | some lhs =>
    cases rhs with
    | none => exact absurd hl.1 (Bool.eq_false_iff.mp hr)
    | some rhs => exact ⟨hl.1, rel_append hl.2 hr.2⟩

/-- Aligned batches merge without failure, row after row. -/
theorem Aligned.mergeBatch (h : info.Aligned cfg requests fed ids)
    (hother : other.Aligned cfg requests fed ids') :
    ∃ info', info.mergeBatch (ids.map requests) (ids'.map requests) other = some info' ∧
      info'.Aligned cfg requests fed (ids ++ ids') := by
  have hlen : info.len = ids.length := h.temperatures.length_eq.symm
  have hlen' : other.len = ids'.length := hother.temperatures.length_eq.symm
  obtain ⟨c, hc, hcustom⟩ := h.customProcessors.merge hother.customProcessors
  refine ⟨_, by rw [SamplingBatchInfo.mergeBatch, hlen, hlen', hc]; rfl, ?_⟩
  exact {
    temperatures := rel_append h.temperatures hother.temperatures
    topPs := rel_append h.topPs hother.topPs
    topKs := rel_append h.topKs hother.topKs
    minPs := rel_append h.minPs hother.minPs
    deterministicIndices := rel_append h.deterministicIndices hother.deterministicIndices
    penalizers := by
      simp only [map_map]
      exact h.penalizers.merge hother.penalizers
    customProcessors := hcustom
    samplingSeed := h.samplingSeed.merge hother.samplingSeed
    logitBias := h.logitBias.merge hother.logitBias }

end

end SamplingBatchInfo

end LLM42
