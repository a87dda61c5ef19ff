import LLM42.Sampling.BatchInfo

/-! # Rows of a batch

`ScheduleBatch` keeps what it knows about its requests column by column: sequence lengths, pool
indices, last outputs, log-probability settings and sampling parameters. The operations here change
every column in statements of its own, as the source does. `none` stands for a Python exception. -/

namespace LLM42

/-- What a prefill pass decided about a request: the tokens to fill and the row of the request
pool. -/
structure ExtendInput where
  fillIds : List Token
  reqPoolIdx : ℕ

def BatchReq.encoderLen (r : BatchReq) : ℕ :=
  (r.multimodalInputs.bind (·.numImageTokens)).getD 0

def BatchReq.extendSeqLen (cfg : BatchConfig) (r : BatchReq) (x : ExtendInput) : ℤ :=
  if cfg.isEncoderDecoder then x.fillIds.length - r.encoderLen else x.fillIds.length

def BatchReq.extendOrigSeqLen (r : BatchReq) (x : ExtendInput) : ℤ :=
  max x.fillIds.length r.originInputIds.length

end LLM42

namespace LLM42.Batch

open Library List

structure BatchColumns where
  reqPoolIndices : List ℕ
  seqLens : List ℤ
  seqLensCpu : List ℤ
  origSeqLens : List ℤ
  outputIds : Option (List Token)
  multimodalInputs : Option (List (Option MultimodalInputs))
  topLogprobsNums : Option (List ℕ)
  tokenIdsLogprobs : Option (List (Option (List Token)))
  encoderLens : Option (List ℕ)
  encoderLensCpu : Option (List ℕ)
  samplingInfo : SamplingBatchInfo

/-- A batch. One made by `ScheduleBatch(reqs=[])` has no columns. -/
structure ScheduleBatch where
  reqs : List ReqId := []
  returnLogprob : Bool := false
  isPrefillOnly : Bool := false
  chunkedReq : Option ReqId := none
  columns : Option BatchColumns := none

namespace BatchColumns

def filterEncoderLens (cfg : BatchConfig) (keep : List ℕ) (col : Option (List ℕ)) :
    Option (Option (List ℕ)) :=
  if cfg.isEncoderDecoder then selectIfAny keep col else some col

/-- A log-probability list is filtered while some request returns log-probabilities, and dropped
otherwise. -/
def filterLogprobs {α : Type} (returnLogprob : Bool) (keep : List ℕ) (col : Option (List α)) :
    Option (Option (List α)) :=
  if returnLogprob then col.bind fun rows => (select keep rows).map some else some none

/-- The columns that stay of a batch whose requests `reqs`, at the positions `keep`, stay. -/
def filter (cfg : BatchConfig) (reqs : List BatchReq) (keep : List ℕ) (c : BatchColumns) :
    Option BatchColumns := do
  let returnLogprob := reqs.any (·.returnLogprob)
  let encoderLens ← filterEncoderLens cfg keep c.encoderLens
  let encoderLensCpu ← filterEncoderLens cfg keep c.encoderLensCpu
  let multimodalInputs ← selectIfAny keep c.multimodalInputs
  let reqPoolIndices ← select keep c.reqPoolIndices
  let seqLens ← select keep c.seqLens
  let seqLensCpu ← select keep c.seqLensCpu
  let origSeqLens ← select keep c.origSeqLens
  let outputIds ← selectIfAny keep c.outputIds
  let topLogprobsNums ← filterLogprobs returnLogprob keep c.topLogprobsNums
  let tokenIdsLogprobs ← filterLogprobs returnLogprob keep c.tokenIdsLogprobs
  let samplingInfo ← c.samplingInfo.filterBatch reqs keep
  return {
    reqPoolIndices, seqLens, seqLensCpu, origSeqLens, outputIds, multimodalInputs, topLogprobsNums,
    tokenIdsLogprobs, encoderLens, encoderLensCpu, samplingInfo }

/-- A column of which the batch that is merged into decides whether it is there. -/
def extend {α : Type} : Option (List α) → Option (List α) → Option (Option (List α))
  | none, _ => some none
  | some rows, some others => some (some (rows ++ others))
  | some _, none => none

def mergeEncoderLens (cfg : BatchConfig) (rows others : Option (List ℕ)) :
    Option (Option (List ℕ)) :=
  if cfg.isEncoderDecoder then extend rows others else some rows

/-- A log-probability list after a merge. The batch that returns no log-probabilities contributes
`default` for each of its requests. -/
def mergeLogprobs {α : Type} (default : α) (own theirs : Bool) (bs₁ bs₂ : ℕ)
    (rows others : Option (List α)) : Option (Option (List α)) :=
  match own, theirs with
  | true, true => do return some ((← rows) ++ (← others))
  | true, false => do return some ((← rows) ++ replicate bs₂ default)
  | false, true => do return some (replicate bs₁ default ++ (← others))
  | false, false => some rows

end BatchColumns

namespace ScheduleBatch

variable (cfg : BatchConfig) (requests : ReqId → BatchReq)

def isEmpty (b : ScheduleBatch) : Bool := b.reqs.isEmpty

def initNew (reqs : List ReqId) (chunkedReq : Option ReqId) : ScheduleBatch where
  reqs
  returnLogprob := reqs.any fun id => (requests id).returnLogprob
  isPrefillOnly := reqs.all fun id => (requests id).isPrefillOnly
  chunkedReq

def prepareForExtend (input : ReqId → ExtendInput) (b : ScheduleBatch) : ScheduleBatch :=
  let reqs := b.reqs.map requests
  { b with
    columns := some {
      reqPoolIndices := b.reqs.map fun id => (input id).reqPoolIdx
      seqLens := b.reqs.map fun id => (requests id).extendSeqLen cfg (input id)
      seqLensCpu := b.reqs.map fun id => (requests id).extendSeqLen cfg (input id)
      origSeqLens := b.reqs.map fun id => (requests id).extendOrigSeqLen (input id)
      outputIds := none
      multimodalInputs := some (reqs.map (·.multimodalInputs))
      topLogprobsNums := if b.returnLogprob then some (reqs.map (·.topLogprobsNum)) else none
      tokenIdsLogprobs := if b.returnLogprob then some (reqs.map (·.tokenIdsLogprob)) else none
      encoderLens := if cfg.isEncoderDecoder then some (reqs.map (·.encoderLen)) else none
      encoderLensCpu := if cfg.isEncoderDecoder then some (reqs.map (·.encoderLen)) else none
      samplingInfo := .fromScheduleBatch cfg reqs } }

/-- `filter_batch` with the positions to keep. An emptied batch only loses its requests. -/
def filterBatch (keep : List ℕ) (b : ScheduleBatch) : Option ScheduleBatch :=
  if keep.isEmpty then some { b with reqs := [] }
  else if keep.length = b.reqs.length then some b
  else do
    let c ← b.columns
    let reqs ← select keep b.reqs
    let c ← c.filter cfg (reqs.map requests) keep
    return { b with
      reqs
      returnLogprob := reqs.any fun id => (requests id).returnLogprob
      columns := some c }

def keepIndices (finished : ReqId → Bool) (chunkedReqToExclude : List ReqId) (b : ScheduleBatch) :
    List ℕ :=
  indicesWhere (fun id => !finished id && !chunkedReqToExclude.contains id) b.reqs

def mergeBatch (b other : ScheduleBatch) : Option ScheduleBatch := do
  let c ← b.columns
  let o ← other.columns
  let samplingInfo ← c.samplingInfo.mergeBatch (b.reqs.map requests) (other.reqs.map requests)
    o.samplingInfo
  let encoderLens ← BatchColumns.mergeEncoderLens cfg c.encoderLens o.encoderLens
  let encoderLensCpu ← BatchColumns.mergeEncoderLens cfg c.encoderLensCpu o.encoderLensCpu
  let outputIds ← BatchColumns.extend c.outputIds o.outputIds
  let topLogprobsNums ← BatchColumns.mergeLogprobs 0 b.returnLogprob other.returnLogprob
    b.reqs.length other.reqs.length c.topLogprobsNums o.topLogprobsNums
  let tokenIdsLogprobs ← BatchColumns.mergeLogprobs none b.returnLogprob other.returnLogprob
    b.reqs.length other.reqs.length c.tokenIdsLogprobs o.tokenIdsLogprobs
  let multimodalInputs ← BatchColumns.extend c.multimodalInputs o.multimodalInputs
  return { b with
    reqs := b.reqs ++ other.reqs
    returnLogprob := b.returnLogprob || other.returnLogprob
    columns := some {
      reqPoolIndices := c.reqPoolIndices ++ o.reqPoolIndices
      seqLens := c.seqLens ++ o.seqLens
      seqLensCpu := c.seqLensCpu ++ o.seqLensCpu
      origSeqLens := c.origSeqLens ++ o.origSeqLens
      outputIds, multimodalInputs, topLogprobsNums, tokenIdsLogprobs, encoderLens, encoderLensCpu,
      samplingInfo } }

/-- `mix_with_running`, as far as it concerns the columns that a decode batch has. -/
def mixWithRunning (b running : ScheduleBatch) : Option ScheduleBatch := do
  let merged ← b.mergeBatch cfg requests running
  return { merged with isPrefillOnly := false }

/-- The token that the overlap mode feeds to the penalizers. -/
def delayedOutputId (outputIds : ReqId → List Token) (id : ReqId) : Token :=
  ((requests id).originInputIds ++ outputIds id).getLastD 0

def decodeTokens (outputIds : ReqId → List Token) (b : ScheduleBatch) (c : BatchColumns) :
    Option (List Token) :=
  if cfg.enableOverlap then some (b.reqs.map (delayedOutputId requests outputIds))
  else c.outputIds

def cumulated (outputIds : ReqId → List Token) (b : ScheduleBatch) (c : BatchColumns) :
    Option PenalizerOrchestrator :=
  let o := c.samplingInfo.penalizerOrchestrator
  if o.isRequired then (b.decodeTokens cfg requests outputIds c).map o.cumulateOutputTokens
  else some o

def prepareForDecode (outputIds : ReqId → List Token) (b : ScheduleBatch) :
    Option ScheduleBatch := do
  let c ← b.columns
  let penalizerOrchestrator ← b.cumulated cfg requests outputIds c
  return { b with
    columns := some { c with
      outputIds := none
      seqLens := c.seqLens.map (· + 1)
      seqLensCpu := c.seqLensCpu.map (· + 1)
      origSeqLens := c.origSeqLens.map (· + 1)
      samplingInfo := { c.samplingInfo with penalizerOrchestrator } } }

def setOutputIds (nextTokenIds : List Token) (b : ScheduleBatch) : ScheduleBatch :=
  { b with columns := b.columns.map fun c => { c with outputIds := some nextTokenIds } }

end ScheduleBatch

/-! ## The rows that a request owns -/

/-- The row of a request, kept by request: what each column should say about it. -/
structure OwnRow where
  reqPoolIdx : ℕ := 0
  seqLen : ℤ := 0
  origSeqLen : ℤ := 0
  outputId : Token := 0
  /-- The tokens fed to the penalizers since the prefill. -/
  fed : List Token := []

namespace OwnRow

def extend (cfg : BatchConfig) (r : BatchReq) (x : ExtendInput) : OwnRow where
  reqPoolIdx := x.reqPoolIdx
  seqLen := r.extendSeqLen cfg x
  origSeqLen := r.extendOrigSeqLen x

def decode (token : Token) (row : OwnRow) : OwnRow :=
  { row with
    seqLen := row.seqLen + 1
    origSeqLen := row.origSeqLen + 1
    fed := row.fed ++ [token] }

end OwnRow

section Aligned

variable (cfg : BatchConfig) (requests : ReqId → BatchReq) (own : ReqId → OwnRow)

/-- A row of a log-probability list: the request's own setting, or the default where the request
wants no log-probabilities. -/
def OwnLogprob {α : Type} (default : α) (setting : BatchReq → α) (id : ReqId) (v : α) : Prop :=
  v = setting (requests id) ∨ v = default ∧ (requests id).returnLogprob = false

def EncoderAligned (ids : List ReqId) : Option (List ℕ) → Prop
  | none => cfg.isEncoderDecoder = false
  | some rows => cfg.isEncoderDecoder = true ∧
    Forall₂ (fun id n => n = (requests id).encoderLen) ids rows

def LogprobsAligned {α : Type} (default : α) (setting : BatchReq → α) (ids : List ReqId)
    (returnLogprob : Bool) : Option (List α) → Prop
  | none => returnLogprob = false
  | some rows => returnLogprob = true ∧
    Forall₂ (OwnLogprob requests default setting) ids rows

/-- Every column has exactly one row for each request, and the row at a position is the one of the
request at that position. -/
structure BatchColumns.Aligned (ids : List ReqId) (returnLogprob : Bool) (c : BatchColumns) :
    Prop where
  reqPoolIndices : Forall₂ (fun id v => v = (own id).reqPoolIdx) ids c.reqPoolIndices
  seqLens : Forall₂ (fun id v => v = (own id).seqLen) ids c.seqLens
  seqLensCpu : Forall₂ (fun id v => v = (own id).seqLen) ids c.seqLensCpu
  origSeqLens : Forall₂ (fun id v => v = (own id).origSeqLen) ids c.origSeqLens
  outputIds : RowsIfAny (fun id v => v = (own id).outputId) ids c.outputIds
  multimodalInputs : c.multimodalInputs.isSome ∧
    RowsIfAny (fun id v => v = (requests id).multimodalInputs) ids c.multimodalInputs
  topLogprobsNums : LogprobsAligned requests 0 (·.topLogprobsNum) ids returnLogprob
    c.topLogprobsNums
  tokenIdsLogprobs : LogprobsAligned requests none (·.tokenIdsLogprob) ids returnLogprob
    c.tokenIdsLogprobs
  encoderLens : EncoderAligned cfg requests ids c.encoderLens
  encoderLensCpu : EncoderAligned cfg requests ids c.encoderLensCpu
  samplingInfo : c.samplingInfo.Aligned cfg requests (fun id => (own id).fed) ids

/-- The rows of a batch belong to its requests; without columns there are none. -/
structure ScheduleBatch.Aligned (b : ScheduleBatch) : Prop where
  columns : ∀ c ∈ b.columns, c.Aligned cfg requests own b.reqs b.returnLogprob
  prepared : b.columns = none → b.reqs = []
  quiet : b.returnLogprob = false → ∀ id ∈ b.reqs, (requests id).returnLogprob = false

end Aligned

section

variable {cfg : BatchConfig} {requests : ReqId → BatchReq} {own own' : ReqId → OwnRow}
  {ids ids' : List ReqId}

theorem encoderAligned_map (ids : List ReqId) : EncoderAligned cfg requests ids
      (if cfg.isEncoderDecoder then some ((ids.map requests).map (·.encoderLen)) else none) := by
  split
  next hdec => exact ⟨hdec, forall₂_map_map fun _ _ => rfl⟩
  next hdec => exact Bool.eq_false_iff.mpr hdec

theorem EncoderAligned.select {col : Option (List ℕ)} {keep : List ℕ}
    (h : EncoderAligned cfg requests ids col) (hsel : select keep ids = some ids') :
    ∃ col', BatchColumns.filterEncoderLens cfg keep col = some col' ∧
      EncoderAligned cfg requests ids' col' := by
  unfold BatchColumns.filterEncoderLens
  cases col with
  | none => exact ⟨none, by simp [selectIfAny], h⟩
  | some rows =>
    obtain ⟨rows', hrows', hrel⟩ := forall₂_select h.2 hsel
    exact ⟨some rows', by simp [selectIfAny, h.1, hrows'], h.1, hrel⟩

theorem EncoderAligned.extend {col col' : Option (List ℕ)} (h : EncoderAligned cfg requests ids col)
    (h' : EncoderAligned cfg requests ids' col') :
    ∃ out, BatchColumns.mergeEncoderLens cfg col col' = some out ∧
      EncoderAligned cfg requests (ids ++ ids') out := by
  unfold BatchColumns.mergeEncoderLens
  cases col with
  | none =>
    have hdec : cfg.isEncoderDecoder = false := h
    exact ⟨none, by simp [hdec], hdec⟩
  | some rows =>
    cases col' with
    | none => exact absurd h.1 (Bool.eq_false_iff.mp h')
    | some rows' =>
      exact ⟨some (rows ++ rows'), by rw [if_pos h.1]; rfl, h.1, rel_append h.2 h'.2⟩

section Logprobs

variable {α : Type} {default : α} {setting : BatchReq → α} {rl rl' : Bool}
  {col col' : Option (List α)}

theorem logprobsAligned_map (ids : List ReqId) (rl : Bool) :
    LogprobsAligned requests default setting ids rl
      (if rl then some ((ids.map requests).map setting) else none) := by
  cases rl with
  | false => rfl
  | true => exact ⟨rfl, forall₂_map_map fun _ _ => .inl rfl⟩

section

variable (h : LogprobsAligned requests default setting ids rl col)

include h

theorem LogprobsAligned.select {keep : List ℕ}
    (hquiet : rl = false → ∀ id ∈ ids, (requests id).returnLogprob = false)
    (hsel : select keep ids = some ids') :
    ∃ col', BatchColumns.filterLogprobs ((ids'.map requests).any (·.returnLogprob)) keep col =
        some col' ∧ LogprobsAligned requests default setting ids'
        (ids'.any fun id => (requests id).returnLogprob) col' := by
  have hany : (ids'.map requests).any (·.returnLogprob) =
      ids'.any fun id => (requests id).returnLogprob := by
    rw [any_map]
    rfl
  rw [hany, BatchColumns.filterLogprobs]
  split
  next hret =>
    cases col with
    | none =>
      obtain ⟨id, hid, hid'⟩ := any_eq_true.mp hret
      exact absurd hid' (Bool.eq_false_iff.mp (hquiet h id (select_subset hsel hid)))
    | some rows =>
      obtain ⟨rows', hrows', hrel⟩ := forall₂_select h.2 hsel
      exact ⟨some rows', by rw [Option.bind_some, hrows']; rfl, hret, hrel⟩
  next hret => exact ⟨none, rfl, Bool.eq_false_iff.mpr hret⟩

theorem LogprobsAligned.merge (h' : LogprobsAligned requests default setting ids' rl' col')
    (hquiet : rl = false → ∀ id ∈ ids, (requests id).returnLogprob = false)
    (hquiet' : rl' = false → ∀ id ∈ ids', (requests id).returnLogprob = false) :
    ∃ out, BatchColumns.mergeLogprobs default rl rl' ids.length ids'.length col col' = some out ∧
      LogprobsAligned requests default setting (ids ++ ids') (rl || rl') out := by
  -- The rows that stand in for requests without log-probabilities.
  have hfill : ∀ {keys : List ReqId}, (∀ id ∈ keys, (requests id).returnLogprob = false) →
      Forall₂ (OwnLogprob requests default setting) keys
        (replicate keys.length default) := fun hkeys =>
    forall₂_replicate fun id hid => .inr ⟨rfl, hkeys id hid⟩
  cases col with
  | none =>
    cases col' with
    | none =>
      obtain rfl : rl = false := h
      obtain rfl : rl' = false := h'
      exact ⟨none, rfl, rfl⟩
    | some rows' =>
      obtain rfl : rl = false := h
      obtain ⟨rfl, hrows'⟩ := h'
      exact ⟨some _, rfl, rfl, rel_append (hfill (hquiet rfl)) hrows'⟩
  | some rows =>
    obtain ⟨rfl, hrows⟩ := h
    cases col' with
    | none =>
      obtain rfl : rl' = false := h'
      exact ⟨some _, rfl, rfl, rel_append hrows (hfill (hquiet' rfl))⟩
    | some rows' =>
      obtain ⟨rfl, hrows'⟩ := h'
      exact ⟨some _, rfl, rfl, rel_append hrows hrows'⟩

end

end Logprobs

/-! ## Operations keep the rows aligned -/

namespace BatchColumns

variable {c : BatchColumns} {rl : Bool}

theorem Aligned.filter {keep : List ℕ} (h : c.Aligned cfg requests own ids rl)
    (hquiet : rl = false → ∀ id ∈ ids, (requests id).returnLogprob = false)
    (hsel : select keep ids = some ids') :
    ∃ c', c.filter cfg (ids'.map requests) keep = some c' ∧
      c'.Aligned cfg requests own ids' (ids'.any fun id => (requests id).returnLogprob) := by
  obtain ⟨enc, he, henc⟩ := h.encoderLens.select hsel
  obtain ⟨encCpu, hec, hencCpu⟩ := h.encoderLensCpu.select hsel
  obtain ⟨mm, hm, hmm, hmms⟩ := h.multimodalInputs.2.select hsel
  obtain ⟨pool, hp, hpool⟩ := forall₂_select h.reqPoolIndices hsel
  obtain ⟨lens, hl, hlens⟩ := forall₂_select h.seqLens hsel
  obtain ⟨lensCpu, hlc, hlensCpu⟩ := forall₂_select h.seqLensCpu hsel
  obtain ⟨orig, ho, horig⟩ := forall₂_select h.origSeqLens hsel
  obtain ⟨out, hout, houts, -⟩ := h.outputIds.select hsel
  obtain ⟨top, ht, htop⟩ := h.topLogprobsNums.select hquiet hsel
  obtain ⟨tok, hk, htok⟩ := h.tokenIdsLogprobs.select hquiet hsel
  obtain ⟨info, hi, hinfo⟩ := h.samplingInfo.filterBatch hsel
  refine ⟨_, by
    rw [BatchColumns.filter, he, hec, hm, hp, hl, hlc, ho, hout, ht, hk, hi]
    rfl, ?_⟩
  exact {
    reqPoolIndices := hpool
    seqLens := hlens
    seqLensCpu := hlensCpu
    origSeqLens := horig
    outputIds := houts
    multimodalInputs := ⟨hmms.trans h.multimodalInputs.1, hmm⟩
    topLogprobsNums := htop
    tokenIdsLogprobs := htok
    encoderLens := henc
    encoderLensCpu := hencCpu
    samplingInfo := hinfo }

theorem extend_aligned {α : Type} {R : ReqId → α → Prop} {col col' out : Option (List α)}
    (h : RowsIfAny R ids col) (h' : RowsIfAny R ids' col')
    (hout : extend col col' = some out) :
    RowsIfAny R (ids ++ ids') out ∧ out.isSome = col.isSome := by
  cases col with
  | none =>
    cases hout
    exact ⟨trivial, rfl⟩
  | some rows =>
    cases col' with
    | none => cases hout
    | some rows' =>
      cases hout
      exact ⟨rel_append h h', rfl⟩

theorem Aligned.setOutputs (h : c.Aligned cfg requests own ids rl) {out : Option (List Token)}
    (hown : ∀ id ∈ ids, own' id = { own id with outputId := (own' id).outputId })
    (hout : RowsIfAny (fun id v => v = (own' id).outputId) ids out) :
    Aligned cfg requests own' ids rl { c with outputIds := out } :=
  { h with
    reqPoolIndices := forall₂_imp_mem h.reqPoolIndices fun id hid _ hv => by rw [hown id hid, hv]
    seqLens := forall₂_imp_mem h.seqLens fun id hid _ hv => by rw [hown id hid, hv]
    seqLensCpu := forall₂_imp_mem h.seqLensCpu fun id hid _ hv => by rw [hown id hid, hv]
    origSeqLens := forall₂_imp_mem h.origSeqLens fun id hid _ hv => by rw [hown id hid, hv]
    outputIds := hout
    samplingInfo := { h.samplingInfo with
      penalizers := h.samplingInfo.penalizers.congr (fun _ _ => rfl)
        fun id hid _ => by rw [hown id hid] } }

theorem Aligned.congr_own (h : c.Aligned cfg requests own ids rl)
    (hown : ∀ id ∈ ids, own' id = own id) : c.Aligned cfg requests own' ids rl :=
  h.setOutputs (fun id hid => by rw [hown id hid])
    (h.outputIds.imp_mem fun id hid _ hv => by rw [hown id hid, hv])

end BatchColumns

namespace ScheduleBatch

variable {b b' other : ScheduleBatch}

theorem aligned_empty : Aligned cfg requests own {} where
  columns := by simp
  prepared _ := rfl
  quiet := by simp

theorem Aligned.congr_own (h : b.Aligned cfg requests own)
    (hown : ∀ id ∈ b.reqs, own' id = own id) : b.Aligned cfg requests own' :=
  { h with columns := fun c hc => (h.columns c hc).congr_own hown }

/-- A prefill batch is born aligned. -/
theorem aligned_prepareForExtend {chunkedReq : Option ReqId} {input : ReqId → ExtendInput}
    (hown : ∀ id ∈ ids, own id = .extend cfg (requests id) (input id)) :
    ((initNew requests ids chunkedReq).prepareForExtend cfg requests input).Aligned
      cfg requests own where
  columns := by
    rintro c ⟨⟩
    exact {
      reqPoolIndices := forall₂_map fun id hid => by rw [hown id hid]; rfl
      seqLens := forall₂_map fun id hid => by rw [hown id hid]; rfl
      seqLensCpu := forall₂_map fun id hid => by rw [hown id hid]; rfl
      origSeqLens := forall₂_map fun id hid => by rw [hown id hid]; rfl
      outputIds := trivial
      multimodalInputs := ⟨rfl, forall₂_map_map fun _ _ => rfl⟩
      topLogprobsNums := logprobsAligned_map ids _
      tokenIdsLogprobs := logprobsAligned_map ids _
      encoderLens := encoderAligned_map ids
      encoderLensCpu := encoderAligned_map ids
      samplingInfo := SamplingBatchInfo.aligned_fromScheduleBatch fun id hid => by
        rw [hown id hid]
        rfl }
  prepared h := by cases h
  quiet h id hid := by
    have hret : (ids.any fun id => (requests id).returnLogprob) = false := h
    rw [any_eq_false] at hret
    exact Bool.eq_false_iff.mpr (hret id hid)

theorem Aligned.filterBatch {keep : List ℕ} (h : b.Aligned cfg requests own) (hkeep : keep ≠ [])
    (hb : b.filterBatch cfg requests keep = some b') : b'.Aligned cfg requests own := by
  unfold ScheduleBatch.filterBatch at hb
  rw [if_neg (by simpa using hkeep)] at hb
  split at hb
  · cases hb
    exact h
  · simp only [Option.bind_eq_bind, Option.bind_eq_some_iff] at hb
    obtain ⟨c, hc, reqs, hreqs, c', hc', hb⟩ := hb
    obtain ⟨c'', hc'', hcols⟩ := (h.columns c hc).filter h.quiet hreqs
    rw [hc''] at hc'
    cases hc'
    cases hb
    refine ⟨?_, fun hnone => (by cases hnone), fun hret id hid => ?_⟩
    · rintro c ⟨⟩
      exact hcols
    · exact Bool.eq_false_iff.mpr (any_eq_false.mp hret id hid)

theorem reqs_filterBatch {keep : List ℕ} (hb : b.filterBatch cfg requests keep = some b') :
    b'.reqs = [] ∧ keep = [] ∨ b' = b ∧ keep.length = b.reqs.length ∨
      select keep b.reqs = some b'.reqs := by
  unfold filterBatch at hb
  split at hb
  next hempty =>
    cases hb
    exact .inl ⟨rfl, isEmpty_iff.mp hempty⟩
  · split at hb
    next hlen =>
      cases hb
      exact .inr (.inl ⟨rfl, hlen⟩)
    · simp only [Option.bind_eq_bind, Option.bind_eq_some_iff] at hb
      obtain ⟨c, -, reqs, hreqs, c', -, hb⟩ := hb
      cases hb
      exact .inr (.inr hreqs)

theorem reqs_filterBatch_where {p : ReqId → Bool}
    (hb : b.filterBatch cfg requests (indicesWhere p b.reqs) = some b') :
    b'.reqs = b.reqs.filter p := by
  have hsel := select_indicesWhere p b.reqs
  rcases reqs_filterBatch hb with ⟨hnil, hkeep⟩ | ⟨rfl, hlen⟩ | hreqs
  · rw [hkeep] at hsel
    rw [hnil]
    exact Option.some.inj hsel
  · rw [length_indicesWhere] at hlen
    exact (filter_eq_self.mpr (length_filter_eq_length_iff.mp hlen)).symm
  · exact Option.some.inj (hreqs.symm.trans hsel)

section

variable (h : b.Aligned cfg requests own)

include h

/-- Filtering keeps each row with its request. -/
theorem Aligned.filterBatch_where {p : ReqId → Bool}
    (hb : b.filterBatch cfg requests (indicesWhere p b.reqs) = some b') (hne : b'.reqs ≠ []) :
    b'.Aligned cfg requests own := by
  refine h.filterBatch (fun hnil => hne ?_) hb
  rw [reqs_filterBatch_where hb, ← length_eq_zero_iff, ← length_indicesWhere, hnil]
  rfl

/-- Merging puts the other batch's rows behind this one's. -/
theorem Aligned.mergeBatch (hother : other.Aligned cfg requests own)
    (hb : b.mergeBatch cfg requests other = some b') :
    b'.Aligned cfg requests own ∧ b'.reqs = b.reqs ++ other.reqs := by
  simp only [ScheduleBatch.mergeBatch, Option.bind_eq_bind, Option.bind_eq_some_iff] at hb
  obtain ⟨c, hc, o, ho, info, hinfo, enc, henc, encCpu, hencCpu, out, hout, top, htop, tok, htok,
    mm, hmm, hb⟩ := hb
  have hcols := h.columns c hc
  have hcols' := hother.columns o ho
  obtain ⟨info', hinfo', hsampling⟩ := hcols.samplingInfo.mergeBatch hcols'.samplingInfo
  obtain ⟨enc', henc', hencs⟩ := hcols.encoderLens.extend hcols'.encoderLens
  obtain ⟨encCpu', hencCpu', hencCpus⟩ := hcols.encoderLensCpu.extend hcols'.encoderLensCpu
  obtain ⟨top', htop', htops⟩ := hcols.topLogprobsNums.merge hcols'.topLogprobsNums h.quiet
    hother.quiet
  obtain ⟨tok', htok', htoks⟩ := hcols.tokenIdsLogprobs.merge hcols'.tokenIdsLogprobs h.quiet
    hother.quiet
  obtain ⟨houts, -⟩ := BatchColumns.extend_aligned hcols.outputIds hcols'.outputIds hout
  obtain ⟨hmms, hsome⟩ := BatchColumns.extend_aligned hcols.multimodalInputs.2
    hcols'.multimodalInputs.2 hmm
  rw [hinfo'] at hinfo
  rw [henc'] at henc
  rw [hencCpu'] at hencCpu
  rw [htop'] at htop
  rw [htok'] at htok
  cases hinfo
  cases henc
  cases hencCpu
  cases htop
  cases htok
  cases hb
  refine ⟨⟨?_, fun hnone => (by cases hnone), fun hret id hid => ?_⟩, rfl⟩
  · rintro c ⟨⟩
    exact {
      reqPoolIndices := rel_append hcols.reqPoolIndices hcols'.reqPoolIndices
      seqLens := rel_append hcols.seqLens hcols'.seqLens
      seqLensCpu := rel_append hcols.seqLensCpu hcols'.seqLensCpu
      origSeqLens := rel_append hcols.origSeqLens hcols'.origSeqLens
      outputIds := houts
      multimodalInputs := ⟨hsome.trans hcols.multimodalInputs.1, hmms⟩
      topLogprobsNums := htops
      tokenIdsLogprobs := htoks
      encoderLens := hencs
      encoderLensCpu := hencCpus
      samplingInfo := hsampling }
  · obtain ⟨hret, hret'⟩ := Bool.or_eq_false_iff.mp hret
    rcases mem_append.mp hid with hid | hid
    · exact h.quiet hret id hid
    · exact hother.quiet hret' id hid

theorem Aligned.mixWithRunning (hother : other.Aligned cfg requests own)
    (hb : b.mixWithRunning cfg requests other = some b') :
    b'.Aligned cfg requests own ∧ b'.reqs = b.reqs ++ other.reqs := by
  simp only [ScheduleBatch.mixWithRunning, Option.bind_eq_bind, Option.bind_eq_some_iff] at hb
  obtain ⟨merged, hmerged, hb⟩ := hb
  obtain ⟨hal, hreqs⟩ := h.mergeBatch hother hmerged
  cases hb
  exact ⟨{ hal with }, hreqs⟩

end

def fedToken (cfg : BatchConfig) (requests : ReqId → BatchReq) (own : ReqId → OwnRow)
    (outputIds : ReqId → List Token) (id : ReqId) : Token :=
  if cfg.enableOverlap then delayedOutputId requests outputIds id else (own id).outputId

/-- A decode step feeds every request its own last token. -/
theorem Aligned.prepareForDecode {outputIds : ReqId → List Token} (h : b.Aligned cfg requests own)
    (hb : b.prepareForDecode cfg requests outputIds = some b')
    (hown : ∀ id ∈ b.reqs, own' id = (own id).decode (fedToken cfg requests own outputIds id)) :
    b'.Aligned cfg requests own' ∧ b'.reqs = b.reqs := by
  simp only [ScheduleBatch.prepareForDecode, Option.bind_eq_bind, Option.bind_eq_some_iff] at hb
  obtain ⟨c, hc, o, ho, hb⟩ := hb
  have hcols := h.columns c hc
  have hpen : o.Tracks (fun id => (requests id).toReq) (fun id => (own' id).fed) b.reqs := by
    unfold cumulated at ho
    dsimp only at ho
    split at ho
    · obtain ⟨tokens, htokens, rfl⟩ := Option.map_eq_some_iff.mp ho
      have hfed : Forall₂ (fun id token => token = fedToken cfg requests own outputIds id)
          b.reqs tokens := by
        unfold decodeTokens at htokens
        split at htokens
        next hover =>
          cases htokens
          exact forall₂_map fun id _ => by rw [fedToken, if_pos hover]
        next hover =>
        have hrows := hcols.outputIds
        rw [htokens] at hrows
        exact forall₂_imp_mem hrows fun id _ v hv => by rw [fedToken, if_neg hover, hv]
      refine hcols.samplingInfo.penalizers.cumulate (forall₂_imp_mem hfed ?_)
      intro id hid token htoken _
      rw [hown id hid, htoken]
      rfl
    next hnot =>
      cases ho
      exact hcols.samplingInfo.penalizers.of_unused (Bool.eq_false_iff.mpr hnot) (Subset.refl _)
  cases hb
  refine ⟨⟨?_, fun hnone => (by cases hnone), h.quiet⟩, rfl⟩
  rintro c ⟨⟩
  exact { hcols with
    reqPoolIndices := forall₂_imp_mem hcols.reqPoolIndices fun id hid v hv => by
      rw [hown id hid, hv]
      rfl
    seqLens := forall₂_map_rows hcols.seqLens fun id hid v hv => by rw [hown id hid, hv]; rfl
    seqLensCpu := forall₂_map_rows hcols.seqLensCpu fun id hid v hv => by rw [hown id hid, hv]; rfl
    origSeqLens := forall₂_map_rows hcols.origSeqLens fun id hid v hv => by
      rw [hown id hid, hv]
      rfl
    outputIds := trivial
    samplingInfo := { hcols.samplingInfo with penalizers := hpen } }

theorem Aligned.setOutputIds {nextTokenIds : List Token} (h : b.Aligned cfg requests own)
    (htokens : Forall₂ (fun id token => own' id = { own id with outputId := token }) b.reqs
      nextTokenIds) : (b.setOutputIds nextTokenIds).Aligned cfg requests own' where
  columns := by
    intro c hc
    obtain ⟨c, hc', rfl⟩ := Option.map_eq_some_iff.mp hc
    have hcols := h.columns c hc'
    refine hcols.setOutputs (fun id hid => ?_)
      (forall₂_imp_mem htokens fun id _ token htoken => by rw [htoken])
    obtain ⟨n, hn, hget⟩ := getElem_of_mem hid
    obtain ⟨token, -, hrel⟩ := forall₂_getElem? htokens (List.getElem?_eq_some_iff.mpr ⟨hn, hget⟩)
    rw [hrel]
  prepared hnone := h.prepared (by simpa [ScheduleBatch.setOutputIds] using hnone)
  quiet := h.quiet

end ScheduleBatch

end

end LLM42.Batch
