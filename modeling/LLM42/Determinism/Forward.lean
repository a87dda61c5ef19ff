import LLM42.Library.Autoregressive
import LLM42.Request.Finish
import LLM42.Verification.Outcome

/-! # The verification forward pass

The model behind a verification pass, reduced to what the protocol relies on: a row writes a KV
entry computed from its token and the entries before it, and emits a token computed from the
entries up to it. Every request reads and writes its own page-table row only. In a run decode steps
append any token and write any KV entry; verification passes run at any time on any group. -/

namespace LLM42

open List Function

abbrev KvCache (E : Type) := ReqId → ℕ → E

structure VerifierModel (E : Type) where
  entry : Token → List E → E
  emit : SamplingParams → List E → Token
  firstToken : SamplingParams → List Token → Token
  promptEntry : List Token → ℕ → E
  logprobs : VerifyBatch → KvCache E → Option (ℕ → Logprob)

namespace VerifierModel

variable {E : Type} (model : VerifierModel E)

def entriesBelow (row : ℕ → E) (n : ℕ) : List E := (range n).map row

def generator (r : Req) : Library.Generator Token E where
  entry := model.entry
  emit := model.emit r.samplingParams
  commit := r.checkedToken

/-- The rows of one request: positions `pos`, `pos + 1`, … are overwritten in order. -/
def replayRow (sp : SamplingParams) (row : ℕ → E) (pos : ℕ) : List Token → List Token × (ℕ → E)
  | [] => ([], row)
  | t :: ts =>
    let row' := update row pos (model.entry t (entriesBelow row pos))
    let (outs, row'') := replayRow sp row' (pos + 1) ts
    (model.emit sp (entriesBelow row' (pos + 1)) :: outs, row'')

def replayBatch : List (ReqId × SamplingParams × ℕ × ℕ) → List Token → KvCache E →
    List Token × KvCache E
  | [], _, kv => ([], kv)
  | (id, sp, prefixLen, extendLen) :: rest, ids, kv =>
    let (outs, row) := model.replayRow sp (kv id) prefixLen (ids.take extendLen)
    let (outs', kv') := replayBatch rest (ids.drop extendLen) (update kv id row)
    (outs ++ outs', kv')

/-- The verification forward pass; rows past the real requests belong to dummies. -/
def verifyForward (b : VerifyBatch) (kv : KvCache E) : VerifyOutput × KvCache E :=
  let rows := b.reqIds.zip ((b.reqs.map (·.samplingParams)).zip (b.prefixLens.zip b.extendLens))
  let (outs, kv') := model.replayBatch rows b.inputIds kv
  ({ tokenIds := fun j => outs.getD j 0, logprobs := model.logprobs b kv }, kv')

theorem entriesBelow_congr {row row' : ℕ → E} {n : ℕ} (h : ∀ p < n, row p = row' p) :
    entriesBelow row n = entriesBelow row' n := by
  refine map_congr_left fun p hp => ?_
  exact h p (mem_range.mp hp)

theorem entriesBelow_update (row : ℕ → E) (pos : ℕ) (e : E) :
    entriesBelow (update row pos e) (pos + 1) = entriesBelow row pos ++ [e] := by
  rw [entriesBelow, range_succ, map_append, map_singleton, update_self]
  congr 1
  refine entriesBelow_congr fun p hp => ?_
  rw [update_of_ne (by omega)]

theorem replayRow_below (sp : SamplingParams) (row : ℕ → E) (pos : ℕ) (ids : List Token) {p : ℕ}
    (hp : p < pos) : (model.replayRow sp row pos ids).2 p = row p := by
  induction ids generalizing row pos with
  | nil => rfl
  | cons t ts ih =>
    simp only [replayRow]
    rw [ih _ _ (by omega), update_of_ne (by omega)]

theorem replayRow_out (r : Req) (row : ℕ → E) (pos : ℕ) (ids : List Token) :
    (model.replayRow r.samplingParams row pos ids).1 =
      (model.generator r).replayOut (entriesBelow row pos) ids := by
  induction ids generalizing row pos with
  | nil => rfl
  | cons t ts ih =>
    simp only [replayRow, Library.Generator.replayOut]
    rw [ih, entriesBelow_update]
    rfl

theorem replayRow_cache (r : Req) (row : ℕ → E) (pos : ℕ) (ids : List Token) {j : ℕ}
    (hj : j ≤ ids.length) :
    entriesBelow (model.replayRow r.samplingParams row pos ids).2 (pos + j) =
      (model.generator r).replayCache (entriesBelow row pos) (ids.take j) := by
  induction ids generalizing row pos j with
  | nil =>
    obtain rfl : j = 0 := by simpa using hj
    rfl
  | cons t ts ih =>
    simp only [replayRow]
    cases j with
    | zero =>
      refine entriesBelow_congr fun p hp => ?_
      rw [replayRow_below _ _ _ _ _ (by omega), update_of_ne (by omega)]
    | succ j =>
      rw [take_succ_cons, Library.Generator.replayCache, Nat.add_comm j 1, ← Nat.add_assoc,
        ih _ _ (by simpa using hj), entriesBelow_update]
      rfl

theorem length_replayRow (sp : SamplingParams) (row : ℕ → E) (pos : ℕ) (ids : List Token) :
    (model.replayRow sp row pos ids).1.length = ids.length := by
  induction ids generalizing row pos with
  | nil => rfl
  | cons t ts ih => simp [replayRow, ih]

section Group

variable (sp : ReqId → SamplingParams) (pos len : ReqId → ℕ) (ids : ReqId → List Token)

def groupRows (group : List ReqId) : List (ReqId × SamplingParams × ℕ × ℕ) :=
  group.map fun id => (id, sp id, pos id, len id)

@[simp] theorem groupRows_cons (x : ReqId) (xs : List ReqId) :
    groupRows sp pos len (x :: xs) = (x, sp x, pos x, len x) :: groupRows sp pos len xs := rfl

variable {sp pos len ids} {group : List ReqId} (extra : List Token)

theorem replayBatch_of_not_mem {id : ReqId} (hid : id ∉ group) (tokens : List Token)
    (kv : KvCache E) : (model.replayBatch (groupRows sp pos len group) tokens kv).2 id = kv id := by
  induction group generalizing tokens kv with
  | nil => rfl
  | cons x xs ih =>
    simp only [mem_cons, not_or] at hid
    simp only [groupRows_cons, replayBatch]
    rw [ih hid.2, update_of_ne hid.1]

theorem replayBatch_cons {x : ReqId} {xs : List ReqId} (hx : (ids x).length = len x)
    (kv : KvCache E) :
    model.replayBatch (groupRows sp pos len (x :: xs)) ((x :: xs).flatMap ids ++ extra) kv =
      let row := model.replayRow (sp x) (kv x) (pos x) (ids x)
      let rest := model.replayBatch (groupRows sp pos len xs) (xs.flatMap ids ++ extra)
        (update kv x row.2)
      (row.1 ++ rest.1, rest.2) := by
  simp only [groupRows_cons, replayBatch, flatMap_cons, append_assoc, ← hx, take_left, drop_left]

/-- A batched forward pass serves each row as a pass of its own would: the cache it leaves, and
the tokens at the offset of the row. -/
theorem replayBatch_member (hnd : group.Nodup) (hlen : ∀ id ∈ group, (ids id).length = len id)
    {id : ReqId} (hid : id ∈ group) (kv : KvCache E) :
    let batch := model.replayBatch (groupRows sp pos len group) (group.flatMap ids ++ extra) kv
    let row := model.replayRow (sp id) (kv id) (pos id) (ids id)
    batch.2 id = row.2 ∧
      ∀ j < len id, batch.1[LLM42Worker.offsetBy len group id + j]? = row.1[j]? := by
  induction group generalizing kv with
  | nil => simp at hid
  | cons x xs ih =>
    obtain ⟨hx, hnd'⟩ := nodup_cons.mp hnd
    have hxlen : (ids x).length = len x := hlen x (by simp)
    simp only [model.replayBatch_cons extra hxlen, LLM42Worker.offsetBy]
    by_cases hxid : x = id
    · subst hxid
      refine ⟨by rw [model.replayBatch_of_not_mem hx, update_self], fun j hj => ?_⟩
      rw [if_pos rfl, Nat.zero_add, getElem?_append_left (by rwa [length_replayRow, hxlen])]
    · have hmem : id ∈ xs := (mem_cons.mp hid).resolve_left fun h => hxid h.symm
      have hrest := ih hnd' (fun y hy => hlen y (mem_cons_of_mem _ hy)) hmem
        (update kv x (model.replayRow (sp x) (kv x) (pos x) (ids x)).2)
      rw [update_of_ne fun h => hxid h.symm] at hrest
      refine ⟨hrest.1, fun j hj => ?_⟩
      rw [if_neg hxid, Nat.add_assoc, getElem?_append_right (by rw [length_replayRow]; omega),
        length_replayRow, hxlen, Nat.add_sub_cancel_left, hrest.2 j hj]

end Group

end VerifierModel

/-- A page-table row, a token, an entry: whatever the fast path produced. -/
inductive DvrEvent (E : Type) where
  | prefill (id : ReqId) (r : Req) (row : ℕ) (logits : LogitsRow)
  | decode (id : ReqId) (token : Token) (logits : LogitsRow) (entry : E)
  | verify (pool : ReqToTokenPool) (group : List ReqId) (forceIncludeAll : Bool) (numDummies : ℕ)

def Req.isSubmitted (r : Req) : Bool :=
  r.outputIds.isEmpty && decide (r.llm42VerifiedTokens = 0) && r.finishedReason.isNone &&
    r.toFinish.isNone && r.grammar.isNone

def Req.static (r : Req) : Req where
  rid := r.rid
  originInputIds := r.originInputIds
  samplingParams := r.samplingParams
  tokenizer := r.tokenizer
  eosTokenIds := r.eosTokenIds
  vocabSize := r.vocabSize

namespace VerifierModel

variable {E : Type} (model : VerifierModel E)

abbrev DvrState (E : Type) := VerifyState (KvCache E)

def live (s : DvrState E) : List ReqId := s.batch.map (·.req)

def prefill (s : DvrState E) (id : ReqId) (r : Req) (row : ℕ) (logits : LogitsRow) : DvrState E :=
  let token := model.firstToken r.samplingParams r.originInputIds
  let r' := { r.prefillToken true token logits with kv := { r.kv with reqPoolIdx := some row } }
  { s with
    heap := update s.heap id r'
    batch := s.batch ++ [⟨id, 0, token, r.originInputIds.length, row⟩]
    device := update s.device id fun pos =>
      if pos < r.originInputIds.length then model.promptEntry r.originInputIds pos
      else s.device id pos }

def decode (s : DvrState E) (id : ReqId) (token : Token) (logits : LogitsRow) (entry : E) :
    DvrState E :=
  let r := s.heap id
  let position := r.originInputIds.length + r.outputIds.length - 1
  { s with
    heap := update s.heap id (r.decodeToken token logits)
    batch := s.batch.map fun e =>
      if e.req = id then { e with outputId := token, seqLen := e.seqLen + 1 } else e
    device := update s.device id (update (s.device id) position entry) }

/-- The check that follows every verification, for all deterministic requests of the batch. -/
def recheck (s : DvrState E) : DvrState E :=
  { s with heap := fun id =>
      if id ∈ live s ∧ (s.heap id).isDeterministic then (s.heap id).checkFinished else s.heap id }

/-- One event; an event that the scheduler would not issue changes nothing. -/
def dvrStep (w : LLM42Worker) (s : DvrState E) :
    DvrEvent E → Except VerifyError (DvrState E)
  | .prefill id r row logits =>
    if id ∉ live s ∧ r.isSubmitted then .ok (model.prefill s id r row logits) else .ok s
  | .decode id token logits entry =>
    if id ∈ live s ∧ ¬ (s.heap id).finished then .ok (decode s id token logits entry) else .ok s
  | .verify pool group forceIncludeAll numDummies =>
    if group.Nodup ∧ ∀ id ∈ group, id ∈ live s ∧ LLM42Worker.isCandidate (s.heap id) then do
      let (s', _) ← w.runVerification model.verifyForward pool group forceIncludeAll numDummies s
      .ok (recheck s')
    else .ok s

end VerifierModel

end LLM42
