import Mathlib.Data.List.DropRight
import Mathlib.Data.List.Infix
import Mathlib.Data.Rat.Defs

/-! # Requests

The request object of `managers/schedule_batch.py`, with the fields its verification, streaming
and memory code reads. Text is a list of characters so that matching evaluates. -/

namespace LLM42

abbrev Token := ℤ
abbrev Text := List Char
abbrev Logprob := ℚ

/-- Identity of a request object; requests are shared by reference between queues and batches. -/
abbrev ReqId := ℕ

/-- The reasons of `BaseFinishReason` that a text-generation request can end with. -/
inductive FinishReason where
  | matchedToken (matched : Token)
  | matchedStr (matched : Text)
  | matchedRegex (matched : Text)
  | length (length : ℕ)
  | abort (message : String)
deriving DecidableEq

/-- A pattern together with what `re.search` answers for it. -/
structure Regex where
  pattern : Text
  search : Text → Bool

/-- The part of the tokenizer that finish checks use. -/
structure Tokenizer where
  eosTokenId : Option Token
  additionalStopTokenIds : List Token
  decode : List Token → Text

/-- A grammar matcher, as its answers on the tokens accepted so far. -/
structure Grammar where
  acceptedTokens : List Token := []
  terminatedOn : List Token → Bool
  accepts : List Token → Token → Bool
  finished : Bool := false

namespace Grammar

def isTerminated (g : Grammar) : Bool := g.terminatedOn g.acceptedTokens

def acceptToken (g : Grammar) (token : Token) : Option Grammar :=
  if g.isTerminated then some g
  else if g.accepts g.acceptedTokens token then
    some { g with acceptedTokens := g.acceptedTokens ++ [token] }
  else none

end Grammar

def topKAll : ℤ := 1073741824

/-- Sampling parameters after `normalize`. -/
structure SamplingParams where
  maxNewTokens : ℕ := 128
  minNewTokens : ℕ := 0
  stopStrs : List Text := []
  stopStrMaxLen : ℕ := 0
  stopTokenIds : List Token := []
  stopRegexStrs : List Regex := []
  stopRegexMaxLen : ℕ := 0
  ignoreEos : Bool := false
  temperature : ℚ := 1
  topP : ℚ := 1
  topK : ℤ := topKAll
  minP : ℚ := 0
  frequencyPenalty : ℚ := 0
  presencePenalty : ℚ := 0
  streamInterval : Option ℕ := none
  logitBias : List (ℕ × ℚ) := []
  samplingSeed : Option ℤ := none
  isDeterministic : Bool := false

/-- A node of the prefix tree, named by the tokens on its path from the root. -/
structure NodeRef where
  extraKey : Option String
  path : List Token
deriving DecidableEq

/-- The memory-management fields of a request. -/
structure KvFields where
  reqPoolIdx : Option ℕ := none
  kvCommittedLen : ℕ := 0
  kvAllocatedLen : ℕ := 0
  kvCommittedFreed : Bool := false
  kvOverallocatedFreed : Bool := false
  extendBatchIdx : ℕ := 0
  decodeBatchIdx : ℤ := 0
  fillIds : List Token := []
  prefixIndices : List ℕ := []
  lastNode : Option NodeRef := none
  cacheProtectedLen : ℕ := 0
  isRetracted : Bool := false
  retractionCount : ℕ := 0
deriving DecidableEq

abbrev CustomInfo := ℚ

/-- The row of `LogitsProcessorOutput` that belongs to a sampled token. -/
structure LogitsRow where
  logprob : Logprob
  topLogprobsVal : List Logprob := []
  topLogprobsIdx : List Token := []
  tokenIdsLogprobsVal : List Logprob := []
  tokenIdsLogprobsIdx : List Token := []
  customizedInfo : List (String × CustomInfo) := []

/-- A row that carries a log-probability only. -/
instance {n : ℕ} [OfNat Logprob n] : OfNat LogitsRow n := ⟨{ logprob := OfNat.ofNat n }⟩

/-- The per-token lists of a request besides its log-probabilities: `output_top_logprobs`,
`output_token_ids_logprobs` and the lists of `customized_info` by key. -/
structure TokenRecords where
  topLogprobsVal : List (List Logprob) := []
  topLogprobsIdx : List (List Token) := []
  tokenIdsLogprobsVal : List (List Logprob) := []
  tokenIdsLogprobsIdx : List (List Token) := []
  customizedInfo : List (String × List CustomInfo) := []
deriving DecidableEq

/-- A request. `completed` stands for `time_stats.completion_time > 0`. -/
structure Req where
  rid : String
  originInputIds : List Token
  originInputIdsUnpadded : List Token := originInputIds
  samplingParams : SamplingParams
  outputIds : List Token := []
  extraKey : Option String := none
  stream : Bool := false
  returnLogprob : Bool := false
  logprobStartLen : ℤ := -1
  tokenizer : Option Tokenizer := none
  eosTokenIds : List Token := []
  vocabSize : ℕ
  grammar : Option Grammar := none
  finishedReason : Option FinishReason := none
  finishedLen : Option ℕ := none
  finishedOutput : Bool := false
  toFinish : Option FinishReason := none
  completed : Bool := false
  decodedText : Text := []
  surrOffset : Option ℕ := none
  readOffset : Option ℕ := none
  surrAndDecodeIds : List Token := []
  curDecodeIdsLen : ℕ := 0
  sendTokenOffset : ℕ := 0
  sendDecodeIdOffset : ℕ := 0
  sendOutputTokenLogprobsOffset : ℕ := 0
  outputTokenLogprobsVal : Option (List Logprob) := none
  outputTokenLogprobsIdx : Option (List Token) := none
  topLogprobsNum : ℕ := 0
  tokenIdsLogprob : Option (List Token) := none
  records : TokenRecords := {}
  llm42VerifiedTokens : ℕ := 0
  llm42NumRollbacks : ℕ := 0
  llm42TokensRolledBack : ℕ := 0
  llm42NumVerificationWindows : ℕ := 0
  kv : KvFields := {}

namespace Req

def isDeterministic (r : Req) : Bool := r.samplingParams.isDeterministic

def unverified (r : Req) : List Token := r.outputIds.drop r.llm42VerifiedTokens

def outputIdsThroughStop (r : Req) : List Token :=
  match r.finishedLen with
  | some n => r.outputIds.take n
  | none => r.outputIds

def finished (r : Req) : Bool := r.finishedReason.isSome

/-- The part of a request that is fixed when it arrives. -/
def fixed (r : Req) : Req where
  rid := r.rid
  originInputIds := r.originInputIds
  originInputIdsUnpadded := r.originInputIdsUnpadded
  samplingParams := r.samplingParams
  extraKey := r.extraKey
  stream := r.stream
  returnLogprob := r.returnLogprob
  logprobStartLen := r.logprobStartLen
  tokenizer := r.tokenizer
  eosTokenIds := r.eosTokenIds
  vocabSize := r.vocabSize
  topLogprobsNum := r.topLogprobsNum
  tokenIdsLogprob := r.tokenIdsLogprob

theorem length_unverified (r : Req) :
    r.unverified.length = r.outputIds.length - r.llm42VerifiedTokens := by
  simp [unverified]

theorem getElem?_unverified (r : Req) (i : ℕ) :
    r.unverified[i]? = r.outputIds[r.llm42VerifiedTokens + i]? := by
  simp [unverified]

end Req

end LLM42
