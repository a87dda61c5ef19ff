import LLM42.Library.Runs
import LLM42.Library.Substring
import LLM42.Request.Finish
import LLM42.Request.StopRegex

/-! # Stop strings and stop patterns over a whole generation

`normalize` turns the stop strings and stop patterns of a request into a number of tokens; after
each token `check_finished` looks at the text of that many tokens. -/

namespace LLM42

open Library List

/-- A stop pattern with the tree that `sre_parse` makes of it. -/
structure StopRegex where
  pattern : Text
  tree : Pattern

def StopRegex.toRegex (q : StopRegex) : Regex := ⟨q.pattern, q.tree.search⟩

/-- What the user gives; a single string counts as a list of one. -/
structure Stops where
  stopStrs : Option (List Text) := none
  stopRegexStrs : Option (List StopRegex) := none

namespace Stops

def strs (stops : Stops) : List Text := stops.stopStrs.getD []

def regexes (stops : Stops) : List StopRegex := stops.stopRegexStrs.getD []

/-- The stop string in tokens, as the tokenizer itself writes it. -/
def encodedLength (encode : Option (Text → List Token)) (stopStr : Text) : ℕ :=
  match encode with
  | some encode => (encode stopStr).length
  | none => stopStr.length

/-- The part of `SamplingParams.normalize` that is about stops. -/
def normalize (stops : Stops) (encode : Option (Text → List Token)) (p : SamplingParams) :
    SamplingParams :=
  { p with
    stopStrs := stops.strs
    stopStrMaxLen := stops.strs.foldl (fun n s => max n (encodedLength encode s)) 0
    stopRegexStrs := stops.regexes.map StopRegex.toRegex
    stopRegexMaxLen := stops.regexes.foldl (fun n q => max n q.tree.getMaxSeqLength) 0 }

end Stops

namespace Req

def textOf (r : Req) (ids : List Token) : Text :=
  match r.tokenizer with
  | none => []
  | some t => t.decode ids

/-- The tokens before the newest one that a check still looks at. -/
def watched (r : Req) : List Token :=
  r.outputIds.rtake (max r.samplingParams.stopStrMaxLen r.samplingParams.stopRegexMaxLen + 1)

/-- The tail that the check after the next token inspects covers every stop that this token can
complete: it is the whole output, or the text of its earlier tokens is as long as every stop
string up to its last character, and longer than every match of a pattern. -/
def TailCovers (stops : Stops) (r : Req) : Prop :=
  r.outputIds.length ≤ max r.samplingParams.stopStrMaxLen r.samplingParams.stopRegexMaxLen + 1 ∨
    (∀ s ∈ stops.strs, s.length ≤ (r.textOf r.watched).length + 1) ∧
    ∀ q ∈ stops.regexes, q.tree.getMaxSeqLength < Pattern.maxLen ∧
      q.tree.getMaxSeqLength + 1 ≤ (r.textOf r.watched).length
deriving Decidable

/-- No stop string and no match of a stop pattern in a text. -/
def StopFree (stops : Stops) (text : Text) : Prop :=
  (∀ s ∈ stops.strs, ¬ s <:+: text) ∧ ∀ q ∈ stops.regexes, q.tree.search text = false

def generate (r : Req) (e : Token × LogitsRow) : Except Unit Req :=
  if r.finished then .error () else .ok (r.decodeToken e.1 e.2)

/-- A request before its first token, with a tokenizer that joins the texts of tokens. -/
structure Fresh (piece : Token → Text) (encode : Option (Text → List Token)) (stops : Stops)
    (r : Req) : Prop where
  outputIds : r.outputIds = []
  finished : r.finished = false
  decode : ∀ ids, r.textOf ids = ids.flatMap piece
  params : ∃ p, r.samplingParams = stops.normalize encode p

/-! ## What a tail covers -/

theorem infix_without {before text new s : Text} (hlen : s.length ≤ text.length + 1)
    (hnot : ¬ s <:+: before ++ text) (h : s <:+: before ++ text ++ new) : s <:+: text ++ new := by
  rw [append_assoc] at h
  rcases infix_append_cases h with hbefore | htail | ⟨i, hi, hpos, hsuffix, hprefix⟩
  · exact absurd (hbefore.trans (prefix_append _ _).isInfix) hnot
  · exact htail
  · -- an occurrence that begins in `before` ends in `text`
    exfalso
    apply hnot
    have htext : s.drop i <+: text := by
      apply prefix_of_prefix_length_le hprefix (prefix_append _ _)
      rw [length_drop]
      omega
    obtain ⟨x, hx⟩ := hsuffix
    obtain ⟨y, hy⟩ := htext
    refine ⟨x, y, ?_⟩
    rw [← hx, ← hy]
    conv_lhs => rw [← take_append_drop i s]
    simp only [append_assoc]

variable {piece : Token → Text} {encode : Option (Text → List Token)} {stops : Stops} {r : Req}

theorem stopFree_append {before text new : Text}
    (hstrs : ∀ s ∈ stops.strs, s.length ≤ text.length + 1)
    (hregexes : ∀ q ∈ stops.regexes, q.tree.getMaxSeqLength < Pattern.maxLen ∧
      q.tree.getMaxSeqLength + 1 ≤ text.length)
    (hprev : StopFree stops (before ++ text)) (htail : StopFree stops (text ++ new)) :
    StopFree stops (before ++ text ++ new) := by
  refine ⟨fun s hs h => ?_, fun q hq => ?_⟩
  · exact htail.1 s hs (infix_without (hstrs s hs) (hprev.1 s hs) h)
  · obtain ⟨hmax, hlen⟩ := hregexes q hq
    by_contra h
    rw [Bool.not_eq_false] at h
    have := Pattern.search_without hmax hlen (hprev.2 q hq) h
    rw [htail.2 q hq] at this
    cases this

theorem rtake_min_length {α : Type*} (l : List α) (n : ℕ) : l.rtake (min n l.length) = l.rtake n := by
  simp only [List.rtake]
  congr 1
  omega

theorem tailStr_appendToken (t : Token) (logits : LogitsRow) :
    (r.appendToken t logits).tailStr = r.textOf (r.watched ++ [t]) := by
  have hlen : min (max (r.samplingParams.stopStrMaxLen + 1)
      (r.samplingParams.stopRegexMaxLen + 1) + 1) (r.outputIds ++ [t]).length =
      min (max r.samplingParams.stopStrMaxLen r.samplingParams.stopRegexMaxLen + 1)
        r.outputIds.length + 1 := by
    rw [length_append, length_singleton]
    omega
  simp only [tailStr, appendToken_samplingParams, appendToken_outputIds]
  rw [hlen, rtake_concat_succ, rtake_min_length]
  rfl

theorem exists_append_watched (r : Req) : ∃ before, r.outputIds = before ++ r.watched :=
  ⟨_, (take_append_drop _ _).symm⟩

theorem stopFree_concat (hdecode : ∀ ids, r.textOf ids = ids.flatMap piece)
    (hcover : r.TailCovers stops)
    (hprev : r.outputIds = [] ∨ StopFree stops (r.textOf r.outputIds)) {t : Token}
    (htail : StopFree stops (r.textOf (r.watched ++ [t]))) :
    StopFree stops (r.textOf (r.outputIds ++ [t])) := by
  have hwhole : r.outputIds.length ≤
      max r.samplingParams.stopStrMaxLen r.samplingParams.stopRegexMaxLen + 1 →
      r.watched = r.outputIds := by
    intro hle
    rw [watched, ← rtake_min_length, min_eq_right hle, List.rtake, Nat.sub_self, drop_zero]
  rcases hcover with hle | ⟨hstrs, hregexes⟩
  · rw [← hwhole hle]
    exact htail
  · rcases hprev with hnil | hprev
    · rw [hwhole (by simp [hnil])] at htail
      exact htail
    · obtain ⟨before, hout⟩ := r.exists_append_watched
      rw [hdecode] at hstrs hregexes htail
      rw [hdecode, hout, flatMap_append] at hprev
      rw [hdecode, hout, flatMap_append, flatMap_append]
      rw [flatMap_append] at htail
      exact stopFree_append hstrs hregexes hprev htail

/-! ## Runs -/

/-- A request under generation: unless it has finished, its output holds no stop. -/
structure Watched (piece : Token → Text) (encode : Option (Text → List Token)) (stops : Stops)
    (r : Req) : Prop where
  decode : ∀ ids, r.textOf ids = ids.flatMap piece
  params : ∃ p, r.samplingParams = stops.normalize encode p
  stopFree : r.finished = false → r.outputIds = [] ∨ StopFree stops (r.textOf r.outputIds)

theorem textOf_decodeToken (t : Token) (logits : LogitsRow) :
    (r.decodeToken t logits).textOf = r.textOf := by
  have htok : (r.decodeToken t logits).tokenizer = r.tokenizer := by
    rw [decodeToken, checkFinished_eq]
    rfl
  funext ids
  simp only [textOf, htok]

theorem stopFree_tailStr {p : SamplingParams} (hparams : r.samplingParams = stops.normalize encode p)
    (h : r.checkFinished.finished = false) : StopFree stops r.tailStr := by
  have hstops : ¬ r.StopsOnText := by
    intro hstops
    have := (finished_checkFinished_iff r).mpr (.inr (.inr (.inr (.inr (.inr hstops)))))
    rw [h] at this
    cases this
  simp only [StopsOnText, not_or, hparams, Stops.normalize, find?_isSome] at hstops
  refine ⟨fun s hs hin => hstops.1 ⟨s, hs, by simp [hin]⟩, fun q hq => ?_⟩
  by_contra hfound
  rw [Bool.not_eq_false] at hfound
  exact hstops.2 ⟨q.toRegex, mem_map_of_mem hq, hfound⟩

/-- While the tail covers the stops, none slips into the output. -/
theorem Watched.generate {e : Token × LogitsRow} {r' : Req}
    (h : Watched piece encode stops r) (hcover : r.TailCovers stops)
    (hstep : r.generate e = .ok r') : Watched piece encode stops r' := by
  unfold Req.generate at hstep
  split_ifs at hstep with hfin
  cases hstep
  obtain ⟨p, hp⟩ := h.params
  refine ⟨fun ids => ?_, ⟨p, ?_⟩, fun hunfinished => .inr ?_⟩
  · rw [textOf_decodeToken]
    exact h.decode ids
  · rw [decodeToken, checkFinished_samplingParams, appendToken_samplingParams, hp]
  · have hsame : r.decodeToken e.1 e.2 = r.appendToken e.1 e.2 :=
      checkFinished_of_unfinished (by rw [← decodeToken, hunfinished]; exact Bool.false_ne_true)
    have htail := stopFree_tailStr (r := r.appendToken e.1 e.2) hp hunfinished
    rw [tailStr_appendToken] at htail
    rw [textOf_decodeToken, hsame, appendToken_outputIds]
    exact stopFree_concat h.decode hcover (h.stopFree (Bool.not_eq_true _ ▸ hfin)) htail

theorem watched_of_reachable
    (h : Reachable generate (Fresh piece encode stops) (fun r _ => r.TailCovers stops) r) :
    Watched piece encode stops r := by
  refine h.invariant ?_ ?_
  · intro r hfresh
    exact ⟨hfresh.decode, hfresh.params, fun _ => .inl hfresh.outputIds⟩
  · intro r e r' hr hcover hstep
    exact hr.generate hcover hstep

/-- While the tail covers what the next token can complete, generation never goes on with a stop
string or a match of a stop pattern in the output; and no match of a pattern is longer than
`get_max_seq_length`, unless that has reached `MAX_LEN`. -/
theorem stops_not_missed
    (h : Reachable generate (Fresh piece encode stops) (fun r _ => r.TailCovers stops) r) :
    (r.outputIds ≠ [] → r.finished = false → StopFree stops (r.outputIds.flatMap piece)) ∧
    ∀ q ∈ stops.regexes, ∀ text i, ∀ m ∈ q.tree.run text ⟨i, []⟩,
      m.pos ≤ i + q.tree.getMaxSeqLength ∨ Pattern.maxLen ≤ q.tree.getMaxSeqLength := by
  refine ⟨fun hne hfin => ?_, fun q _ text i m hm => ?_⟩
  · have hw := watched_of_reachable h
    rw [← hw.decode]
    exact (hw.stopFree hfin).resolve_left hne
  · rcases Nat.lt_or_ge q.tree.getMaxSeqLength Pattern.maxLen with hlt | hge
    · exact .inl (Pattern.advances_run hlt hm).2.1
    · exact .inr hge

/-! ## Two spellings of a stop string -/

def letterPiece (t : Token) : Text := [Char.ofNat t.toNat]

/-- A request whose tokenizer writes every stop string with one token. -/
def letterRequest (stops : Stops) : Req where
  rid := "r"
  originInputIds := []
  samplingParams := stops.normalize (some fun _ => [0]) {}
  tokenizer := some ⟨none, [], fun ids => ids.flatMap letterPiece⟩
  vocabSize := 256

def letters (text : String) : List (Token × LogitsRow) :=
  text.toList.map fun c => ((c.toNat : Token), (0 : LogitsRow))

/-- A stop string of three letters and the pattern `[0-9]{2}`. -/
def sampleStops : Stops where
  stopStrs := some ["END".toList]
  stopRegexStrs := some [⟨"[0-9]\x7b2\x7d".toList, .repeats true 2 (some 2) (.inSet Char.isDigit)⟩]

theorem stops_not_missed_sample :
    ∃ r, runEvents generate (letterRequest sampleStops) (letters "ab1cEN") = .ok r ∧
      r.finished = false ∧ StopFree sampleStops (r.outputIds.flatMap letterPiece) :=
  exists_runEvents_imp (p := fun _ => _ ∧ _) ⟨rfl, rfl, fun _ => rfl, ⟨_, rfl⟩⟩ (by decide +kernel)
    fun _ hreach ⟨hfin, hne⟩ => ⟨hfin, (stops_not_missed hreach).1 hne hfin⟩

/-- A stop string that the tokenizer writes with one token and the model with four. -/
theorem spelled_stop_missed :
    ∃ r, runEvents generate (letterRequest ⟨some ["STOP".toList], none⟩) (letters "STOP") = .ok r ∧
      r.finished = false ∧ "STOP".toList <:+: r.outputIds.flatMap letterPiece :=
  exists_runEvents (p := fun r : Req => r.finished = false ∧
    "STOP".toList <:+: r.outputIds.flatMap letterPiece) _ _ _ (by decide +kernel)

end Req

end LLM42
