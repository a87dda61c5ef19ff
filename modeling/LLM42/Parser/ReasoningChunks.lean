import LLM42.Library.Runs
import LLM42.Parser.Reasoning

/-! # Reasoning that comes in chunks

The calls of `parse_streaming_increment` on the chunks of a text, against the one call that gets
the whole text and against `detect_and_parse`. -/

namespace LLM42.Parser

open Library List

/-- The calls made so far: the text they were given and what they returned, joined. -/
structure Parse where
  detector : Detector
  seen : List Char := []
  result : StreamingParseResult := {}
  deriving DecidableEq

namespace Parse

def start (startTag endTag : List Char) (force stream : Bool) : Parse :=
  { detector := .init startTag endTag force stream none }

def feed (p : Parse) (chunk : List Char) : Parse :=
  let (r, d) := p.detector.parseStreamingIncrement chunk
  { detector := d
    seen := p.seen ++ chunk
    result := ⟨p.result.normalText ++ r.normalText, p.result.reasoningText ++ r.reasoningText⟩ }

def step (p : Parse) (chunk : List Char) : Except Empty Parse := .ok (p.feed chunk)

def out (p : Parse) : List Char := p.seen.take (p.seen.length - p.detector.buffer.length)

def single (startTag endTag : List Char) (force stream : Bool) (text : List Char) :
    StreamingParseResult :=
  ((Detector.init startTag endTag force stream none).parseStreamingIncrement text).1

def raw (p : Parse) (chunk : List Char) : List Char := p.detector.buffer ++ chunk

/-- The start tag is found in the first text that leaves the buffer or not at all. -/
def StartSpared (p : Parse) (chunk : List Char) : Prop :=
  p.out = [] ∨ (¬ p.detector.thinkStartToken <:+: p.raw chunk ∧
    ¬ Crosses p.detector.thinkStartToken p.out (p.raw chunk))
deriving Decidable

/-- No end tag begins in reasoning that was already returned and no space that stands before the
end tag was already returned; while the buffer still holds a start tag that an earlier call has
found, no end tag comes. -/
def EndSpared (p : Parse) (chunk : List Char) : Prop :=
  ¬ Crosses p.detector.thinkEndToken p.result.reasoningText (p.raw chunk) ∧
  (p.result.reasoningText.rdropWhile isSpace = p.result.reasoningText ∨
    ∀ c ∈ (p.raw chunk).dropInfix? p.detector.thinkEndToken, c.1.rdropWhile isSpace ≠ []) ∧
  (p.detector.streamReasoning = false → p.detector.strippedThinkStart = true →
    ¬ p.detector.thinkEndToken <:+: p.raw chunk ∧
    ¬ p.detector.thinkEndToken <:+: eraseAll p.detector.thinkStartToken (p.raw chunk))
deriving Decidable

/-- The chunk only fills the buffer, or the cut before it spares the tags. -/
def CutsClean (p : Parse) (chunk : List Char) : Prop :=
  p.detector.holdsBack (p.raw chunk) = true ∨
    (p.StartSpared chunk ∧ (p.detector.inReasoning = true → p.EndSpared chunk))
deriving Decidable

end Parse

/-! ## What a call does -/

namespace Parse

variable {p : Parse} {chunk : List Char}

@[simp] theorem seen_feed (p : Parse) (chunk : List Char) :
    (p.feed chunk).seen = p.seen ++ chunk := rfl

theorem detector_feed (p : Parse) (chunk : List Char) :
    ∃ buffer stripped inReasoning, (p.feed chunk).detector = { p.detector with
      buffer := buffer, strippedThinkStart := stripped, inReasoning := inReasoning } := by
  simp only [feed, Detector.parseStreamingIncrement]
  split
  · exact ⟨_, _, _, rfl⟩
  · split
    · split
      · exact ⟨_, _, _, rfl⟩
      · split
        · exact ⟨_, _, _, rfl⟩
        · exact ⟨_, _, _, rfl⟩
    · exact ⟨_, _, _, rfl⟩

@[simp] theorem thinkStartToken_feed (p : Parse) (chunk : List Char) :
    (p.feed chunk).detector.thinkStartToken = p.detector.thinkStartToken := by
  obtain ⟨_, _, _, h⟩ := detector_feed p chunk
  rw [h]

@[simp] theorem thinkEndToken_feed (p : Parse) (chunk : List Char) :
    (p.feed chunk).detector.thinkEndToken = p.detector.thinkEndToken := by
  obtain ⟨_, _, _, h⟩ := detector_feed p chunk
  rw [h]

@[simp] theorem streamReasoning_feed (p : Parse) (chunk : List Char) :
    (p.feed chunk).detector.streamReasoning = p.detector.streamReasoning := by
  obtain ⟨_, _, _, h⟩ := detector_feed p chunk
  rw [h]

theorem holdsBack_feed (p : Parse) (chunk u : List Char) :
    (p.feed chunk).detector.holdsBack u = p.detector.holdsBack u := by
  simp [Detector.holdsBack]

theorem feed_of_held (h : p.detector.holdsBack (p.raw chunk) = true) : p.feed chunk = { p with
      detector := { p.detector with buffer := p.raw chunk }, seen := p.seen ++ chunk } := by
  simp only [raw] at h
  simp [feed, Detector.parseStreamingIncrement, h, raw]

section

variable (h : p.detector.holdsBack (p.raw chunk) = false)

include h

theorem feed_normal
    (hin : p.detector.inReasoning = false) (hopen : p.detector.opens (p.raw chunk) = false) :
    p.feed chunk =
      { detector := { p.detector with buffer := [] }
        seen := p.seen ++ chunk
        result := { p.result with normalText := p.result.normalText ++ p.raw chunk } } := by
  simp only [raw] at h hopen
  simp [feed, Detector.parseStreamingIncrement, Detector.stripStart, h, hin, hopen, raw]

variable (hin : (p.detector.inReasoning || p.detector.opens (p.raw chunk)) = true)

include hin

theorem feed_end {b a : List Char}
    (hcut : (p.detector.stripStart (p.raw chunk)).dropInfix? p.detector.thinkEndToken =
      some (b, a)) :
    p.feed chunk =
      { detector := { p.detector with
          buffer := []
          strippedThinkStart := p.detector.strippedThinkStart || p.detector.opens (p.raw chunk)
          inReasoning := false }
        seen := p.seen ++ chunk
        result := ⟨p.result.normalText ++ a, p.result.reasoningText ++ b.rdropWhile isSpace⟩ } := by
  simp only [raw] at h hin hcut
  simp only [feed, Detector.parseStreamingIncrement, h, hin, hcut, raw, if_true,
    Bool.false_eq_true, if_false]

variable (hcut : (p.detector.stripStart (p.raw chunk)).dropInfix? p.detector.thinkEndToken = none)

include hcut

theorem feed_inside (hstream : p.detector.streamReasoning = true) : p.feed chunk =
      { detector := { p.detector with
          buffer := []
          strippedThinkStart := p.detector.strippedThinkStart || p.detector.opens (p.raw chunk)
          inReasoning := true }
        seen := p.seen ++ chunk
        result := { p.result with
          reasoningText := p.result.reasoningText ++ p.detector.stripStart (p.raw chunk) } } := by
  simp only [raw] at h hin hcut
  simp [feed, Detector.parseStreamingIncrement, h, hin, hcut, raw, hstream]

theorem feed_waiting (hstream : p.detector.streamReasoning = false) : p.feed chunk =
      { p with
        detector := { p.detector with
          buffer := p.raw chunk
          strippedThinkStart := p.detector.strippedThinkStart || p.detector.opens (p.raw chunk)
          inReasoning := true }
        seen := p.seen ++ chunk } := by
  simp only [raw] at h hin hcut
  simp [feed, Detector.parseStreamingIncrement, h, hin, hcut, raw, hstream]

end

/-! ## The phases of a parse -/

theorem out_of_seen {o : List Char} (h : p.seen = o ++ p.detector.buffer) : p.out = o := by
  simp [out, h]

section Phases

variable (startTag endTag : List Char) (force stream : Bool)

/-- Where a parse stands, by the text that has left the buffer. -/
inductive Phase (p : Parse) : Prop
  | before : force = false → p.detector.inReasoning = false →
      p.detector.strippedThinkStart = false → p.detector.holdsBack p.detector.buffer = true →
      ¬ startTag <:+: p.out → p.result = ⟨p.out, []⟩ → Phase p
  | inside : stream = true → p.detector.inReasoning = true →
      (p.detector.strippedThinkStart = true → startTag <:+: p.out) →
      (force = true ∨ startTag <:+: p.out) → p.detector.holdsBack p.detector.buffer = true →
      ¬ endTag <:+: eraseAll startTag p.out → p.result = ⟨[], eraseAll startTag p.out⟩ → Phase p
  | waiting : stream = false → p.detector.inReasoning = true → p.out = [] →
      (p.detector.strippedThinkStart = false → force = true) →
      (p.detector.strippedThinkStart = true → startTag <:+: p.detector.buffer) →
      (p.detector.holdsBack p.detector.buffer = true ∨
        ¬ endTag <:+: eraseAll startTag p.detector.buffer) → p.result = {} → Phase p
  | after {b a : List Char} : p.detector.inReasoning = false →
      (eraseAll startTag p.out).dropInfix? endTag = some (b, a) →
      (force = true ∨ startTag <:+: p.out) → p.detector.holdsBack p.detector.buffer = true →
      p.result = ⟨a, b.rdropWhile isSpace⟩ → Phase p

/-- The parse follows the text it was given. -/
structure Follows (p : Parse) : Prop where
  startTag_eq : p.detector.thinkStartToken = startTag
  endTag_eq : p.detector.thinkEndToken = endTag
  stream_eq : p.detector.streamReasoning = stream
  seen_eq : p.seen = p.out ++ p.detector.buffer
  -- the first text that left the buffer was not the beginning of a tag
  settled : p.out = [] ∨ p.detector.holdsBack p.out = false
  phase : Phase startTag endTag force stream p

variable {startTag endTag force stream}

theorem follows_start (hstart : startTag ≠ []) (hend : endTag ≠ []) :
    Follows startTag endTag force stream (start startTag endTag force stream) where
  startTag_eq := rfl
  endTag_eq := rfl
  stream_eq := rfl
  seen_eq := rfl
  settled := .inl rfl
  phase := by
    have hheld : (start startTag endTag force stream).detector.holdsBack [] = true :=
      Detector.holdsBack_iff.mpr (.inl ⟨List.nil_prefix, hstart⟩)
    have hin : (start startTag endTag force stream).detector.inReasoning = force := by
      simp [start, Detector.init, hstart, hend]
    cases force with
    | false =>
      exact .before rfl hin rfl hheld (by simpa [start, out] using hstart) rfl
    | true =>
      cases stream with
      | true =>
        exact .inside rfl hin Bool.noConfusion (.inl rfl) hheld (by simpa [start, out] using hend) rfl
      | false => exact .waiting rfl hin rfl (fun _ => rfl) Bool.noConfusion (.inl hheld) rfl

section

variable (h : Follows startTag endTag force stream p)

include h

theorem Follows.feed_of_phase {q : Parse} {o : List Char} (hfeed : p.feed chunk = q)
    (hbuf : q.detector.buffer = p.raw chunk ∧ o = p.out ∨ q.detector.buffer = [] ∧
      o = p.out ++ p.raw chunk ∧ p.detector.holdsBack (p.raw chunk) = false)
    (hphase : q.out = o → Phase startTag endTag force stream q) :
    Follows startTag endTag force stream (p.feed chunk) := by
  have hseen : (p.feed chunk).seen = o ++ (p.feed chunk).detector.buffer := by
    rw [seen_feed, h.seen_eq, append_assoc, hfeed]
    rcases hbuf with ⟨hbuf, rfl⟩ | ⟨hbuf, rfl, -⟩
    · rw [hbuf, raw]
    · rw [hbuf, raw, append_nil]
  have hout := out_of_seen hseen
  refine ⟨by simp [h.startTag_eq], by simp [h.endTag_eq], by simp [h.stream_eq], by rwa [hout], ?_,
    hfeed ▸ hphase (hfeed ▸ hout)⟩
  rw [hout, holdsBack_feed]
  rcases hbuf with ⟨-, rfl⟩ | ⟨-, rfl, hraw⟩
  · exact h.settled
  · right
    rcases h.settled with hout | hout
    · rw [hout, nil_append, hraw]
    · by_contra hheld
      rw [Bool.not_eq_false] at hheld
      rw [Detector.holdsBack_of_append hheld] at hout
      cases hout

theorem Follows.holdsBack_nil (hstart : startTag ≠ []) : p.detector.holdsBack [] = true := by
  rw [Detector.holdsBack_iff, h.startTag_eq]
  exact .inl ⟨List.nil_prefix, hstart⟩

theorem Follows.feed_held (hheld : p.detector.holdsBack (p.raw chunk) = true) :
    Follows startTag endTag force stream (p.feed chunk) := by
  refine h.feed_of_phase (feed_of_held hheld) (.inl ⟨rfl, rfl⟩) fun hout => ?_
  rcases h.phase with
    ⟨hforce, hin, hstr, -, hnot, hr⟩ | ⟨hstream, hin, hfound, hopen, -, hnot, hr⟩ |
    ⟨hstream, hin, ho, hforce, hfound, -, hr⟩ | ⟨hin, hcut, hopen, -, hr⟩
  · exact .before hforce hin hstr hheld (hout ▸ hnot) (hout ▸ hr)
  · exact .inside hstream hin (by rwa [hout]) (by rwa [hout]) hheld (by rwa [hout]) (hout ▸ hr)
  · refine .waiting hstream hin (hout.trans ho) hforce (fun hs => ?_) (.inl hheld) hr
    exact (hfound hs).trans (prefix_append _ _).isInfix
  · exact .after hin (by rwa [hout]) (by rwa [hout]) hheld hr

section

variable (hstart : startTag ≠ []) (hheld : p.detector.holdsBack (p.raw chunk) = false)

include hheld

theorem Follows.feed_waiting
    (hend : p.EndSpared chunk) (hstream : stream = false) (hin : p.detector.inReasoning = true)
    (hstr : p.detector.strippedThinkStart = true) :
    Follows startTag endTag force stream (p.feed chunk) := by
  subst hstream
  obtain ⟨hout, hfound, hr⟩ : p.out = [] ∧ startTag <:+: p.detector.buffer ∧ p.result = {} := by
    rcases h.phase with ⟨-, hin', -⟩ | ⟨hfalse, -⟩ | ⟨-, -, hout, -, hfound, -, hr⟩ | ⟨hin', -⟩
    · simp [hin] at hin'
    · cases hfalse
    · exact ⟨hout, hfound hstr, hr⟩
    · simp [hin] at hin'
  obtain ⟨hno, hno'⟩ := hend.2.2 h.stream_eq hstr
  rw [h.startTag_eq, h.endTag_eq] at hno'
  have htext : p.detector.stripStart (p.raw chunk) = p.raw chunk := by
    simp [Detector.stripStart, Detector.opens, hstr]
  have hfeed := feed_waiting hheld (by rw [hin, Bool.true_or])
    (by rw [htext, dropInfix?_eq_none.mpr hno]) h.stream_eq
  refine h.feed_of_phase hfeed (.inl ⟨rfl, rfl⟩) fun hout' => .waiting rfl rfl (hout'.trans hout)
    (by simp [hstr]) (fun _ => ?_) (.inr hno') hr
  exact hfound.trans (prefix_append _ _).isInfix

include hstart

theorem Follows.feed_first (hout : p.out = [])
    (hfresh : p.detector.strippedThinkStart = false) (hforce : p.detector.inReasoning = force)
    (hres : p.result = {}) : Follows startTag endTag force stream (p.feed chunk) := by
  have htext := Detector.stripStart_of_fresh hfresh (p.raw chunk)
  rw [h.startTag_eq] at htext
  have hopens : p.detector.opens (p.raw chunk) = true ↔ startTag <:+: p.raw chunk := by
    simp [Detector.opens, hfresh, h.startTag_eq]
  have hempty := h.holdsBack_nil hstart
  have hraw : p.raw chunk = p.out ++ p.raw chunk := by rw [hout, nil_append]
  cases hin : (p.detector.inReasoning || p.detector.opens (p.raw chunk)) with
  | false =>
    rw [Bool.or_eq_false_iff] at hin
    refine h.feed_of_phase (feed_normal hheld hin.1 hin.2) (.inr ⟨rfl, hraw, hheld⟩)
      fun hout => .before (hforce ▸ hin.1) hin.1 hfresh hempty ?_ ?_
    · rw [hout, ← hopens, hin.2]
      exact Bool.false_ne_true
    · rw [hout, hres]
      rfl
  | true =>
    have hopen : force = true ∨ startTag <:+: p.raw chunk := by
      rw [← hopens, ← hforce]
      simpa using hin
    cases hcut : (eraseAll startTag (p.raw chunk)).dropInfix? endTag with
    | some c =>
      obtain ⟨b, a⟩ := c
      have hfeed := feed_end hheld hin (b := b) (a := a) (by rw [htext, h.endTag_eq, hcut])
      refine h.feed_of_phase hfeed (.inr ⟨rfl, hraw, hheld⟩) fun hout =>
        .after (b := b) (a := a) rfl (by rw [hout, hcut]) (by rwa [hout]) hempty ?_
      rw [hres]
      rfl
    | none =>
      have hnot := dropInfix?_eq_none.mp hcut
      have hcut' : (p.detector.stripStart (p.raw chunk)).dropInfix? p.detector.thinkEndToken =
          none := by rw [htext, h.endTag_eq, hcut]
      cases hstream : stream with
      | true =>
        subst hstream
        refine h.feed_of_phase (feed_inside hheld hin hcut' h.stream_eq) (.inr ⟨rfl, hraw, hheld⟩)
          fun hout => .inside rfl rfl ?_ (by rwa [hout]) hempty (by rwa [hout]) ?_
        · rw [hout]
          simpa [hfresh] using hopens.mp
        · rw [hout, hres, htext]
          rfl
      | false =>
        subst hstream
        refine h.feed_of_phase (Parse.feed_waiting hheld hin hcut' h.stream_eq) (.inl ⟨rfl, rfl⟩)
          fun hout' => .waiting rfl rfl (hout'.trans hout) (fun hs => ?_) (fun hs => ?_)
            (.inr hnot) hres
        · simp only [hfresh, Bool.false_or] at hs
          exact hopen.resolve_right (by rw [← hopens, hs]; exact Bool.false_ne_true)
        · simp only [hfresh, Bool.false_or] at hs
          exact hopens.mp hs

variable (hnot : ¬ startTag <:+: p.raw chunk) (hcross : ¬ Crosses startTag p.out (p.raw chunk))

include hnot hcross

theorem Follows.feed_normal (hin : p.detector.inReasoning = false) :
    Follows startTag endTag force stream (p.feed chunk) := by
  have hfeed := Parse.feed_normal hheld hin (Detector.opens_of_absent (by rwa [h.startTag_eq]))
  have hempty := h.holdsBack_nil hstart
  refine h.feed_of_phase hfeed (.inr ⟨rfl, rfl, hheld⟩) fun hout => ?_
  rcases h.phase with
    ⟨hforce, -, hstr, -, hnot', hr⟩ | ⟨-, hin', -⟩ | ⟨-, hin', -⟩ | ⟨-, hcut, hopen, -, hr⟩
  · refine .before hforce hin hstr hempty ?_ (by rw [hout, hr])
    rw [hout]
    intro hinf
    rcases infix_append_cases hinf with h1 | h1 | h1
    · exact hnot' h1
    · exact hnot h1
    · exact hcross h1
  · simp [hin] at hin'
  · simp [hin] at hin'
  · refine .after hin ?_ ?_ hempty (by rw [hr])
    · rw [hout, eraseAll_append hnot hcross]
      exact dropInfix?_append_right hcut _
    · rw [hout]
      exact hopen.imp id fun hs => hs.trans (prefix_append _ _).isInfix

theorem Follows.feed_inside
    (hend : p.EndSpared chunk) (hstream : stream = true) (hin : p.detector.inReasoning = true) :
    Follows startTag endTag force stream (p.feed chunk) := by
  subst hstream
  obtain ⟨hstr, hopen, hno, hr⟩ : (p.detector.strippedThinkStart = true → startTag <:+: p.out) ∧
      (force = true ∨ startTag <:+: p.out) ∧ ¬ endTag <:+: eraseAll startTag p.out ∧
      p.result = ⟨[], eraseAll startTag p.out⟩ := by
    rcases h.phase with
      ⟨-, hin', -⟩ | ⟨-, -, hstr, hopen, -, hno, hr⟩ | ⟨hfalse, -⟩ | ⟨hin', -⟩
    · simp [hin] at hin'
    · exact ⟨hstr, hopen, hno, hr⟩
    · cases hfalse
    · simp [hin] at hin'
  obtain ⟨hend, hspace, -⟩ := hend
  have hres : p.result.reasoningText = eraseAll startTag p.out := by rw [hr]
  rw [hres, h.endTag_eq] at hend hspace
  have hnot' : ¬ p.detector.thinkStartToken <:+: p.raw chunk := by rwa [h.startTag_eq]
  have htext := Detector.stripStart_of_absent hnot'
  have hopens := Detector.opens_of_absent hnot'
  have hin' : (p.detector.inReasoning || p.detector.opens (p.raw chunk)) = true := by
    rw [hin, Bool.true_or]
  have hempty := h.holdsBack_nil hstart
  have herase := eraseAll_append hnot hcross
  have hlater : startTag <:+: p.out → startTag <:+: p.out ++ p.raw chunk :=
    fun hs => hs.trans (prefix_append _ _).isInfix
  cases hcut : (p.raw chunk).dropInfix? endTag with
  | some c =>
    obtain ⟨b, a⟩ := c
    have hfeed := feed_end hheld hin' (b := b) (a := a) (by rw [htext, h.endTag_eq, hcut])
    refine h.feed_of_phase hfeed (.inr ⟨rfl, rfl, hheld⟩) fun hout =>
      .after (b := eraseAll startTag p.out ++ b) (a := a) rfl ?_ ?_ hempty ?_
    · rw [hout, herase]
      exact dropInfix?_append_left hno hend hcut
    · rw [hout]
      exact hopen.imp id hlater
    · -- the space before the end tag is all in this call, or there was none before
      have hstrip : (eraseAll startTag p.out ++ b).rdropWhile isSpace =
          eraseAll startTag p.out ++ b.rdropWhile isSpace := by
        by_cases hb : b.rdropWhile isSpace = []
        · rw [rdropWhile_append_of_eq_nil _ hb, hb, append_nil]
          exact hspace.resolve_right fun hall => hall _ hcut hb
        · exact rdropWhile_append_of_ne_nil _ hb
      rw [hr, hstrip, nil_append]
  | none =>
    have hfeed := feed_inside hheld hin' (by rw [htext, h.endTag_eq, hcut]) h.stream_eq
    refine h.feed_of_phase hfeed (.inr ⟨rfl, rfl, hheld⟩) fun hout =>
      .inside rfl rfl ?_ ?_ hempty ?_ ?_
    · rw [hout, hopens, Bool.or_false]
      exact fun hs => hlater (hstr hs)
    · rw [hout]
      exact hopen.imp id hlater
    · rw [hout, herase]
      intro hinf
      rcases infix_append_cases hinf with h1 | h1 | h1
      · exact hno h1
      · exact dropInfix?_eq_none.mp hcut h1
      · exact hend h1
    · rw [hout, hr, herase, htext]

end

/-- A chunk that cuts no tag keeps the parser in step with the whole text. -/
theorem Follows.feed (hstart : startTag ≠ []) (hend : endTag ≠ []) (hclean : p.CutsClean chunk) :
    Follows startTag endTag force stream (p.feed chunk) := by
  cases hheld : p.detector.holdsBack (p.raw chunk) with
  | true => exact h.feed_held hheld
  | false =>
    obtain ⟨hspared, hends⟩ := hclean.resolve_left (by simp [hheld])
    rw [StartSpared, h.startTag_eq] at hspared
    rcases h.phase with
      ⟨hforce, hin, hstr, -, -, hr⟩ | ⟨hstream, hin, hstr, hopen, -, -, hr⟩ |
      ⟨hstream, hin, hout, hforce, hfound, -, hr⟩ | ⟨hin, hcut, -⟩
    · rcases hspared with hout | ⟨hnot, hcross⟩
      · exact h.feed_first hstart hheld hout hstr (hin.trans hforce.symm) (by rw [hr, hout])
      · exact h.feed_normal hstart hheld hnot hcross hin
    · rcases hspared with hout | ⟨hnot, hcross⟩
      · have hnone : ¬ startTag <:+: p.out := by simpa [hout] using hstart
        refine h.feed_first hstart hheld hout ?_ ?_ (by rw [hr, hout]; rfl)
        · exact Bool.not_eq_true _ ▸ mt hstr hnone
        · rw [hin, hopen.resolve_right hnone]
      · exact h.feed_inside hstart hheld hnot hcross (hends hin) hstream hin
    · cases hstr : p.detector.strippedThinkStart with
      | true => exact h.feed_waiting hheld (hends hin) hstream hin hstr
      | false =>
        exact h.feed_first hstart hheld hout hstr (by rw [hin, hforce hstr]) hr
    · have hout : p.out ≠ [] := by
        intro hout
        obtain ⟨hnil, -⟩ := dropInfix?_eq_some.mp hcut
        simp [hout, hend] at hnil
      obtain ⟨hnot, hcross⟩ := hspared.resolve_left hout
      exact h.feed_normal hstart hheld hnot hcross hin

end

/-! ## The whole text at once -/

theorem single_eq (hstart : startTag ≠ []) (hend : endTag ≠ []) (text : List Char) :
    single startTag endTag force stream text =
      if (Detector.init startTag endTag force stream none).holdsBack text then {}
      else if force = true ∨ startTag <:+: text then
        match (eraseAll startTag text).dropInfix? endTag with
        | some (b, a) => ⟨a, b.rdropWhile isSpace⟩
        | none => if stream then ⟨[], eraseAll startTag text⟩ else {}
      else ⟨text, []⟩ := by
  unfold single
  set d := Detector.init startTag endTag force stream none
  have hin : d.inReasoning = force := Detector.inReasoning_init hstart hend
  have hopens : d.opens text = decide (startTag <:+: text) := by
    simp [d, Detector.opens, Detector.init]
  have hstrip : d.stripStart text = eraseAll startTag text := Detector.stripStart_of_fresh rfl text
  have hbuf : d.buffer ++ text = text := rfl
  have hend' : d.thinkEndToken = endTag := rfl
  have hstream : d.streamReasoning = stream := rfl
  simp only [Detector.parseStreamingIncrement, hbuf, hin, hopens, hstrip, hend', hstream,
    Bool.or_eq_true, decide_eq_true_eq, apply_ite Prod.fst]
  split_ifs with hheld hopen hs
  · rfl
  · cases (eraseAll startTag text).dropInfix? endTag
    · rfl
    · rfl
  · cases (eraseAll startTag text).dropInfix? endTag
    · rfl
    · rfl
  · rw [eraseAll_of_absent fun hs => hopen (.inr hs)]

theorem Follows.result_of_out_eq_nil (hend : endTag ≠ [])
    (h : Follows startTag endTag force stream p) (hout : p.out = []) : p.result = {} := by
  rcases h.phase with ⟨-, -, -, -, -, hr⟩ | ⟨-, -, -, -, -, -, hr⟩ | ⟨-, -, -, -, -, -, hr⟩ |
    ⟨-, hcut, -⟩
  · rw [hr, hout]
  · rw [hr, hout, eraseAll_nil]
  · exact hr
  · obtain ⟨hnil, -⟩ := dropInfix?_eq_some.mp hcut
    simp [hout, hend] at hnil

theorem Follows.result_eq_single (hstart : startTag ≠ []) (hend : endTag ≠ [])
    (h : Follows startTag endTag force stream p) (hempty : p.out = [] ∨ p.detector.buffer = []) :
    p.result = single startTag endTag force stream p.seen := by
  have hholds : ∀ u, (Detector.init startTag endTag force stream none).holdsBack u =
      p.detector.holdsBack u := by
    intro u
    simp [Detector.holdsBack, h.startTag_eq, h.endTag_eq, Detector.init]
  rw [single_eq hstart hend, hholds]
  cases hheld : p.detector.holdsBack p.seen with
  | true =>
    -- then nothing has left the buffer
    rw [if_pos rfl]
    refine h.result_of_out_eq_nil hend (h.settled.resolve_right fun hout => ?_)
    rw [h.seen_eq] at hheld
    rw [Detector.holdsBack_of_append hheld] at hout
    cases hout
  | false =>
    rw [if_neg Bool.false_ne_true]
    have hbuf : p.detector.holdsBack p.detector.buffer = true → p.seen = p.out := by
      intro hb
      rcases hempty with hout | hbuf
      · rw [h.seen_eq, hout, nil_append, hb] at hheld
        cases hheld
      · rw [h.seen_eq, hbuf, append_nil]
    rcases h.phase with
      ⟨hforce, -, -, hb, hnot, hr⟩ | ⟨hstream, -, -, hopen, hb, hnot, hr⟩ |
      ⟨hstream, -, hout, hforce, hfound, hnot, hr⟩ | ⟨-, hcut, hopen, hb, hr⟩
    · rw [hbuf hb, if_neg (by simp [hforce, hnot]), hr]
    · rw [hbuf hb, if_pos hopen, dropInfix?_eq_none.mpr hnot, hr]
      simp [hstream]
    · have hseen : p.seen = p.detector.buffer := by rw [h.seen_eq, hout, nil_append]
      have hopen : force = true ∨ startTag <:+: p.seen := by
        cases hstr : p.detector.strippedThinkStart with
        | false => exact .inl (hforce hstr)
        | true => exact .inr (hseen ▸ hfound hstr)
      have hnot' := hnot.resolve_left (by rw [← hseen, hheld]; exact Bool.false_ne_true)
      rw [if_pos hopen, hseen, dropInfix?_eq_none.mpr hnot', hr]
      simp [hstream]
    · rw [hbuf hb, if_pos hopen, hcut, hr]

/-- The two parts agree up to the white space around them. -/
def AgreeUpToSpace (r r' : StreamingParseResult) : Prop :=
  strip isSpace r.normalText = strip isSpace r'.normalText ∧
    strip isSpace r.reasoningText = strip isSpace r'.reasoningText

theorem Follows.agree_detectAndParse (hstart : startTag ≠ []) (hend : endTag ≠ [])
    (hhead : endTag.dropWhile isSpace = endTag) (hlast : endTag.rdropWhile isSpace = endTag)
    (h : Follows startTag endTag force stream p) (hbuf : p.detector.buffer = []) :
    AgreeUpToSpace p.result
      ((Detector.init startTag endTag force stream none).detectAndParse p.seen) := by
  have hseen : p.seen = p.out := by rw [h.seen_eq, hbuf, append_nil]
  rw [Detector.detectAndParse_eq hstart hend, hseen]
  rcases h.phase with
    ⟨hforce, -, -, hb, hnot, hr⟩ | ⟨hstream, -, -, hopen, hb, hnot, hr⟩ |
    ⟨-, -, hout, -, -, -, hr⟩ | ⟨-, hcut, hopen, hb, hr⟩
  · rw [if_neg (by simp [hforce, hnot]), hr]
    exact ⟨rfl, rfl⟩
  · have hnot' : ¬ endTag <:+: strip isSpace (eraseAll startTag p.out) :=
      fun hinf => hnot (hinf.trans (strip_isInfix _ _))
    rw [if_pos hopen, dropInfix?_eq_none.mpr hnot', hr]
    exact ⟨rfl, (strip_strip _ _).symm⟩
  · have hnone : (strip isSpace (eraseAll startTag p.out)).dropInfix? endTag = none := by
      rw [hout, eraseAll_nil, strip_nil]
      exact dropInfix?_eq_none.mpr (by simpa using hend)
    rw [hnone, hr, hout, eraseAll_nil]
    split_ifs
    · exact ⟨rfl, rfl⟩
    · exact ⟨rfl, rfl⟩
  · obtain ⟨htext, hfirst⟩ := dropInfix?_eq_some.mp hcut
    rename_i b a
    have hstrip : (strip isSpace (eraseAll startTag p.out)).dropInfix? endTag =
        some (b.dropWhile isSpace, a.rdropWhile isSpace) := by
      rw [htext, strip_around hend hhead hlast]
      refine dropInfix?_eq_some.mpr ⟨rfl, ?_⟩
      -- what is left of the text before the tag is an end of it
      rw [← takeWhile_append_dropWhile (p := isSpace) (l := b)] at hfirst
      exact hfirst.of_append
    rw [if_pos hopen, hstrip, hr]
    refine ⟨?_, ?_⟩
    · rw [strip_strip, strip_rdropWhile]
    · rw [strip_rdropWhile, strip_dropWhile]

theorem follows_of_reachable (hstart : startTag ≠ []) (hend : endTag ≠ [])
    (h : Reachable step (· = start startTag endTag force stream) CutsClean p) :
    Follows startTag endTag force stream p := by
  refine h.invariant ?_ ?_
  · rintro p rfl
    exact follows_start hstart hend
  · rintro p chunk q hp hclean heq
    cases heq
    exact hp.feed hstart hend hclean

/-- However the text is cut into chunks, as long as the cuts spare the tags: unless text is held
back behind text already returned, the calls have returned what the call on the whole text
returns; with an empty buffer that is, up to white space, what `detect_and_parse` returns, when
the end tag has no white space at its ends. -/
theorem chunks_agree (hstart : startTag ≠ []) (hend : endTag ≠ [])
    (h : Reachable step (· = start startTag endTag force stream) CutsClean p) :
    ((p.out = [] ∨ p.detector.buffer = []) →
      p.result = single startTag endTag force stream p.seen) ∧
    (p.detector.buffer = [] → endTag.dropWhile isSpace = endTag →
      endTag.rdropWhile isSpace = endTag → AgreeUpToSpace p.result
        ((Detector.init startTag endTag force stream none).detectAndParse p.seen)) := by
  have hfollows := follows_of_reachable hstart hend h
  refine ⟨fun hempty => hfollows.result_eq_single hstart hend hempty, ?_⟩
  intro hbuf hhead hlast
  exact hfollows.agree_detectAndParse hstart hend hhead hlast hbuf

end Phases

def thoughtScript : List (List Char) :=
  ["<thi".toList, "nk>a b".toList, "</thin".toList, "k> c".toList]

theorem chunks_agree_thoughtScript :
    ∃ p, runEvents step (start "<think>".toList "</think>".toList false true) thoughtScript =
        .ok p ∧ p.result = ⟨" c".toList, "a b".toList⟩ ∧
      p.result = single "<think>".toList "</think>".toList false true p.seen ∧
      AgreeUpToSpace p.result
        ((Detector.init "<think>".toList "</think>".toList false true none).detectAndParse
          p.seen) :=
  exists_runEvents_imp (p := fun p => p.detector.buffer = [] ∧ _) (by rfl) (by decide +kernel)
    fun _ hreach ⟨hbuf, hres⟩ =>
      have ⟨hsingle, hdetect⟩ := chunks_agree (by decide) (by decide) hreach
      ⟨hres, hsingle (.inr hbuf), hdetect hbuf (by decide +kernel) (by decide +kernel)⟩

/-- The end tag is cut, with reasoning before the cut in the same chunk: that beginning of the tag
is returned as reasoning, and the answer as well. -/
theorem cut_end_tag_missed :
    ∃ p, runEvents step (start "<think>".toList "</think>".toList false true)
        ["<think>abc</th".toList, "ink>def".toList] = .ok p ∧
      p.result = ⟨[], "abc</think>def".toList⟩ ∧
      single "<think>".toList "</think>".toList false true p.seen = ⟨"def".toList, "abc".toList⟩ :=
  exists_runEvents (p := fun p : Parse => p.result = ⟨[], "abc</think>def".toList⟩ ∧
    single "<think>".toList "</think>".toList false true p.seen = ⟨"def".toList, "abc".toList⟩)
    _ _ _ (by decide +kernel)

end Parse
end LLM42.Parser
