import LLM42.Library.Substring

/-! # The reasoning parser

`BaseReasoningFormatDetector` splits the output of a model into its reasoning and its answer, for
a whole text (`detect_and_parse`) or chunk by chunk (`parse_streaming_increment`). -/

namespace LLM42.Parser

open Library

def isSpace (c : Char) : Bool :=
  (9 ≤ c.toNat && c.toNat ≤ 13) || (28 ≤ c.toNat && c.toNat ≤ 32) || c.toNat == 0x85 ||
    c.toNat == 0xa0 || c.toNat == 0x1680 || (0x2000 ≤ c.toNat && c.toNat ≤ 0x200a) ||
    c.toNat == 0x2028 || c.toNat == 0x2029 || c.toNat == 0x202f || c.toNat == 0x205f ||
    c.toNat == 0x3000

structure StreamingParseResult where
  normalText : List Char := []
  reasoningText : List Char := []
  deriving DecidableEq

structure Detector where
  thinkStartToken : List Char
  thinkEndToken : List Char
  inReasoning : Bool
  streamReasoning : Bool
  buffer : List Char := []
  strippedThinkStart : Bool := false
  previousContent : List Char := []
  deriving DecidableEq

namespace Detector

/-- `previous` is `previous_content` where `continue_final_message` is set. -/
def init (thinkStartToken thinkEndToken : List Char) (forceReasoning streamReasoning : Bool)
    (previous : Option (List Char)) : Detector :=
  let previousContent := previous.getD []
  { thinkStartToken
    thinkEndToken
    inReasoning := if thinkEndToken <:+: previousContent then false
      else if thinkStartToken <:+: previousContent then true
      else forceReasoning
    streamReasoning
    previousContent }

def detectAndParse (d : Detector) (text : List Char) : StreamingParseResult :=
  if d.inReasoning || d.thinkStartToken <:+: text then
    let processedText := strip isSpace (eraseAll d.thinkStartToken text)
    match processedText.dropInfix? d.thinkEndToken with
    | some (reasoning, normal) =>
      { normalText := strip isSpace normal, reasoningText := reasoning }
    | none =>
      -- the end tag may already stand in the message that is continued
      if d.thinkEndToken <:+: d.previousContent then { normalText := processedText }
      else { reasoningText := processedText }
  else { normalText := text }

/-- The text may turn out to be the beginning of a tag. -/
def holdsBack (d : Detector) (currentText : List Char) : Bool :=
  [d.thinkStartToken, d.thinkEndToken].any fun token =>
    currentText <+: token && token != currentText

/-- The start tag is looked for until it has been found once. -/
def opens (d : Detector) (currentText : List Char) : Bool :=
  !d.strippedThinkStart && d.thinkStartToken <:+: currentText

/-- `current_text` once the start tag has been stripped. The buffer keeps the text as it came. -/
def stripStart (d : Detector) (currentText : List Char) : List Char :=
  if d.opens currentText then eraseAll d.thinkStartToken currentText else currentText

def parseStreamingIncrement (d : Detector) (newText : List Char) :
    StreamingParseResult × Detector :=
  let raw := d.buffer ++ newText
  if d.holdsBack raw then ({}, { d with buffer := raw })
  else
    let currentText := d.stripStart raw
    let d' := { d with
      buffer := raw
      strippedThinkStart := d.strippedThinkStart || d.opens raw
      inReasoning := d.inReasoning || d.opens raw }
    if d'.inReasoning then
      match currentText.dropInfix? d.thinkEndToken with
      | some (reasoning, normal) =>
        ({ normalText := normal, reasoningText := reasoning.rdropWhile isSpace },
          { d' with buffer := [], inReasoning := false })
      | none =>
        if d.streamReasoning then
          ({ reasoningText := currentText }, { d' with buffer := [] })
        else ({}, d')
    else ({ normalText := currentText }, { d' with buffer := [] })

end Detector

/-! ## Held back and stripped texts -/

namespace Detector

variable {d : Detector} {u : List Char}

theorem holdsBack_iff : d.holdsBack u = true ↔ (u <+: d.thinkStartToken ∧ d.thinkStartToken ≠ u) ∨
      (u <+: d.thinkEndToken ∧ d.thinkEndToken ≠ u) := by
  simp [holdsBack]

/-- Once a text cannot be the beginning of a tag, it cannot with more text behind it. -/
theorem holdsBack_of_append {u v : List Char} (h : d.holdsBack (u ++ v) = true) :
    d.holdsBack u = true := by
  have key : ∀ token : List Char, u ++ v <+: token ∧ token ≠ u ++ v → u <+: token ∧ token ≠ u := by
    rintro token ⟨hpre, hne⟩
    refine ⟨(List.prefix_append u v).trans hpre, ?_⟩
    rintro rfl
    have hlen := hpre.length_le
    have hv : v = [] := List.eq_nil_of_length_eq_zero (by
      rw [List.length_append] at hlen
      omega)
    exact hne (by simp [hv])
  rw [holdsBack_iff] at h ⊢
  exact h.imp (key _) (key _)

/-- Where the start tag has not been found yet, the text is stripped of it either way. -/
theorem stripStart_of_fresh (h : d.strippedThinkStart = false) (u : List Char) :
    d.stripStart u = eraseAll d.thinkStartToken u := by
  simp only [stripStart, opens, h, Bool.not_false, Bool.true_and, decide_eq_true_eq]
  split_ifs with hin
  · rfl
  · exact (eraseAll_of_absent hin).symm

theorem stripStart_of_absent (h : ¬ d.thinkStartToken <:+: u) : d.stripStart u = u := by
  simp [stripStart, opens, h]

theorem opens_of_absent (h : ¬ d.thinkStartToken <:+: u) : d.opens u = false := by
  simp [opens, h]

/-! ## A new detector -/

variable {startTag endTag : List Char} {force stream : Bool}

theorem inReasoning_init (hstart : startTag ≠ []) (hend : endTag ≠ []) :
    (init startTag endTag force stream none).inReasoning = force := by
  simp [init, hstart, hend]

theorem detectAndParse_eq (hstart : startTag ≠ []) (hend : endTag ≠ []) (text : List Char) :
    (init startTag endTag force stream none).detectAndParse text =
      if force = true ∨ startTag <:+: text then
        match (strip isSpace (eraseAll startTag text)).dropInfix? endTag with
        | some (b, a) => ⟨strip isSpace a, b⟩
        | none => ⟨[], strip isSpace (eraseAll startTag text)⟩
      else ⟨text, []⟩ := by
  have hin : (init startTag endTag force stream none).inReasoning = force :=
    inReasoning_init hstart hend
  have hnil : ¬ endTag <:+: [] := by simpa using hend
  simp only [detectAndParse, hin, Bool.or_eq_true, decide_eq_true_eq]
  simp only [init, Option.getD_none, if_neg hnil]

end Detector

end LLM42.Parser
