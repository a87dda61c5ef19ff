import LLM42.Library.Transducer

/-! # Decoding bytes with replacement

UTF-8 decoding as `bytes.decode("utf-8", errors="replace")` does it: a byte that cannot go on with
the character before it closes that character with one replacement character and is then read on
its own. -/

namespace LLM42.Detokenizer

open Library

def replacement : Char := '�'

/-- A character of which more bytes are to come; the next of them lies between two bounds. -/
structure PartialChar where
  needed : ℕ
  lower : ℕ
  upper : ℕ
  codePoint : ℕ
  deriving DecidableEq

def leadByte (b : ℕ) : Option PartialChar × List Char :=
  if b < 0x80 then (none, [Char.ofNat b])
  else if 0xc2 ≤ b ∧ b ≤ 0xdf then (some ⟨1, 0x80, 0xbf, b - 0xc0⟩, [])
  else if 0xe0 ≤ b ∧ b ≤ 0xef then
    -- no overlong forms, no surrogates
    let lower := if b = 0xe0 then 0xa0 else 0x80
    let upper := if b = 0xed then 0x9f else 0xbf
    (some ⟨2, lower, upper, b - 0xe0⟩, [])
  else if 0xf0 ≤ b ∧ b ≤ 0xf4 then
    -- no overlong forms, nothing beyond the last plane
    let lower := if b = 0xf0 then 0x90 else 0x80
    let upper := if b = 0xf4 then 0x8f else 0xbf
    (some ⟨3, lower, upper, b - 0xf0⟩, [])
  else (none, [replacement])

def decodeByte (s : Option PartialChar) (byte : UInt8) : Option PartialChar × List Char :=
  let b := byte.toNat
  match s with
  | none => leadByte b
  | some p =>
    if p.lower ≤ b ∧ b ≤ p.upper then
      let codePoint := p.codePoint * 64 + (b - 0x80)
      if p.needed ≤ 1 then (none, [Char.ofNat codePoint])
      else (some ⟨p.needed - 1, 0x80, 0xbf, codePoint⟩, [])
    else ((leadByte b).1, replacement :: (leadByte b).2)

def utf8 : Transducer (Option PartialChar) UInt8 Char where
  init := none
  step := decodeByte
  flush
    | none => []
    | some _ => [replacement]

@[simp] theorem flush_init : utf8.flush utf8.init = [] := rfl

@[simp] theorem flush_some (p : PartialChar) : utf8.flush (some p) = [replacement] := rfl

/-- A text that does not end in a replacement character ends with a whole character. -/
theorem settled_of_getLast? {bytes : List UInt8}
    (h : (utf8.translate bytes).getLast? ≠ some replacement) : utf8.Settled bytes := by
  by_contra hnot
  cases hs : utf8.stateAfter utf8.init bytes with
  | none => exact hnot hs
  | some p =>
    apply h
    simp [Transducer.translate, hs]

end LLM42.Detokenizer
