import LLM42.Detokenizer.Utf8
import LLM42.Library.CapacityDict
import LLM42.Library.Runs
import LLM42.Library.Substring
import LLM42.Request.Basic

/-! # The detokenizer

`DetokenizerManager._decode_batch_token_id_output` turns the token ids that the scheduler sends
into increments of text, request by request. -/

namespace LLM42.Detokenizer

open Library List

/-- A byte-level tokenizer: the bytes of a token, by `skip_special_tokens` and
`spaces_between_special_tokens`. -/
abbrev ByteTokenizer := Bool → Bool → Token → List UInt8

structure DecodeStatus where
  decodedText : Text
  decodeIds : List Token
  surrOffset : ℕ
  readOffset : ℕ
  sentOffset : ℕ := 0
  deriving DecidableEq

structure TokenIDOutput where
  rid : Text
  finishedReason : Option FinishReason
  decodedText : Text
  decodeIds : List Token
  readOffset : ℕ
  skipSpecialTokens : Bool
  spacesBetweenSpecialTokens : Bool
  noStopTrim : Bool
  deriving DecidableEq

inductive DetokenizerError where
  | indexError
  | decodeStatusNotFound (rid : Text)
  deriving DecidableEq

/-! ## Trimming and holding back -/

def matched : FinishReason → Option (Token ⊕ Text)
  | .matchedToken t => some (.inl t)
  | .matchedStr s => some (.inr s)
  | .matchedRegex s => some (.inr s)
  | .length _ => none
  | .abort _ => none

def callToken : Token := 200012

def trimIds (isToolCallParserGptOss : Bool) (output : List Token)
    (finishedReason : Option FinishReason) (noStopTrim : Bool) :
    Except DetokenizerError (List Token) :=
  if noStopTrim then .ok output
  else match finishedReason.bind matched with
    | some (.inl t) =>
      -- the token 0 counts as no match
      if t = 0 then .ok output
      else match output.getLast? with
        | none => .error .indexError
        | some last =>
          if last = callToken ∧ isToolCallParserGptOss then .ok output else .ok output.dropLast
    | _ => .ok output

def trimText (output : Text) (finishedReason : Option FinishReason) (noStopTrim : Bool) : Text :=
  if noStopTrim then output
  else match finishedReason.bind matched with
    | some (.inr s) =>
      if s = [] then output
      else match output.dropInfix? s with
        | some (before, _) => before
        | none => output
    | _ => output

def isChineseChar (c : Char) : Bool :=
  let cp := c.toNat
  (0x4e00 ≤ cp && cp ≤ 0x9fff) || (0x3400 ≤ cp && cp ≤ 0x4dbf) ||
    (0x20000 ≤ cp && cp ≤ 0x2a6df) || (0x2a700 ≤ cp && cp ≤ 0x2b73f) ||
    (0x2b740 ≤ cp && cp ≤ 0x2b81f) || (0x2b820 ≤ cp && cp ≤ 0x2ceaf) ||
    (0xf900 ≤ cp && cp ≤ 0xfaff) || (0x2f800 ≤ cp && cp ≤ 0x2fa1f)

def findPrintableText (text : Text) : Text :=
  if text.getLast? = some '\n' then text
  else if text.getLast?.any isChineseChar then text
  else if text.dropLast.getLast?.any isChineseChar then text.dropLast
  else text.rdropWhile (· ≠ ' ')

/-! ## One request -/

def DecodeStatus.ofOutput (e : TokenIDOutput) : DecodeStatus where
  decodedText := e.decodedText
  decodeIds := e.decodeIds
  surrOffset := 0
  readOffset := e.readOffset

/-- The status a message is read with: a new one, or the old one with the new ids. -/
def statusFor (status : Option DecodeStatus) (e : TokenIDOutput) : DecodeStatus :=
  match status with
  | none => .ofOutput e
  | some s => { s with decodeIds := s.decodeIds ++ e.decodeIds }

def decode (tok : ByteTokenizer) (e : TokenIDOutput) (ids : List Token) : Text :=
  utf8.translate (ids.flatMap (tok e.skipSpecialTokens e.spacesBetweenSpecialTokens))

def DecodeStatus.surrIds (s : DecodeStatus) : List Token :=
  (s.decodeIds.take s.readOffset).drop s.surrOffset

def newText (tok : ByteTokenizer) (e : TokenIDOutput) (readIds surrIds : List Token) : Text :=
  (decode tok e readIds).drop (decode tok e surrIds).length

def Complete (text : Text) : Prop := text ≠ [] ∧ text.getLast? ≠ some replacement
deriving Decidable

/-- The status after a message and the text that is sent for it, once the new text is known. -/
def DecodeStatus.advance (s : DecodeStatus) (e : TokenIDOutput) (new : Text) :
    DecodeStatus × Text :=
  let (s, new) :=
    if e.finishedReason.isNone then
      if Complete new then
        ({ s with
          decodedText := s.decodedText ++ new
          surrOffset := s.readOffset
          readOffset := s.decodeIds.length }, [])
      else (s, findPrintableText new)
    else (s, new)
  let outputStr := trimText (s.decodedText ++ new) e.finishedReason e.noStopTrim
  ({ s with sentOffset := outputStr.length }, outputStr.drop s.sentOffset)

/-- One message of a request from end to end: the text that is sent, and the status that is left
unless the request has finished. -/
def decodeOne (tok : ByteTokenizer) (isToolCallParserGptOss : Bool) (status : Option DecodeStatus)
    (e : TokenIDOutput) : Except DetokenizerError (Option DecodeStatus × Text) := do
  let s := statusFor status e
  let readIds ← trimIds isToolCallParserGptOss (s.decodeIds.drop s.surrOffset) e.finishedReason
    e.noStopTrim
  let (s', text) := s.advance e (newText tok e readIds s.surrIds)
  return (if e.finishedReason.isSome then none else some s', text)

/-! ## The batch -/

structure DetokenizerManager where
  tokenizer : ByteTokenizer
  isToolCallParserGptOss : Bool
  decodeStatus : CapacityDict Text DecodeStatus

def isHealthCheckRequest (rid : Text) : Bool := "HEALTH_CHECK".toList <+: rid

/-- A request with the ids of the first loop. -/
structure ReadRow where
  output : TokenIDOutput
  readIds : List Token
  surrIds : List Token

namespace DetokenizerManager

def receive (m : DetokenizerManager) (e : TokenIDOutput) :
    Except DetokenizerError (DetokenizerManager × ReadRow) := do
  let status := m.decodeStatus.get? e.rid
  let s := statusFor status e
  let dict :=
    match status with
    -- no status is kept for health checks
    | none => if isHealthCheckRequest e.rid then m.decodeStatus else m.decodeStatus.setItem e.rid s
    | some _ => m.decodeStatus.assign e.rid s
  let readIds ← trimIds m.isToolCallParserGptOss (s.decodeIds.drop s.surrOffset)
    e.finishedReason e.noStopTrim
  return ({ m with decodeStatus := dict }, ⟨e, readIds, s.surrIds⟩)

def emit (m : DetokenizerManager) (row : ReadRow) :
    Except DetokenizerError (DetokenizerManager × Text) := do
  let e := row.output
  let s ←
    if isHealthCheckRequest e.rid then pure (DecodeStatus.ofOutput e)
    else match m.decodeStatus.get? e.rid with
      | some s => pure s
      | none => throw (.decodeStatusNotFound e.rid)
  let (s, text) := s.advance e (newText m.tokenizer e row.readIds row.surrIds)
  let dict :=
    if e.finishedReason.isSome then m.decodeStatus.pop e.rid
    else if isHealthCheckRequest e.rid then m.decodeStatus
    else m.decodeStatus.assign e.rid s
  return ({ m with decodeStatus := dict }, text)

def receiveAll (m : DetokenizerManager) :
    List TokenIDOutput → Except DetokenizerError (DetokenizerManager × List ReadRow)
  | [] => .ok (m, [])
  | e :: es => do
    let (m, row) ← m.receive e
    let (m, rows) ← receiveAll m es
    return (m, row :: rows)

def emitAll (m : DetokenizerManager) :
    List ReadRow → Except DetokenizerError (DetokenizerManager × List Text)
  | [] => .ok (m, [])
  | row :: rows => do
    let (m, text) ← m.emit row
    let (m, texts) ← emitAll m rows
    return (m, text :: texts)

def decodeBatchTokenIdOutput (m : DetokenizerManager) (recvObj : List TokenIDOutput) :
    Except DetokenizerError (DetokenizerManager × List Text) := do
  let (m, rows) ← m.receiveAll recvObj
  m.emitAll rows

/-! ## A batch does for each request what a message on its own does -/

def store (m : DetokenizerManager) (rid : Text) (s : DecodeStatus) : DetokenizerManager :=
  { m with decodeStatus := m.decodeStatus.assign rid s }

def discard (m : DetokenizerManager) (rid : Text) : DetokenizerManager :=
  { m with decodeStatus := m.decodeStatus.pop rid }

variable {m : DetokenizerManager} {e : TokenIDOutput} {row : ReadRow} {es : List TokenIDOutput}

theorem get?_store_of_ne {rid k : Text} (h : k ≠ rid) (s : DecodeStatus) :
    (m.store rid s).decodeStatus.get? k = m.decodeStatus.get? k :=
  Function.update_of_ne h _ _

@[simp] theorem get?_store (rid : Text) (s : DecodeStatus) :
    (m.store rid s).decodeStatus.get? rid = some s :=
  Function.update_self _ _ _

@[simp] theorem get?_discard (rid : Text) : (m.discard rid).decodeStatus.get? rid = none :=
  Function.update_self _ _ _

def Decoded (m m' : DetokenizerManager) (e : TokenIDOutput) (text : Text) : Prop :=
  decodeOne m.tokenizer m.isToolCallParserGptOss (m.decodeStatus.get? e.rid) e =
    .ok (m'.decodeStatus.get? e.rid, text)

def RowOf (m : DetokenizerManager) (e : TokenIDOutput) (row : ReadRow) : Prop :=
  let s := statusFor (m.decodeStatus.get? e.rid) e
  row.output = e ∧ row.surrIds = s.surrIds ∧
    trimIds m.isToolCallParserGptOss (s.decodeIds.drop s.surrOffset) e.finishedReason
      e.noStopTrim = .ok row.readIds

theorem rowOf_store {rid : Text} {s : DecodeStatus} (h : e.rid ≠ rid) :
    (m.store rid s).RowOf e row ↔ m.RowOf e row := by
  simp only [RowOf, get?_store_of_ne h]
  rfl

def SameSettings (m m' : DetokenizerManager) : Prop :=
  m'.tokenizer = m.tokenizer ∧ m'.isToolCallParserGptOss = m.isToolCallParserGptOss ∧
    m'.decodeStatus.capacity = m.decodeStatus.capacity

theorem SameSettings.trans {m₁ m₂ m₃ : DetokenizerManager} (h : m₁.SameSettings m₂)
    (h' : m₂.SameSettings m₃) : m₁.SameSettings m₃ :=
  ⟨h'.1.trans h.1, h'.2.1.trans h.2.1, h'.2.2.trans h.2.2⟩

theorem receive_eq (hhealth : isHealthCheckRequest e.rid = false)
    (hroom : m.decodeStatus.keys.length < m.decodeStatus.capacity) (hrow : m.RowOf e row) :
    m.receive e = .ok (m.store e.rid (statusFor (m.decodeStatus.get? e.rid) e), row) := by
  obtain ⟨output, readIds, surrIds⟩ := row
  obtain ⟨hout, hsurr, htrim⟩ := hrow
  simp only at hout hsurr htrim
  subst hout
  cases hs : m.decodeStatus.get? output.rid with
  | none =>
    rw [hs] at htrim hsurr
    simp only [receive, hs, htrim, hhealth, CapacityDict.setItem, hsurr,
      if_neg (Nat.not_le.mpr hroom)]
    rfl
  | some s =>
    rw [hs] at htrim hsurr
    simp only [receive, hs, htrim, hsurr]
    rfl

/-- The first loop reads every request's row from its own status. -/
theorem receiveAll_spec (hroom : m.decodeStatus.keys.length + es.length ≤ m.decodeStatus.capacity)
    (hnodup : (es.map (·.rid)).Nodup) (hhealth : ∀ e ∈ es, isHealthCheckRequest e.rid = false)
    (hok : ∀ e ∈ es, ∃ row, m.RowOf e row) :
    ∃ m' rows, m.receiveAll es = .ok (m', rows) ∧ m.SameSettings m' ∧ Forall₂ m.RowOf es rows ∧
      (∀ e ∈ es, m'.decodeStatus.get? e.rid = some (statusFor (m.decodeStatus.get? e.rid) e)) ∧
      ∀ k ∉ es.map (·.rid), m'.decodeStatus.get? k = m.decodeStatus.get? k := by
  induction es generalizing m with
  | nil => exact ⟨m, [], rfl, ⟨rfl, rfl, rfl⟩, .nil, by simp, by simp⟩
  | cons e es ih =>
    simp only [map_cons, nodup_cons, length_cons] at hnodup hroom
    obtain ⟨hnot, hnodup⟩ := hnodup
    obtain ⟨row, hrow⟩ := hok e (by simp)
    have hreceive := receive_eq (hhealth e (by simp)) (by omega) hrow
    set s := statusFor (m.decodeStatus.get? e.rid) e with hs
    -- the requests still to come are not touched
    have hne : ∀ e' ∈ es, e'.rid ≠ e.rid := fun e' he' heq =>
      hnot (heq ▸ mem_map_of_mem he')
    have hlen : (m.store e.rid s).decodeStatus.keys.length ≤ m.decodeStatus.keys.length + 1 :=
      CapacityDict.length_assign_le _ _ _
    obtain ⟨m', rows, hrun, hset, hrows, hgot, hrest⟩ := ih (m := m.store e.rid s)
      (show _ ≤ m.decodeStatus.capacity by omega) hnodup
      (fun e' he' => hhealth e' (by simp [he'])) (by
        intro e' he'
        obtain ⟨row', hrow'⟩ := hok e' (by simp [he'])
        exact ⟨row', (rowOf_store (hne e' he')).mpr hrow'⟩)
    refine ⟨m', row :: rows, ?_, hset, .cons hrow ?_, ?_, ?_⟩
    · simp only [receiveAll, hreceive]
      exact congrArg (· >>= fun x => pure (x.1, row :: x.2)) hrun
    · refine ((forall₂_and_left _ _).mpr ⟨hne, hrows⟩).imp ?_
      exact fun _ _ h => (rowOf_store h.1).mp h.2
    · intro e' he'
      rcases mem_cons.mp he' with rfl | he'
      · rw [hrest _ hnot, get?_store]
      · rw [hgot e' he', get?_store_of_ne (hne e' he')]
    · intro k hk
      simp only [map_cons, mem_cons, not_or] at hk
      rw [hrest k hk.2, get?_store_of_ne hk.1]

def EmittedOf (m m' : DetokenizerManager) (row : ReadRow) (text : Text) : Prop :=
  ∃ s, m.decodeStatus.get? row.output.rid = some s ∧
    text = (s.advance row.output (newText m.tokenizer row.output row.readIds row.surrIds)).2 ∧
    m'.decodeStatus.get? row.output.rid =
      if row.output.finishedReason.isSome then none
      else some (s.advance row.output
        (newText m.tokenizer row.output row.readIds row.surrIds)).1

theorem emit_spec (hhealth : isHealthCheckRequest row.output.rid = false)
    (hok : (m.decodeStatus.get? row.output.rid).isSome) :
    ∃ m' text, m.emit row = .ok (m', text) ∧ m.SameSettings m' ∧ m.EmittedOf m' row text ∧
      ∀ k ≠ row.output.rid, m'.decodeStatus.get? k = m.decodeStatus.get? k := by
  obtain ⟨s, hs⟩ := Option.isSome_iff_exists.mp hok
  cases hr : s.advance row.output (newText m.tokenizer row.output row.readIds row.surrIds) with
  | mk s' text =>
    cases hfin : row.output.finishedReason.isSome with
    | true =>
      refine ⟨m.discard row.output.rid, text, ?_, ⟨rfl, rfl, rfl⟩, ⟨s, hs, by rw [hr], ?_⟩, ?_⟩
      · simp only [emit, hhealth, hs, hfin, Bool.false_eq_true, if_false, if_true, pure_bind, hr]
        rfl
      · rw [get?_discard, hfin, if_pos rfl]
      · exact fun k hk => Function.update_of_ne hk _ _
    | false =>
      refine ⟨m.store row.output.rid s', text, ?_, ⟨rfl, rfl, rfl⟩, ⟨s, hs, by rw [hr], ?_⟩, ?_⟩
      · simp only [emit, hhealth, hs, hfin, Bool.false_eq_true, if_false, pure_bind, hr]
        rfl
      · rw [get?_store, hfin, if_neg Bool.false_ne_true, hr]
      · exact fun k hk => get?_store_of_ne hk s'

/-- The second loop writes every request's own status. -/
theorem emitAll_spec {rows : List ReadRow} (hnodup : (rows.map (·.output.rid)).Nodup)
    (hhealth : ∀ row ∈ rows, isHealthCheckRequest row.output.rid = false)
    (hok : ∀ row ∈ rows, (m.decodeStatus.get? row.output.rid).isSome) :
    ∃ m' texts, m.emitAll rows = .ok (m', texts) ∧ m.SameSettings m' ∧
      Forall₂ (m.EmittedOf m') rows texts ∧
      ∀ k ∉ rows.map (·.output.rid), m'.decodeStatus.get? k = m.decodeStatus.get? k := by
  induction rows generalizing m with
  | nil => exact ⟨m, [], rfl, ⟨rfl, rfl, rfl⟩, .nil, by simp⟩
  | cons row rows ih =>
    simp only [map_cons, nodup_cons] at hnodup
    obtain ⟨hnot, hnodup⟩ := hnodup
    have hne : ∀ row' ∈ rows, row'.output.rid ≠ row.output.rid := fun row' hrow' heq =>
      hnot (heq ▸ mem_map_of_mem hrow')
    obtain ⟨m₁, text, hemit, hset₁, hrow, hrest₁⟩ :=
      emit_spec (hhealth row (by simp)) (hok row (by simp))
    obtain ⟨m', texts, hrun, hset, hrows, hrest⟩ := ih (m := m₁) hnodup
      (fun row' hrow' => hhealth row' (by simp [hrow']))
      (fun row' hrow' => by
        rw [hrest₁ _ (hne row' hrow')]
        exact hok row' (by simp [hrow']))
    refine ⟨m', text :: texts, ?_, hset₁.trans hset, .cons ?_ ?_, ?_⟩
    · simp only [emitAll, hemit]
      exact congrArg (· >>= fun x => pure (x.1, text :: x.2)) hrun
    · obtain ⟨s, hs, htext, hstatus⟩ := hrow
      exact ⟨s, hs, htext, by rw [hrest _ hnot, hstatus]⟩
    · refine ((forall₂_and_left _ _).mpr ⟨hne, hrows⟩).imp ?_
      rintro row' text' ⟨hne', s', hs', hemitted⟩
      rw [hrest₁ _ hne'] at hs'
      rw [hset₁.1] at hemitted
      exact ⟨s', hs', hemitted⟩
    · intro k hk
      simp only [map_cons, mem_cons, not_or] at hk
      rw [hrest k hk.2, hrest₁ k hk.1]

theorem decoded_of_rows {m₁ m' : DetokenizerManager} {text : Text} (hset : m.SameSettings m₁)
    (hgot : m₁.decodeStatus.get? e.rid = some (statusFor (m.decodeStatus.get? e.rid) e))
    (hrow : m.RowOf e row) (hemitted : m₁.EmittedOf m' row text) : m.Decoded m' e text := by
  obtain ⟨output, readIds, surrIds⟩ := row
  obtain ⟨hout, hsurr, htrim⟩ := hrow
  obtain ⟨s, hs, htext, hstatus⟩ := hemitted
  simp only at hout hsurr htrim hs htext hstatus
  subst hout
  rw [hgot, Option.some.injEq] at hs
  subst hs
  rw [hset.1, hsurr] at htext hstatus
  simp only [Decoded, decodeOne, htrim, hstatus, htext]
  rfl

theorem forall₂_comp {α β γ : Type*} {R : α → β → Prop} {S : β → γ → Prop} {T : α → γ → Prop}
    {xs : List α} {ys : List β} {zs : List γ} (hR : Forall₂ R xs ys)
    (hS : Forall₂ S ys zs) (h : ∀ x y z, R x y → S y z → T x z) : Forall₂ T xs zs := by
  induction hR generalizing zs with
  | nil =>
    cases hS
    exact .nil
  | cons hxy _ ih =>
    cases hS with
    | cons hyz hS => exact .cons (h _ _ _ hxy hyz) (ih hS)

/-- A batch decodes each of its requests as if its message came on its own, and leaves the other
requests alone. -/
theorem decodeBatchTokenIdOutput_spec
    (hroom : m.decodeStatus.keys.length + es.length ≤ m.decodeStatus.capacity)
    (hnodup : (es.map (·.rid)).Nodup) (hhealth : ∀ e ∈ es, isHealthCheckRequest e.rid = false)
    (hok : ∀ e ∈ es, ∃ r, decodeOne m.tokenizer m.isToolCallParserGptOss
      (m.decodeStatus.get? e.rid) e = .ok r) :
    ∃ m' texts, m.decodeBatchTokenIdOutput es = .ok (m', texts) ∧ m.SameSettings m' ∧
      Forall₂ (m.Decoded m') es texts ∧
      ∀ k ∉ es.map (·.rid), m'.decodeStatus.get? k = m.decodeStatus.get? k := by
  obtain ⟨m₁, rows, hreceive, hset₁, hrows, hgot, hrest₁⟩ := receiveAll_spec hroom hnodup hhealth
    fun e he => (hok e he).elim fun r hr => (bind_eq_ok hr).elim
      fun ids h => ⟨⟨e, ids, _⟩, rfl, rfl, h.1⟩
  have hmap : es = rows.map (·.output) := by
    have hout : Forall₂ (fun e row => e = ReadRow.output row) es rows :=
      hrows.imp fun _ _ h => h.1.symm
    rwa [← forall₂_map_right_iff, forall₂_eq_eq_eq] at hout
  have hrids : rows.map (·.output.rid) = es.map (·.rid) := by
    rw [hmap, map_map]
    rfl
  have hmem : ∀ row ∈ rows, row.output ∈ es := fun row hrow =>
    hmap ▸ mem_map_of_mem hrow
  obtain ⟨m', texts, hemit, hset, htexts, hrest⟩ := emitAll_spec (m := m₁) (hrids ▸ hnodup)
    (fun row hrow => hhealth _ (hmem row hrow))
    (fun row hrow => by rw [hgot _ (hmem row hrow)]; rfl)
  refine ⟨m', texts, ?_, hset₁.trans hset, ?_, ?_⟩
  · simp only [decodeBatchTokenIdOutput, hreceive]
    exact hemit
  · exact forall₂_comp ((forall₂_and_left _ _).mpr ⟨hgot, hrows⟩) htexts
      fun e row text h h' => decoded_of_rows hset₁ h.1 h.2 h'
  · intro k hk
    rw [hrest k (hrids ▸ hk), hrest₁ k hk]

end DetokenizerManager

end LLM42.Detokenizer
