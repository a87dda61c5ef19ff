import LLM42.Detokenizer.Manager

/-! # The increments of a request

The text that the messages of a request bring, joined, against the text of one message with all of
its tokens. -/

namespace LLM42.Detokenizer

open Library List

/-- What the messages of a request have brought so far. -/
structure Log where
  /-- the ids of the first message that belong to the prompt -/
  prompt : List Token
  tokens : List Token
  /-- the text that the first message came with -/
  decodedText : Text
  delivered : Text
  last : TokenIDOutput
  deriving DecidableEq

namespace Log

def whole (l : Log) : TokenIDOutput :=
  { l.last with
    decodedText := l.decodedText
    decodeIds := l.prompt ++ l.tokens
    readOffset := l.prompt.length }

def bytes (tok : ByteTokenizer) (l : Log) (ids : List Token) : List UInt8 :=
  ids.flatMap (tok l.last.skipSpecialTokens l.last.spacesBetweenSpecialTokens)

@[simp] theorem bytes_append (tok : ByteTokenizer) (l : Log) (xs ys : List Token) :
    l.bytes tok (xs ++ ys) = l.bytes tok xs ++ l.bytes tok ys :=
  flatMap_append

theorem decode_eq (tok : ByteTokenizer) (l : Log) (ids : List Token) :
    decode tok l.last ids = utf8.translate (l.bytes tok ids) := rfl

/-- The log of a request whose first message is `e`, before any text was sent. -/
def opened (e : TokenIDOutput) : Log where
  prompt := e.decodeIds.take e.readOffset
  tokens := e.decodeIds.drop e.readOffset
  decodedText := e.decodedText
  delivered := []
  last := e

def extended (l : Log) (e : TokenIDOutput) : Log :=
  { l with tokens := l.tokens ++ e.decodeIds, last := e }

theorem bytes_extended (tok : ByteTokenizer) {l : Log} {e : TokenIDOutput}
    (hskip : e.skipSpecialTokens = l.last.skipSpecialTokens)
    (hspaces : e.spacesBetweenSpecialTokens = l.last.spacesBetweenSpecialTokens) :
    (l.extended e).bytes tok = l.bytes tok := by
  funext ids
  simp [bytes, extended, hskip, hspaces]

def sent (l : Log) (text : Text) : Log := { l with delivered := l.delivered ++ text }

end Log

/-- The log with a message, as the status tells whether it is the first one. -/
def logFor (status : Option DecodeStatus) (log : Option Log) (e : TokenIDOutput) : Log :=
  match status, log with
  | some _, some l => l.extended e
  | _, _ => .opened e

/-! ## Trimming and printing -/

def stopToken (e : TokenIDOutput) : Option Token :=
  if e.noStopTrim then none
  else match e.finishedReason.bind matched with
    | some (.inl t) => if t = 0 then none else some t
    | _ => none

def stopText (e : TokenIDOutput) : Option Text :=
  if e.noStopTrim then none
  else match e.finishedReason.bind matched with
    | some (.inr s) => if s = [] then none else some s
    | _ => none

theorem trimIds_of_stopToken_eq_none (gptOss : Bool) {e : TokenIDOutput} (h : stopToken e = none)
    (ids : List Token) : trimIds gptOss ids e.finishedReason e.noStopTrim = .ok ids := by
  unfold stopToken at h
  unfold trimIds
  split_ifs with hno
  · rfl
  · rw [if_neg hno] at h
    rcases hm : e.finishedReason.bind matched with _ | t | s
    · rfl
    · have ht : t = 0 := by simpa [hm] using h
      simp only [if_pos ht]
    · rfl

theorem trimIds_of_stopToken (gptOss : Bool) {e : TokenIDOutput} {t : Token}
    (h : stopToken e = some t) (ids : List Token) (last : Token) :
    trimIds gptOss (ids ++ [last]) e.finishedReason e.noStopTrim =
      .ok (if last = callToken ∧ gptOss then ids ++ [last] else ids) := by
  unfold stopToken at h
  unfold trimIds
  cases hno : e.noStopTrim with
  | true => simp [hno] at h
  | false =>
    rcases hm : e.finishedReason.bind matched with _ | t' | s
    · simp [hno, hm] at h
    · have ht : t' ≠ 0 := by
        rintro rfl
        simp [hno, hm] at h
      simp only [Bool.false_eq_true, if_false, if_neg ht, getLast?_concat, dropLast_concat]
      split_ifs
      · rfl
      · rfl
    · simp [hno, hm] at h

variable {ids : List Token} {gptOss : Bool} {new : Text}

theorem trimIds_append (gptOss : Bool) {e : TokenIDOutput} (h : (stopToken e).isSome → ids ≠ []) :
    ∃ ids', ∀ before,
      trimIds gptOss (before ++ ids) e.finishedReason e.noStopTrim = .ok (before ++ ids') := by
  cases hstop : stopToken e with
  | none => exact ⟨ids, fun before => trimIds_of_stopToken_eq_none gptOss hstop _⟩
  | some t =>
    obtain ⟨xs, last, rfl⟩ : ∃ xs last, ids = xs ++ [last] :=
      ⟨_, _, (dropLast_append_getLast (h (by simp [hstop]))).symm⟩
    have htrim : ∀ before : List Token,
        trimIds gptOss (before ++ (xs ++ [last])) e.finishedReason e.noStopTrim =
          .ok (if last = callToken ∧ gptOss then before ++ (xs ++ [last]) else before ++ xs) := by
      intro before
      rw [← append_assoc]
      exact trimIds_of_stopToken gptOss hstop _ _
    by_cases hcall : last = callToken ∧ gptOss
    · exact ⟨xs ++ [last], fun before => by rw [htrim, if_pos hcall]⟩
    · exact ⟨xs, fun before => by rw [htrim, if_neg hcall]⟩

theorem trimText_eq (e : TokenIDOutput) (text : Text) :
    trimText text e.finishedReason e.noStopTrim =
      (((stopText e).bind fun stop => text.dropInfix? stop).map (·.1)).getD text := by
  unfold trimText stopText
  split_ifs with hno
  · rfl
  · rcases e.finishedReason.bind matched with _ | t | s
    · rfl
    · rfl
    · by_cases hs : s = []
      · simp [hs]
      · simp only [if_neg hs, Option.bind_some]
        cases text.dropInfix? s
        · rfl
        · rfl

theorem stopToken_of_stopText {e : TokenIDOutput} {stop : Text} (h : stopText e = some stop) :
    stopToken e = none := by
  unfold stopText at h
  unfold stopToken
  rcases hm : e.finishedReason.bind matched with _ | t | s
  · simp
  · simp [hm] at h
  · simp

theorem trimText_isPrefix (e : TokenIDOutput) (text : Text) :
    trimText text e.finishedReason e.noStopTrim <+: text := by
  rw [trimText_eq]
  cases h : (stopText e).bind fun stop => text.dropInfix? stop with
  | none => exact prefix_rfl
  | some c =>
    obtain ⟨stop, -, hcut⟩ := Option.bind_eq_some_iff.mp h
    obtain ⟨rfl, -⟩ := dropInfix?_eq_some.mp hcut
    exact prefix_append _ _

theorem findPrintableText_isPrefix (text : Text) : findPrintableText text <+: text := by
  unfold findPrintableText
  split_ifs
  · exact prefix_rfl
  · exact prefix_rfl
  · exact dropLast_prefix text
  · exact rdropWhile_prefix _ _

theorem findPrintableText_concat_replacement (text : Text) :
    findPrintableText (text ++ [replacement]) <+: text := by
  have hnl : (text ++ [replacement]).getLast? ≠ some '\n' := by
    simp only [getLast?_concat]
    decide
  have hcjk : ¬ ((text ++ [replacement]).getLast?.any isChineseChar = true) := by
    simp only [getLast?_concat]
    decide
  unfold findPrintableText
  rw [if_neg hnl, if_neg hcjk, dropLast_concat]
  split_ifs
  · exact prefix_rfl
  · rw [rdropWhile_concat_pos _ _ _ (by decide)]
    exact rdropWhile_prefix _ _

theorem findPrintableText_prefix_written (bs : List UInt8) :
    findPrintableText (utf8.translate bs) <+: utf8.written utf8.init bs := by
  by_cases hs : utf8.Settled bs
  · rw [← hs.translate_eq flush_init]
    exact findPrintableText_isPrefix _
  · obtain ⟨p, hp⟩ : ∃ p, utf8.stateAfter utf8.init bs = some p := Option.ne_none_iff_exists'.mp hs
    rw [Transducer.translate, hp, flush_some]
    exact findPrintableText_concat_replacement _

/-! ## What the status of a request knows -/

/-- The status of a request against its log: the text of the tokens `done` has been taken over,
that of `rest` is read anew with each message. -/
structure Follows (tok : ByteTokenizer) (s : DecodeStatus) (l : Log) (done rest : List Token) :
    Prop where
  tokens : l.tokens = done ++ rest
  ids : s.decodeIds = l.prompt ++ done ++ rest
  read : s.readOffset = (l.prompt ++ done).length
  surr_le : s.surrOffset ≤ s.readOffset
  -- whole characters up to each of the cuts
  settled_prompt : utf8.Settled (l.bytes tok l.prompt)
  settled_surr : utf8.Settled (l.bytes tok s.surrIds)
  settled_done : utf8.Settled (l.bytes tok done)
  text : s.decodedText = l.decodedText ++ utf8.translate (l.bytes tok done)
  delivered : l.delivered <+: s.decodedText ++ utf8.written utf8.init (l.bytes tok rest)
  sent : s.sentOffset = l.delivered.length

variable {tok : ByteTokenizer} {s : DecodeStatus} {l : Log} {e : TokenIDOutput}
  {done rest : List Token}

theorem Follows.opened (hread : e.readOffset ≤ e.decodeIds.length)
    (hprompt : utf8.Settled ((Log.opened e).bytes tok (e.decodeIds.take e.readOffset))) :
    Follows tok (.ofOutput e) (.opened e) [] (e.decodeIds.drop e.readOffset) where
  tokens := rfl
  ids := by simp [Log.opened, DecodeStatus.ofOutput]
  read := by simp [Log.opened, DecodeStatus.ofOutput, hread]
  surr_le := Nat.zero_le _
  settled_prompt := hprompt
  settled_surr := hprompt
  settled_done := rfl
  text := by simp [Log.opened, DecodeStatus.ofOutput, Log.bytes, Transducer.translate,
    Transducer.written, Transducer.stateAfter]
  delivered := nil_prefix
  sent := rfl

section

variable (h : Follows tok s l done rest)

include h

theorem Follows.extended (hskip : e.skipSpecialTokens = l.last.skipSpecialTokens)
    (hspaces : e.spacesBetweenSpecialTokens = l.last.spacesBetweenSpecialTokens) :
    Follows tok (statusFor (some s) e) (l.extended e) done (rest ++ e.decodeIds) := by
  have hbytes := Log.bytes_extended tok hskip hspaces
  have hsurr : (statusFor (some s) e).surrIds = s.surrIds := by
    simp only [DecodeStatus.surrIds, statusFor]
    rw [take_append_of_le_length]
    rw [h.ids, h.read]
    simp
  refine ⟨?_, ?_, h.read, h.surr_le, ?_, ?_, ?_, ?_, ?_, h.sent⟩
  · simp [Log.extended, h.tokens]
  · simp [statusFor, Log.extended, h.ids]
  · rw [hbytes]
    exact h.settled_prompt
  · rw [hbytes, hsurr]
    exact h.settled_surr
  · rw [hbytes]
    exact h.settled_done
  · rw [hbytes]
    exact h.text
  · rw [hbytes, Log.bytes_append, Transducer.written_append]
    refine h.delivered.trans ?_
    rw [← append_assoc]
    exact prefix_append _ _

theorem Follows.drop_surrOffset : s.decodeIds.drop s.surrOffset = s.surrIds ++ rest := by
  have hle := h.surr_le
  rw [h.read] at hle
  rw [DecodeStatus.surrIds, h.ids, h.read, take_left, drop_append_of_le_length hle]

theorem Follows.newText_eq (ids : List Token) :
    newText tok l.last (s.surrIds ++ ids) s.surrIds = utf8.translate (l.bytes tok ids) := by
  rw [newText, Log.decode_eq, Log.decode_eq, Log.bytes_append,
    h.settled_surr.translate_append flush_init, drop_left]

end

/-! ## A message that leaves the request open -/

theorem trimText_none (text : Text) (noStopTrim : Bool) : trimText text none noStopTrim = text := by
  unfold trimText
  split_ifs
  · rfl
  · rfl

theorem stopToken_of_open (h : e.finishedReason = none) : stopToken e = none := by
  rw [stopToken, h]
  split_ifs
  · rfl
  · rfl

theorem advance_of_complete (hopen : e.finishedReason = none) (h : Complete new) : s.advance e new =
      ({ s with
          decodedText := s.decodedText ++ new
          surrOffset := s.readOffset
          readOffset := s.decodeIds.length
          sentOffset := (s.decodedText ++ new).length },
        (s.decodedText ++ new).drop s.sentOffset) := by
  simp only [DecodeStatus.advance, hopen, Option.isNone_none, if_true, if_pos h, trimText_none,
    append_nil]

theorem advance_of_not_complete (hopen : e.finishedReason = none) (h : ¬ Complete new) :
    s.advance e new = ({ s with sentOffset := (s.decodedText ++ findPrintableText new).length },
        (s.decodedText ++ findPrintableText new).drop s.sentOffset) := by
  simp only [DecodeStatus.advance, hopen, Option.isNone_none, if_true, if_neg h, trimText_none]

theorem Follows.delivered_append (h : Follows tok s l done rest) {text : Text}
    (hpre : l.delivered <+: text) : l.delivered ++ text.drop s.sentOffset = text := by
  rw [h.sent]
  exact prefix_iff_eq_append.mp hpre

/-- An open request sends whole characters of its text. -/
theorem Follows.advance_open (h : Follows tok s l done rest) (hopen : e.finishedReason = none)
    (hprint : ¬ Complete (utf8.translate (l.bytes tok rest)) → s.sentOffset ≤
      (s.decodedText ++ findPrintableText (utf8.translate (l.bytes tok rest))).length) :
    ∃ done' rest', Follows tok (s.advance e (utf8.translate (l.bytes tok rest))).1
      (l.sent (s.advance e (utf8.translate (l.bytes tok rest))).2) done' rest' := by
  set new := utf8.translate (l.bytes tok rest) with hnew
  by_cases hcomplete : Complete new
  · -- the new text is taken over
    have hsettled : utf8.Settled (l.bytes tok rest) := settled_of_getLast? hcomplete.2
    have hdelivered : l.delivered ++ (s.decodedText ++ new).drop s.sentOffset =
        s.decodedText ++ new := by
      apply h.delivered_append
      rw [hnew, hsettled.translate_eq flush_init]
      exact h.delivered
    rw [advance_of_complete hopen hcomplete]
    refine ⟨done ++ rest, [], ?_⟩
    have hsurr : (s.decodeIds.take s.decodeIds.length).drop s.readOffset = rest := by
      rw [take_length, h.ids, h.read, drop_left]
    refine ⟨?_, ?_, ?_, ?_, h.settled_prompt, ?_, ?_, ?_, ?_, ?_⟩
    · simp [Log.sent, h.tokens]
    · simp [Log.sent, h.ids]
    · simp [Log.sent, h.ids]
    · simp [h.ids, h.read]
    · change utf8.Settled (l.bytes tok ((s.decodeIds.take s.decodeIds.length).drop s.readOffset))
      rwa [hsurr]
    · rw [Log.bytes_append]
      exact h.settled_done.append hsettled
    · change s.decodedText ++ new = l.decodedText ++ utf8.translate (l.bytes tok (done ++ rest))
      rw [Log.bytes_append, h.settled_done.translate_append flush_init, h.text, append_assoc]
    · simp only [Log.sent, hdelivered]
      exact prefix_append _ _
    · simp only [Log.sent, hdelivered]
  · -- the new text is kept for later, up to what can be printed
    have hprinted : findPrintableText new <+: utf8.written utf8.init (l.bytes tok rest) :=
      findPrintableText_prefix_written _
    have hdelivered : l.delivered ++ (s.decodedText ++ findPrintableText new).drop s.sentOffset =
        s.decodedText ++ findPrintableText new := by
      apply h.delivered_append
      have hlen := hprint hcomplete
      rw [h.sent] at hlen
      exact prefix_of_prefix_length_le h.delivered ((prefix_append_right_inj _).mpr hprinted) hlen
    rw [advance_of_not_complete hopen hcomplete]
    refine ⟨done, rest, h.tokens, h.ids, h.read, h.surr_le, h.settled_prompt, h.settled_surr,
      h.settled_done, h.text, ?_, ?_⟩
    · simp only [Log.sent, hdelivered]
      exact (prefix_append_right_inj _).mpr hprinted
    · simp only [Log.sent, hdelivered]

theorem Follows.decodeOne_open (status : Option DecodeStatus) (gptOss : Bool)
    (h : Follows tok (statusFor status e) l done rest) (hlast : l.last = e)
    (hopen : e.finishedReason = none) :
    decodeOne tok gptOss status e =
      .ok (some ((statusFor status e).advance e (utf8.translate (l.bytes tok rest))).1,
        ((statusFor status e).advance e (utf8.translate (l.bytes tok rest))).2) := by
  have htrim := trimIds_of_stopToken_eq_none gptOss (stopToken_of_open hopen)
    ((statusFor status e).decodeIds.drop (statusFor status e).surrOffset)
  have hnew : newText tok e ((statusFor status e).surrIds ++ rest)
      (statusFor status e).surrIds = utf8.translate (l.bytes tok rest) :=
    hlast ▸ h.newText_eq rest
  simp only [decodeOne, htrim]
  simp only [h.drop_surrOffset, hopen]
  rw [← hnew]
  rfl

/-! ## A message that closes the request -/

theorem advance_of_finished (hfin : e.finishedReason.isSome) : (s.advance e new).2 =
      (trimText (s.decodedText ++ new) e.finishedReason e.noStopTrim).drop s.sentOffset := by
  have hnone : e.finishedReason.isNone = false := by
    cases h : e.finishedReason with
    | none => simp [h] at hfin
    | some r => rfl
  simp only [DecodeStatus.advance, hnone, Bool.false_eq_true, if_false]

section Closing

variable (htrim : ∀ before, trimIds gptOss (before ++ e.decodeIds) e.finishedReason
    e.noStopTrim = .ok (before ++ ids))
  (hskip : e.skipSpecialTokens = l.last.skipSpecialTokens)
  (hspaces : e.spacesBetweenSpecialTokens = l.last.spacesBetweenSpecialTokens)
  (hfin : e.finishedReason.isSome)

include htrim

theorem Follows.delivered_prefix_trimText (h : Follows tok s l done rest)
    (hcut : ∀ stop ∈ stopText e, ∀ c ∈ (s.decodedText ++
      utf8.translate (l.bytes tok (rest ++ e.decodeIds))).dropInfix? stop,
      s.sentOffset ≤ c.1.length) :
    l.delivered <+: trimText (s.decodedText ++ utf8.translate (l.bytes tok (rest ++ ids)))
      e.finishedReason e.noStopTrim := by
  have hfull : l.delivered <+: s.decodedText ++ utf8.translate (l.bytes tok (rest ++ ids)) := by
    refine h.delivered.trans ((prefix_append_right_inj _).mpr ?_)
    rw [Log.bytes_append]
    exact Transducer.written_prefix_translate _ _
  refine prefix_of_prefix_length_le hfull (trimText_isPrefix e _) ?_
  rw [trimText_eq]
  cases hstop : stopText e with
  | none => exact hfull.length_le
  | some stop =>
    -- with a stop text no token is taken away
    have hids : ids = e.decodeIds := by
      have := (htrim []).symm.trans
        (trimIds_of_stopToken_eq_none gptOss (stopToken_of_stopText hstop) _)
      simpa using this
    subst hids
    rw [Option.bind_some]
    cases hfound : (s.decodedText ++ utf8.translate
        (l.bytes tok (rest ++ e.decodeIds))).dropInfix? stop with
    | none => exact hfull.length_le
    | some c =>
      rw [← h.sent]
      exact hcut stop hstop c hfound

include hskip hspaces hfin

theorem Follows.decodeOne_finished (h : Follows tok s l done rest) :
    decodeOne tok gptOss (some s) e = .ok (none,
      (trimText (s.decodedText ++ utf8.translate (l.bytes tok (rest ++ ids))) e.finishedReason
        e.noStopTrim).drop s.sentOffset) := by
  have hext := h.extended hskip hspaces
  have hnew := hext.newText_eq (rest ++ ids)
  rw [Log.bytes_extended tok hskip hspaces] at hnew
  have hread : trimIds gptOss ((statusFor (some s) e).decodeIds.drop
      (statusFor (some s) e).surrOffset) e.finishedReason e.noStopTrim =
      .ok ((statusFor (some s) e).surrIds ++ (rest ++ ids)) := by
    rw [hext.drop_surrOffset, ← append_assoc, htrim, append_assoc]
  simp only [decodeOne, hread, hfin, if_true]
  rw [← hnew]
  exact congrArg (fun text => Except.ok (none, text)) (advance_of_finished hfin)

theorem Log.decodeOne_whole (hprompt : utf8.Settled (l.bytes tok l.prompt)) :
    decodeOne tok gptOss none (l.extended e).whole = .ok (none,
      trimText (l.decodedText ++ utf8.translate (l.bytes tok (l.tokens ++ ids))) e.finishedReason
        e.noStopTrim) := by
  have hread : trimIds gptOss ((statusFor none (l.extended e).whole).decodeIds.drop
      (statusFor none (l.extended e).whole).surrOffset) (l.extended e).whole.finishedReason
      (l.extended e).whole.noStopTrim = .ok (l.prompt ++ (l.tokens ++ ids)) := by
    have := htrim (l.prompt ++ l.tokens)
    rw [append_assoc, append_assoc] at this
    exact this
  have hsurr : (statusFor none (l.extended e).whole).surrIds = l.prompt := by
    simp [DecodeStatus.surrIds, statusFor, DecodeStatus.ofOutput, Log.whole, Log.extended]
  have hnew : newText tok (l.extended e).whole (l.prompt ++ (l.tokens ++ ids)) l.prompt =
      utf8.translate (l.bytes tok (l.tokens ++ ids)) := by
    have hdecode : ∀ ids, decode tok (l.extended e).whole ids =
        utf8.translate (l.bytes tok ids) := by
      intro ids
      rw [← Log.bytes_extended tok hskip hspaces]
      rfl
    rw [newText, hdecode, hdecode, Log.bytes_append, hprompt.translate_append flush_init, drop_left]
  have hfin' : (l.extended e).whole.finishedReason.isSome := hfin
  simp only [decodeOne, hread, hfin', if_true, hsurr]
  rw [← hnew]
  exact congrArg (fun text => Except.ok (none, text)) (advance_of_finished hfin')

end Closing

/-! ## Clean cuts -/

def pendingText (tok : ByteTokenizer) (s : DecodeStatus) (e : TokenIDOutput) : Text :=
  decode tok e ((statusFor (some s) e).decodeIds.drop s.readOffset)

/-- A later message of a request. Its decoding options are those of the message before. If its text
cannot be taken over, at least as much of it can be printed as was sent before; a stop text that
is cut off does not begin in text that was sent before. -/
def LaterClean (tok : ByteTokenizer) (s : DecodeStatus) (l : Log) (e : TokenIDOutput) : Prop :=
  e.skipSpecialTokens = l.last.skipSpecialTokens ∧
  e.spacesBetweenSpecialTokens = l.last.spacesBetweenSpecialTokens ∧
  (e.finishedReason = none → ¬ Complete (pendingText tok s e) →
    s.sentOffset ≤ (s.decodedText ++ findPrintableText (pendingText tok s e)).length) ∧
  ∀ stop ∈ stopText e, ∀ c ∈ (s.decodedText ++ pendingText tok s e).dropInfix? stop,
    s.sentOffset ≤ c.1.length
deriving Decidable

/-- The first message of a request: the ids that belong to the prompt are whole characters. -/
def FirstClean (tok : ByteTokenizer) (e : TokenIDOutput) : Prop :=
  e.readOffset ≤ e.decodeIds.length ∧
    utf8.Settled ((Log.opened e).bytes tok (e.decodeIds.take e.readOffset))
deriving Decidable

/-- The messages of the request are cut well before this one; a stop token that is taken away
comes with its message. -/
def MessageClean (tok : ByteTokenizer) (status : Option DecodeStatus) (log : Option Log)
    (e : TokenIDOutput) : Prop :=
  ((stopToken e).isSome → e.decodeIds ≠ []) ∧
    match status, log with
    | some s, some l => LaterClean tok s l e
    | _, _ => FirstClean tok e

instance (tok : ByteTokenizer) (status : Option DecodeStatus) (log : Option Log)
    (e : TokenIDOutput) : Decidable (MessageClean tok status log e) := by
  unfold MessageClean
  cases status <;> cases log <;> infer_instance

/-- The request is closed and all its text was delivered, or it is open and its status follows. -/
inductive Tracks (tok : ByteTokenizer) (gptOss : Bool) : Option DecodeStatus → Option Log → Prop
  | unknown : Tracks tok gptOss none none
  | closed {l : Log} : l.last.finishedReason.isSome →
      decodeOne tok gptOss none l.whole = .ok (none, l.delivered) →
      Tracks tok gptOss none (some l)
  | opened {s : DecodeStatus} {l : Log} {done rest : List Token} : l.last.finishedReason = none →
      Follows tok s l done rest → Tracks tok gptOss (some s) (some l)

theorem Follows.message (h : Follows tok s l done rest)
    (hstop : (stopToken e).isSome → e.decodeIds ≠ []) (hclean : LaterClean tok s l e) :
    ∃ status' text, decodeOne tok gptOss (some s) e = .ok (status', text) ∧
      Tracks tok gptOss status' (some ((l.extended e).sent text)) := by
  obtain ⟨hskip, hspaces, hprint, hcut⟩ := hclean
  have hbytes := Log.bytes_extended tok hskip hspaces
  have hext := h.extended hskip hspaces
  have hpending : pendingText tok s e = utf8.translate (l.bytes tok (rest ++ e.decodeIds)) := by
    have hids := hext.ids
    have hread := hext.read
    simp only [pendingText]
    rw [hids, show s.readOffset = _ from hread, drop_left, ← hbytes]
    rfl
  cases hfin : e.finishedReason with
  | none =>
    have hone := hext.decodeOne_open (some s) gptOss rfl hfin
    refine ⟨_, _, hone, ?_⟩
    obtain ⟨done', rest', hnext⟩ := hext.advance_open hfin (by
      rw [hbytes, ← hpending]
      exact hprint hfin)
    exact .opened hfin hnext
  | some reason =>
    have hsome : e.finishedReason.isSome := by rw [hfin]; rfl
    obtain ⟨ids, htrim⟩ := trimIds_append gptOss hstop
    refine ⟨_, _, h.decodeOne_finished htrim hskip hspaces hsome, .closed hsome ?_⟩
    have hwhole := Log.decodeOne_whole htrim hskip hspaces hsome h.settled_prompt
    have hfull : l.decodedText ++ utf8.translate (l.bytes tok (l.tokens ++ ids)) =
        s.decodedText ++ utf8.translate (l.bytes tok (rest ++ ids)) := by
      rw [h.tokens, append_assoc, Log.bytes_append,
        h.settled_done.translate_append flush_init, h.text, append_assoc]
    rw [hfull] at hwhole
    simp only [Log.sent]
    rw [show (l.extended e).delivered = l.delivered from rfl, h.delivered_append
      (h.delivered_prefix_trimText htrim (hpending ▸ hcut))]
    exact hwhole

theorem FirstClean.message (hstop : (stopToken e).isSome → e.decodeIds ≠ [])
    (hclean : FirstClean tok e) :
    ∃ status' text, decodeOne tok gptOss none e = .ok (status', text) ∧
      Tracks tok gptOss status' (some ((Log.opened e).sent text)) := by
  obtain ⟨hread, hprompt⟩ := hclean
  have hfollows := Follows.opened hread hprompt
  cases hfin : e.finishedReason with
  | none =>
    have hone := hfollows.decodeOne_open none gptOss rfl hfin
    refine ⟨_, _, hone, ?_⟩
    obtain ⟨done', rest', hnext⟩ := hfollows.advance_open hfin fun _ => Nat.zero_le _
    exact .opened hfin hnext
  | some reason =>
    have hsome : e.finishedReason.isSome := by rw [hfin]; rfl
    obtain ⟨ids, htrim⟩ := trimIds_append gptOss hstop
    obtain ⟨text, hone⟩ : ∃ text, decodeOne tok gptOss none e = .ok (none, text) := by
      have htrim' : trimIds gptOss ((statusFor none e).decodeIds.drop
          (statusFor none e).surrOffset) e.finishedReason e.noStopTrim = .ok ids := htrim []
      simp only [decodeOne, htrim', hsome, if_true]
      exact ⟨_, rfl⟩
    -- the message holds everything already
    have hwhole : ((Log.opened e).sent text).whole = e := by
      simp [Log.whole, Log.opened, Log.sent, hread]
    refine ⟨none, text, hone, .closed hsome ?_⟩
    rw [hwhole]
    exact hone

/-- One message keeps the texts sent in step with the tokens received. -/
theorem Tracks.message {status : Option DecodeStatus} {log : Option Log}
    (h : Tracks tok gptOss status log) (hclean : MessageClean tok status log e) :
    ∃ status' text, decodeOne tok gptOss status e = .ok (status', text) ∧
      Tracks tok gptOss status' (some ((logFor status log e).sent text)) := by
  obtain ⟨hstop, hclean⟩ := hclean
  cases h with
  | unknown => exact FirstClean.message hstop hclean
  | closed => exact FirstClean.message hstop hclean
  | opened _ hfollows => exact hfollows.message hstop hclean

end LLM42.Detokenizer
