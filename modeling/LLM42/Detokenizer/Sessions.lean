import LLM42.Detokenizer.Increments

/-! # Runs of the detokenizer

Batches of messages for many requests, with a log of what each request was sent. -/

namespace LLM42.Detokenizer

open Library

structure Session where
  manager : DetokenizerManager
  log : Text → Option Log

namespace Session

def start (tok : ByteTokenizer) (isToolCallParserGptOss : Bool) (capacity : ℕ)
    (h : 0 < capacity) : Session where
  manager :=
    { tokenizer := tok
      isToolCallParserGptOss
      decodeStatus := .empty capacity h }
  log _ := none

def logs (st : Session) : List TokenIDOutput → List Text → Text → Option Log
  | e :: es, text :: texts =>
    Function.update (st.logs es texts) e.rid
      (some ((logFor (st.manager.decodeStatus.get? e.rid) (st.log e.rid) e).sent text))
  | _, _ => st.log

def step (st : Session) (recvObj : List TokenIDOutput) : Except DetokenizerError Session := do
  let (manager, texts) ← st.manager.decodeBatchTokenIdOutput recvObj
  return { manager, log := st.logs recvObj texts }

/-- There is room for the statuses of the batch, which holds no health check and no request twice,
and each of its messages is cut well. -/
def CutsClean (st : Session) (recvObj : List TokenIDOutput) : Prop :=
  st.manager.decodeStatus.keys.length + recvObj.length ≤ st.manager.decodeStatus.capacity ∧
  (recvObj.map (·.rid)).Nodup ∧
  ∀ e ∈ recvObj, isHealthCheckRequest e.rid = false ∧
    MessageClean st.manager.tokenizer (st.manager.decodeStatus.get? e.rid) (st.log e.rid) e
deriving Decidable

/-- Every request is closed with all its text delivered, or followed by its status. -/
structure Tracked (tok : ByteTokenizer) (gptOss : Bool) (st : Session) : Prop where
  tokenizer_eq : st.manager.tokenizer = tok
  gptOss_eq : st.manager.isToolCallParserGptOss = gptOss
  tracks : ∀ rid, Tracks tok gptOss (st.manager.decodeStatus.get? rid) (st.log rid)

variable {st : Session} {recvObj : List TokenIDOutput} {tok : ByteTokenizer} {gptOss : Bool}
  {es : List TokenIDOutput} {texts : List Text}

theorem logs_of_not_mem {k : Text} (h : k ∉ es.map (·.rid)) : st.logs es texts k = st.log k := by
  induction es generalizing texts with
  | nil => rfl
  | cons e es ih =>
    simp only [List.map_cons, List.mem_cons, not_or] at h
    cases texts with
    | nil => rfl
    | cons text texts => rw [logs, Function.update_of_ne h.1, ih h.2]

theorem logs_of_mem {R : TokenIDOutput → Text → Prop} (hnodup : (es.map (·.rid)).Nodup)
    (h : List.Forall₂ R es texts) {e : TokenIDOutput} (he : e ∈ es) :
    ∃ text, R e text ∧ st.logs es texts e.rid =
      some ((logFor (st.manager.decodeStatus.get? e.rid) (st.log e.rid) e).sent text) := by
  induction h with
  | nil => cases he
  | @cons e' text es texts hR _ ih =>
    simp only [List.map_cons, List.nodup_cons] at hnodup
    rcases List.mem_cons.mp he with rfl | he
    · exact ⟨text, hR, by rw [logs, Function.update_self]⟩
    · have hne : e.rid ≠ e'.rid := fun heq => hnodup.1 (heq ▸ List.mem_map_of_mem he)
      obtain ⟨text', hR', hlog⟩ := ih hnodup.2 he
      exact ⟨text', hR', by rw [logs, Function.update_of_ne hne, hlog]⟩

/-- A batch of messages is decoded without failure, and every session stays tracked. -/
theorem Tracked.step (h : Tracked tok gptOss st) (hclean : st.CutsClean recvObj) :
    ∃ st', st.step recvObj = .ok st' ∧ Tracked tok gptOss st' := by
  obtain ⟨htok, hgpt, htracks⟩ := h
  subst htok hgpt
  obtain ⟨hroom, hnodup, hmessages⟩ := hclean
  have hmessage := fun e he => (htracks e.rid).message (hmessages e he).2
  obtain ⟨m', texts, hrun, hset, hdecoded, hrest⟩ :=
    DetokenizerManager.decodeBatchTokenIdOutput_spec hroom hnodup
      (fun e he => (hmessages e he).1) (fun e he => by
        obtain ⟨status', text, hone, -⟩ := hmessage e he
        exact ⟨_, hone⟩)
  refine ⟨⟨m', st.logs recvObj texts⟩, ?_, hset.1, hset.2.1, fun rid => ?_⟩
  · simp only [Session.step, hrun]
    rfl
  · change Tracks _ _ (m'.decodeStatus.get? rid) (st.logs recvObj texts rid)
    by_cases hmem : rid ∈ recvObj.map (·.rid)
    · obtain ⟨e, he, rfl⟩ := List.mem_map.mp hmem
      obtain ⟨text, hdec, hlog⟩ := st.logs_of_mem hnodup hdecoded he
      obtain ⟨status', text', hone, htracks'⟩ := hmessage e he
      have heq := Except.ok.inj (hone.symm.trans hdec)
      simp only [Prod.mk.injEq] at heq
      rw [hlog, ← heq.1, ← heq.2]
      exact htracks'
    · rw [hrest rid hmem, logs_of_not_mem hmem]
      exact htracks rid

variable {capacity : ℕ} {hcap : 0 < capacity}

theorem tracked_of_reachable
    (h : Reachable step (· = start tok gptOss capacity hcap) CutsClean st) :
    Tracked tok gptOss st := by
  refine h.invariant ?_ ?_
  · rintro st rfl
    exact ⟨rfl, rfl, fun _ => .unknown⟩
  · intro st recvObj st' htracked hclean hstep
    obtain ⟨st'', hstep', htracked'⟩ := htracked.step hclean
    rw [hstep] at hstep'
    cases hstep'
    exact htracked'

/-- As long as the messages are cut well: every batch is decoded, and the increments of a request
that has finished, joined, are the text that one message with all of its tokens brings. -/
theorem increments_join (h : Reachable step (· = start tok gptOss capacity hcap) CutsClean st) :
    (∀ rid l, st.log rid = some l → l.last.finishedReason.isSome →
      decodeOne tok gptOss none l.whole = .ok (none, l.delivered)) ∧
    ∀ recvObj, st.CutsClean recvObj → ∃ st', st.step recvObj = .ok st' := by
  have htracked := tracked_of_reachable h
  refine ⟨fun rid l hlog hfin => ?_, fun recvObj hclean => ?_⟩
  · have htracks := htracked.tracks rid
    rw [hlog] at htracks
    generalize st.manager.decodeStatus.get? rid = status at htracks
    cases htracks with
    | closed _ hwhole => exact hwhole
    | opened hopen _ => simp [hopen] at hfin
  · obtain ⟨st', hstep, -⟩ := htracked.step hclean
    exact ⟨st', hstep⟩

end Session

/-! ## Two requests -/

/-- The bytes of a few tokens; two of them end inside a character. -/
def sampleTokenizer : ByteTokenizer := fun _ _ t =>
  if t = 1 then [0x68, 0xc3]
  else if t = 2 then [0xa9, 0x20]
  else if t = 3 then "woEND".toList.flatMap String.utf8EncodeChar
  else if t = 4 then [0xe4, 0xb8, 0xad, 0xc3]
  else if t = 5 then [0xa9, 0xc3]
  else if t = 6 then [0xa9]
  else []

def sampleOutput (t : Token) (reason : Option FinishReason) : TokenIDOutput where
  rid := ['r']
  finishedReason := reason
  decodedText := []
  decodeIds := [t]
  readOffset := 0
  skipSpecialTokens := true
  spacesBetweenSpecialTokens := true
  noStopTrim := false

theorem Session.increments_join_sample :
    ∃ st l, runEvents Session.step (.start sampleTokenizer false 8 (by decide))
        [[sampleOutput 1 none], [sampleOutput 2 none],
          [sampleOutput 3 (some (.matchedStr "END".toList))]] = .ok st ∧
      st.log ['r'] = some l ∧ l.delivered = "hé wo".toList ∧
      decodeOne sampleTokenizer false none l.whole = .ok (none, l.delivered) := by
  simp only [exists_and_left]
  exact exists_runEvents_imp (p := fun st => ∃ l ∈ st.log ['r'], _ ∧ l.last.finishedReason.isSome)
    (by rfl) (by decide +kernel) fun _ hreach ⟨l, hl, hdelivered, hfin⟩ =>
      ⟨l, hl, hdelivered, (Session.increments_join hreach).1 _ l hl hfin⟩

/-- The printable part shrinks with the second message, which moves the offset of what was sent
back: the first character is sent twice. -/
theorem Session.sends_twice :
    ∃ st l, runEvents Session.step (.start sampleTokenizer false 8 (by decide))
        [[sampleOutput 4 none], [sampleOutput 5 none], [sampleOutput 6 (some (.length 3))]] =
        .ok st ∧
      st.log ['r'] = some l ∧ l.delivered = "中中éé".toList ∧
      decodeOne sampleTokenizer false none l.whole = .ok (none, "中éé".toList) := by
  simp only [exists_and_left]
  exact exists_runEvents _ _ _ (p := fun st => ∃ l ∈ Session.log st ['r'], _ ∧ _)
    (by decide +kernel)

end LLM42.Detokenizer
