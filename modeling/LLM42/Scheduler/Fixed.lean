import LLM42.Scheduler.ExtendPhases
import LLM42.Scheduler.Requests

/-! # What no step changes

A request keeps its prompt, its parameters and its model data for life. Its grammar and the number of
tokens it ever generated move with new tokens only, and `stream_output` alone sends anything, at the
end of a batch and at most once for each request. -/

namespace LLM42

namespace Grammar

def advance (g : Grammar) (token : Token) : Grammar := (g.acceptToken token).getD g

theorem advance_finished (g : Grammar) (token : Token) (b : Bool) :
    { g with finished := b }.advance token = { g.advance token with finished := b } := by
  unfold advance acceptToken isTerminated
  split_ifs <;> rfl

end Grammar

namespace Req

variable {r r' : Req}

theorem fixed_congr (hc : r'.core = r.core) : r'.fixed = r.fixed := by
  have h := congrArg fixed hc
  exact h

theorem isDeterministic_fixed (h : r'.fixed = r.fixed) : r'.isDeterministic = r.isDeterministic :=
  congrArg (·.isDeterministic) h

theorem returnLogprob_fixed (h : r'.fixed = r.fixed) : r'.returnLogprob = r.returnLogprob := by
  have hr := congrArg (fun x : Req => x.returnLogprob) h
  exact hr

def generated (r : Req) : ℕ := r.outputIds.length + r.llm42TokensRolledBack

theorem generated_congr (hc : r'.core = r.core) : r'.generated = r.generated := by
  have h := congrArg (fun x : Req => x.outputIds.length + x.llm42TokensRolledBack) hc
  exact h

def grammarState (r : Req) : Option Grammar := r.grammar.map fun g => { g with finished := false }

def profile (r : Req) : Req × ℕ × Option Grammar := (r.fixed, r.generated, r.grammarState)

theorem profile_eq (hc : r'.core = r.core) (hg : r'.grammar = r.grammar) :
    r'.profile = r.profile := by
  rw [profile, fixed_congr hc, generated_congr hc, grammarState, hg]
  rfl

theorem AbortedIf.profile {p : Prop} (h : AbortedIf p r r') : r'.profile = r.profile :=
  profile_eq h.core_eq h.grammar

theorem profile_checkFinished (r : Req) : r.checkFinished.profile = r.profile := by
  have hfixed : r.checkFinished.fixed = r.fixed := by
    rw [checkFinished_eq]
    rfl
  simp [profile, hfixed, generated, grammarState]

theorem grammarState_acceptToken (r : Req) (token : Token) :
    (r.acceptToken token).grammarState = r.grammarState.map (·.advance token) := by
  unfold acceptToken grammarState
  cases hg : r.grammar with
  | none => simp [hg]
  | some g =>
    have hadvance := g.advance_finished token false
    dsimp only
    cases ha : g.acceptToken token with
    | none =>
      rw [show g.advance token = g by simp [Grammar.advance, ha]] at hadvance
      simp [hadvance]
    | some g' =>
      rw [show g.advance token = g' by simp [Grammar.advance, ha]] at hadvance
      simp [hadvance]

theorem profile_acceptToken (r : Req) (token : Token) :
    (r.acceptToken token).profile = (r.fixed, r.generated, r.grammarState.map (·.advance token)) := by
  rw [profile, fixed_congr (acceptToken_core _ _), generated_congr (acceptToken_core _ _),
    grammarState_acceptToken]

theorem profile_appendToken (r : Req) (token : Token) (logits : LogitsRow) :
    (r.appendToken token logits).profile = (r.fixed, r.generated + 1, r.grammarState) := by
  have hgen : (r.appendToken token logits).generated = r.generated + 1 := by
    simp only [generated, appendToken, List.length_append, List.length_singleton]
    omega
  rw [profile, hgen]
  rfl

theorem profile_decoded (cfg : SchedulerConfig) (token : Token) (logits : LogitsRow) (r : Req) :
    (r.decoded cfg token logits).profile =
      (r.fixed, r.generated + 1, r.grammarState.map (·.advance token)) := by
  have hdec := (profile_checkFinished _).trans (r.profile_appendToken token logits)
  simp only [profile, Prod.mk.injEq] at hdec
  obtain ⟨hfixed, hgen, hgrammar⟩ := hdec
  unfold decoded
  rw [profile_acceptToken, ← hfixed, ← hgen, ← hgrammar]
  split
  · rfl
  · rfl

theorem profile_prefillToken (enable : Bool) (token : Token) (logits : LogitsRow) (r : Req) :
    (r.prefillToken enable token logits).profile = (r.fixed, r.generated + 1, r.grammarState) := by
  have happend := r.profile_appendToken token logits
  unfold prefillToken
  rw [profile_checkFinished, ← happend]
  split
  · rfl
  · rfl

theorem profile_rechecked (r : Req) : r.rechecked.profile = r.profile := by
  have hcheck := profile_checkFinished r
  unfold rechecked
  split_ifs
  · rfl
  · rfl
  · exact hcheck
  · exact hcheck

theorem streamOutput_grammar (args : ServerArgs) (r : Req) :
    (r.streamOutput args).1.grammar = r.grammar := by
  have hsend : ∀ x : Req, (x.sendOutput args).1.grammar = x.grammar := by
    intro x
    unfold sendOutput initIncrementalDetokenize
    split <;> rfl
  unfold streamOutput
  split_ifs
  · rfl
  · rfl
  · exact hsend r.markFinal
  · exact hsend r
  · rfl

theorem profile_streamOutput (args : ServerArgs) (r : Req) :
    (r.streamOutput args).1.profile = r.profile :=
  profile_eq (r.streamOutput_core args) (r.streamOutput_grammar args)

end Req

section Requests

variable {cfg : SchedulerConfig} {rejected planned : Prop} {token : Token} {logits : LogitsRow}
  {v : Verdict} {e e' : BatchEntry} {r r' : Req} {message : Option StreamMessage}

theorem LLM42Worker.VerifyOutcome.profile {rows : List Token} {k net : ℕ}
    (h : VerifyOutcome r rows k r' net) : r'.profile = r.profile := by
  cases h with
  | accepted => rfl
  | corrected x t hk hle hrow =>
    have hlen := r.length_unverified
    refine congrArg (fun n => (r.fixed, n, r.grammarState)) ?_
    simp only [Req.generated, List.length_append, List.length_singleton, length_rdrop]
    omega

section

variable (h : RequestDecode cfg rejected planned token logits v e r e' r' message)

include h

theorem RequestDecode.profile : r'.profile =
    (r.fixed, r.generated + 1, r.grammarState.map (·.advance token)) := by
  obtain @⟨r₁, r₂, r₃, _, _, _, h₁, h₂, hafter, rfl, _, _⟩ := h
  have hprofile₂ : r₂.profile = (r.fixed, r.generated + 1, r.grammarState.map (·.advance token)) := by
    rw [h₂.profile, Req.profile_decoded]
    exact congrArg (fun x : Req × ℕ × Option Grammar =>
      (x.1, x.2.1 + 1, x.2.2.map (·.advance token))) (h₁.profile.trans rfl)
  rw [Req.profile_streamOutput, ← hprofile₂]
  cases hafter with
  | off => rfl
  | on _ hstep =>
    rw [Req.profile_rechecked]
    cases hstep with
    | verified _ _ hout => exact hout.outcome.profile
    | skipped => rfl

theorem RequestDecode.fixed : r'.fixed = r.fixed := congrArg Prod.fst h.profile

theorem RequestDecode.generated : r'.generated = r.generated + 1 := congrArg (·.2.1) h.profile

theorem RequestDecode.grammarState : r'.grammarState = r.grammarState.map (·.advance token) :=
  congrArg (·.2.2) h.profile

theorem RequestDecode.isDeterministic : r'.isDeterministic = r.isDeterministic :=
  Req.isDeterministic_fixed h.fixed

end

section

variable {row : ℕ} (h : RequestExtend cfg rejected token logits row r r' message)

include h

theorem RequestExtend.profile : r'.profile =
    (r.fixed, r.generated + 1, r.grammarState.map (·.advance token)) := by
  obtain @⟨indices, node, r₁, r₂, r₃, _, _, _, h₁, hout, h₃, rfl, _⟩ := h
  have hprefill : (r₁.prefillToken cfg.args.enableLlm42 token logits).profile =
      (r.fixed, r.generated + 1, r.grammarState) := by
    rw [Req.profile_prefillToken]
    exact congrArg (fun x : Req × ℕ × Option Grammar => (x.1, x.2.1 + 1, x.2.2)) (h₁.profile.trans rfl)
  simp only [Req.profile, Prod.mk.injEq] at hprefill
  obtain ⟨hfixed, hgen, hgrammar⟩ := hprefill
  rw [Req.profile_streamOutput, h₃.profile, ← hfixed, ← hgen, ← hgrammar]
  cases hout with
  | finished _ => exact (Req.profile_acceptToken _ _).trans rfl
  | shared start indices' node' _ _ => exact (Req.profile_acceptToken _ _).trans rfl

theorem RequestExtend.fixed : r'.fixed = r.fixed := congrArg Prod.fst h.profile

theorem RequestExtend.generated : r'.generated = r.generated + 1 := congrArg (·.2.1) h.profile

theorem RequestExtend.grammarState : r'.grammarState = r.grammarState.map (·.advance token) :=
  congrArg (·.2.2) h.profile

end

end Requests

end LLM42

namespace LLM42.Scheduler

/-- The messages that were built for request `id`, in their order. -/
def sentTo (s : Scheduler) (id : ReqId) : List StreamMessage :=
  (s.messages.filter fun x => decide (x.1 = id)).map (·.2)

theorem sentTo_congr {s t : Scheduler} (h : t.messages = s.messages) (id : ReqId) :
    t.sentTo id = s.sentTo id := by
  rw [sentTo, sentTo, h]

theorem streamReq_sentTo (args : ServerArgs) (s : Scheduler) (id j : ReqId) :
    (streamReq args s id).sentTo j =
      s.sentTo j ++ if j = id then ((s.heap j).streamOutput args).2.toList else [] := by
  unfold sentTo streamReq
  rw [List.filter_append, List.map_append]
  congr 1
  by_cases hj : j = id
  · subst hj
    cases ((s.heap j).streamOutput args).2 with
    | none => simp
    | some message => simp
  · have hne : id ≠ j := fun h => hj h.symm
    simp [hj, hne]

theorem streamOutput_sentTo (args : ServerArgs) {ids : List ReqId} (hnd : ids.Nodup)
    (s : Scheduler) (j : ReqId) :
    (s.streamOutput args ids).sentTo j =
      s.sentTo j ++ if j ∈ ids then ((s.heap j).streamOutput args).2.toList else [] := by
  induction ids generalizing s with
  | nil => simp [streamOutput]
  | cons id ids ih =>
    obtain ⟨hid, hnd⟩ := List.nodup_cons.mp hnd
    have hrest := ih hnd (streamReq args s id)
    rw [streamOutput, List.foldl_cons]
    rw [streamOutput] at hrest
    rw [hrest, streamReq_sentTo]
    by_cases hj : j = id
    · subst hj
      simp [hid]
    · simp [hj, streamReq, setReq]

theorem extendRows_messages (es : ScheduleBatch) (locs : List ℕ) (s : Scheduler) :
    (extendRows es locs s).messages = s.messages := by
  induction es generalizing locs s with
  | nil => cases locs <;> rfl
  | cons e es ih =>
    cases locs with
    | nil => rfl
    | cons loc locs => exact ih locs (s.extendRow e loc)

theorem assignRows_messages (xs : List (ReqId × ℕ)) (locs : List ℕ) (s : Scheduler) :
    (assignRows xs locs s).messages = s.messages := by
  induction xs generalizing locs s with
  | nil => rfl
  | cons x xs ih =>
    exact ih (locs.drop (s.heap x.1).extendInputLen)
      (s.assignRow x.1 x.2 (locs.take (s.heap x.1).extendInputLen))

theorem matchLoop_messages (ids : List ReqId) (s : Scheduler) :
    (ids.foldl initNextRoundInput s).messages = s.messages := by
  induction ids generalizing s with
  | nil => rfl
  | cons id ids ih => exact ih (s.initNextRoundInput id)

variable {cfg : SchedulerConfig} {s t : Scheduler} {tokens : ReqId → Token}
  {logitsOf : ReqId → LogitsRow} {verdict : Verdict} {ids : List ReqId}

theorem ResultPhases.accepted_messages (h : Consistent cfg s)
    (P : ResultPhases cfg s tokens logitsOf) : P.accepted.messages = s.messages := by
  have hprepared : P.prepared.messages = s.messages := by
    rw [P.prepared_eq]
    exact extendRows_messages _ _ _
  refine P.accepted_invariant (I := fun u => u.messages = s.messages) h hprepared ?_
  intro e _ u v hmem _ _ hu hstep
  exact (decodeResult_ok hmem hstep).1.messages.trans hu

theorem DecodePhases.rechecked_messages (h : Consistent cfg s)
    (P : DecodePhases cfg s tokens logitsOf verdict t) : P.rechecked.messages = s.messages := by
  have hacc := P.accepted_messages h
  refine P.rechecked_invariant (I := fun u => u.messages = s.messages) h hacc (fun _ _ _ => hacc) ?_ ?_
  · intro e _ _ _ u net w _ hu hstep
    exact ((rollback_ok hstep).1 True).messages.trans hu
  · intro e _ _ e' u w _ _ hu hstep
    exact ((recheck_ok hstep).1 True).messages.trans hu

theorem DecodePhases.sentTo (h : Consistent cfg s)
    (P : DecodePhases cfg s tokens logitsOf verdict t) (id : ReqId) :
    t.sentTo id =
      s.sentTo id ++ if id ∈ s.filterBatch.running then (P.message id).toList else [] := by
  have hrun : P.rechecked.running = s.filterBatch.running :=
    (running_eq_of_forall₂ ((P.rechecked_requests h).1.imp fun _ _ h => h.1)).trans
      (P.accepted_running h)
  have hsent := streamOutput_sentTo cfg.args (hrun ▸ nodup_filterBatch h) P.rechecked id
  rw [sentTo_congr (P.rechecked_messages h), hrun] at hsent
  exact (congrArg (fun u : Scheduler => u.sentTo id) P.final_eq).trans (hrun ▸ hsent)

theorem ExtendPhases.accepted_messages (hunf : ∀ id ∈ ids, ¬ (s.heap id).finished)
    (P : ExtendPhases cfg s ids tokens logitsOf t) : P.accepted.messages = s.messages := by
  have hassigned : P.assigned.messages = s.messages := by
    rw [P.assigned_eq, assignRows_messages, setMemory, P.matched_eq]
    exact matchLoop_messages _ _
  refine foldlM_heap_invariant (s := P.assigned) id (p := True) (fun u => u.messages = s.messages)
    (by simpa using P.nodup) (fun u j v hj hpre _ hu hstep => ?_) P.accepted_eq hassigned
  obtain ⟨_, _, _, _, _, hfin, hret⟩ := P.found hj (hunf j hj) hpre
  have hframe := (prefillResult_ok hj hfin hret hstep).1
  exact ⟨hframe.imp fun _ => trivial, hframe.messages.trans hu⟩

theorem ExtendPhases.sentTo (hunf : ∀ id ∈ ids, ¬ (s.heap id).finished)
    (P : ExtendPhases cfg s ids tokens logitsOf t) (id : ReqId) :
    t.sentTo id = s.sentTo id ++ if id ∈ ids then (P.message id).toList else [] := by
  have hsent := streamOutput_sentTo cfg.args P.nodup P.accepted id
  rw [sentTo_congr (P.accepted_messages hunf)] at hsent
  exact (congrArg (fun u : Scheduler => u.sentTo id) P.final_eq).trans hsent

theorem retract_messages {victims : ReqId → List NodeRef} (h : s.retract ids victims = .ok t) :
    t.messages = s.messages := by
  unfold retract at h
  dsimp only at h
  split at h
  next =>
    obtain ⟨u, hu, h⟩ := Library.bind_eq_ok h
    cases h
    have hmessages : u.messages = s.filterBatch.messages :=
      Library.foldlM_invariant (fun u : Scheduler => u.messages = s.filterBatch.messages)
        (fun u x v _ hs hstep => ((releaseReq_ok hstep).1 True).messages.trans hs) hu rfl
    exact hmessages
  next =>
  cases h
  rfl

end LLM42.Scheduler
