import LLM42.Scheduler.Windows

/-! # Verification makes progress

Every pass moves the verified prefix of the requests that it treats forward, whatever it discards, so
a request meets at most `max_new_tokens` passes. -/

namespace LLM42

open Scheduler LLM42Worker LLM42Info Library List

namespace Req

def HasRoom (r : Req) : Prop := r.outputIds.length < r.samplingParams.maxNewTokens

/-- The passes of a request are covered by its verified tokens and by its limit. -/
structure Paced (r : Req) : Prop where
  verified : r.llm42NumVerificationWindows ≤ r.llm42VerifiedTokens
  limit : r.llm42NumVerificationWindows ≤ r.samplingParams.maxNewTokens

def pace (r : Req) : ℕ × ℕ × ℕ :=
  (r.llm42NumVerificationWindows, r.llm42VerifiedTokens, r.samplingParams.maxNewTokens)

variable {r r' : Req}

theorem Paced.congr (h : r.Paced) (hp : r'.pace = r.pace) : r'.Paced := by
  simp only [pace, Prod.mk.injEq] at hp
  obtain ⟨hwin, hver, hmax⟩ := hp
  exact ⟨by rw [hwin, hver]; exact h.verified, by rw [hwin, hmax]; exact h.limit⟩

theorem pace_congr (hc : r'.core = r.core) : r'.pace = r.pace := by
  have h := congrArg (fun x : Req => x.pace) hc
  exact h

theorem maxNewTokens_congr (hp : r'.pace = r.pace) :
    r'.samplingParams.maxNewTokens = r.samplingParams.maxNewTokens := by
  have h := congrArg (fun x : ℕ × ℕ × ℕ => x.2.2) hp
  exact h

theorem HasRoom.congr (h : r.HasRoom) (hc : r'.core = r.core) : r'.HasRoom := by
  unfold HasRoom
  rw [outputIds_congr hc, maxNewTokens_congr (pace_congr hc)]
  exact h

theorem pace_checkFinished (r : Req) : r.checkFinished.pace = r.pace := by
  rw [checkFinished_eq]
  rfl

theorem pace_decoded (cfg : SchedulerConfig) (token : Token) (logits : LogitsRow) (r : Req) :
    (r.decoded cfg token logits).pace = r.pace := by
  have hdec : (r.decodeToken token logits).pace = r.pace := (pace_checkFinished _).trans rfl
  refine (pace_congr (acceptToken_core _ _)).trans ?_
  split
  · exact hdec
  · exact hdec

theorem pace_rechecked (r : Req) : r.rechecked.pace = r.pace := by
  unfold rechecked
  split_ifs
  · rfl
  · rfl
  · exact pace_checkFinished r
  · exact pace_checkFinished r

theorem hasRoom_of_unfinished (h : ¬ r.checkFinished.finished) : r.checkFinished.HasRoom := by
  rw [checkFinished_of_unfinished h]
  rw [finished_checkFinished_iff] at h
  by_contra hfull
  exact h (.inr (.inr (.inr (.inl (Nat.not_lt.mp hfull)))))

theorem decoded_hasRoom {cfg : SchedulerConfig} {token : Token} {logits : LogitsRow}
    (h : ¬ (r.decoded cfg token logits).finished) : (r.decoded cfg token logits).HasRoom := by
  unfold decoded at h ⊢
  rw [finished_congr (acceptToken_core _ _)] at h
  refine HasRoom.congr ?_ (acceptToken_core _ _)
  split_ifs at h ⊢ with hf
  · simp only [Bool.and_eq_true] at hf
    exact absurd hf.1 h
  · exact hasRoom_of_unfinished h

end Req

section Requests

variable {cfg : SchedulerConfig} {rejected planned : Prop} {token : Token} {logits : LogitsRow}
  {v : Verdict} {e e' : BatchEntry} {r r₁ r₂ r' : Req} {message : Option StreamMessage}

theorem LLM42Worker.VerifyOutcome.progress {rows : List Token} {k net : ℕ}
    (h : VerifyOutcome r rows k r' net) (hlt : r.llm42VerifiedTokens < r.outputIds.length) :
    r.llm42VerifiedTokens < r'.llm42VerifiedTokens ∧
      r'.outputIds.take r.llm42VerifiedTokens = r.outputIds.take r.llm42VerifiedTokens ∧
      r'.llm42VerifiedTokens ≤ r'.outputIds.length ∧
      r'.outputIds.length ≤ r.outputIds.length ∧
      r'.llm42NumVerificationWindows = r.llm42NumVerificationWindows + 1 ∧
      r'.samplingParams = r.samplingParams := by
  cases h with
  | accepted => exact ⟨hlt, rfl, le_refl _, le_refl _, rfl, rfl⟩
  | corrected x t hk hle hrow =>
    rw [Req.length_unverified] at hle
    have hlen : (r.outputIds.rdrop k ++ [t]).length = r.outputIds.length - k + 1 := by
      simp [length_rdrop]
    refine ⟨?_, ?_, hlen.ge, ?_, rfl, rfl⟩
    · dsimp only
      omega
    · rw [take_append_of_le_length (by rw [length_rdrop]; omega), rdrop,
        take_take, min_eq_left (by omega)]
    · rw [hlen]
      omega

theorem LLM42Worker.VerifyOutcome.paced {rows : List Token} {k net : ℕ}
    (h : VerifyOutcome r rows k r' net) (hlt : r.llm42VerifiedTokens < r.outputIds.length)
    (hmax : r.outputIds.length ≤ r.samplingParams.maxNewTokens) (hp : r.Paced) : r'.Paced := by
  obtain ⟨hver, _, hle, hlen, hwin, hsamp⟩ := h.progress hlt
  have hwin' := hp.verified
  refine ⟨by omega, ?_⟩
  rw [hsamp]
  omega

theorem lt_of_isCandidate (h : isCandidate r) : r.llm42VerifiedTokens < r.outputIds.length := by
  simp only [isCandidate, Bool.and_eq_true, decide_eq_true_eq] at h
  exact h.2

theorem Req.HasRoom.accepted (hroom : r.HasRoom) (h₁ : r.advanced.AbortedIf rejected r₁)
    (h₂ : (r₁.decoded cfg token logits).AbortedIf rejected r₂) :
    r₂.pace = r.pace ∧ r₂.outputIds.length ≤ r₂.samplingParams.maxNewTokens := by
  have hpace : r₂.pace = r.pace :=
    (Req.pace_congr h₂.core_eq).trans ((Req.pace_decoded _ _ _ _).trans
      ((Req.pace_congr h₁.core_eq).trans rfl))
  refine ⟨hpace, ?_⟩
  have hlen : r₁.outputIds.length = r.outputIds.length :=
    (congrArg length (Req.outputIds_congr h₁.core_eq)).trans rfl
  rw [Req.outputIds_congr h₂.core_eq, Req.length_outputIds_decoded, hlen,
    Req.maxNewTokens_congr hpace]
  exact hroom

theorem Live.rechecked_hasRoom {ahead lag : ℕ} (hlive : Live cfg ahead lag e r)
    (hdet : r.isDeterministic) (hunf : ¬ r.rechecked.finished) : r.rechecked.HasRoom := by
  unfold Req.rechecked at hunf ⊢
  split_ifs at hunf ⊢ with hskip hdone hfin
  · simp [hlive.isRetracted, hdet] at hskip
  · simp [hlive.completed] at hdone
  · exact absurd hfin hunf
  · exact Req.hasRoom_of_unfinished hunf

theorem RequestDecode.hasRoom (hlive : Live cfg 0 0 e r)
    (h : RequestDecode cfg rejected planned token logits v e r e' r' message)
    (hunf : ¬ r'.finished) : r'.HasRoom := by
  obtain @⟨r₁, r₂, r₃, _, _, _, h₁, h₂, hafter, rfl, _, _⟩ := h
  have hcore := r₃.streamOutput_core cfg.args
  rw [Req.finished_congr hcore] at hunf
  refine Req.HasRoom.congr ?_ hcore
  have hroom₂ : ¬ r₂.finished → r₂.HasRoom := by
    intro hunf₂
    rw [Req.finished_congr h₂.core_eq] at hunf₂
    exact (Req.decoded_hasRoom hunf₂).congr h₂.core_eq
  cases hafter with
  | off => exact hroom₂ hunf
  | on henable hstep =>
    cases hstep with
    | verified _ hcand hout =>
      have hacc := ((hlive.accepted h₁ h₂).verifiable henable hcand).1
      refine (hacc.verified hout.outcome).rolledBack.rechecked_hasRoom ?_ hunf
      exact hout.outcome.isDeterministic.trans (isDeterministic_of_isCandidate hcand)
    | skipped _ =>
      obtain ⟨hunf₂, hids⟩ := Req.rechecked_of_unfinished hunf
      unfold Req.HasRoom
      rw [hids, Req.maxNewTokens_congr (Req.pace_rechecked _)]
      exact hroom₂ hunf₂

theorem RequestDecode.paced (hroom : r.HasRoom) (hp : r.Paced)
    (h : RequestDecode cfg rejected planned token logits v e r e' r' message) : r'.Paced := by
  obtain @⟨r₁, r₂, r₃, _, _, _, h₁, h₂, hafter, rfl, _, _⟩ := h
  obtain ⟨hpace, hmax⟩ := hroom.accepted h₁ h₂
  have hp₂ : r₂.Paced := hp.congr hpace
  refine Req.Paced.congr ?_ (Req.pace_congr (r₃.streamOutput_core cfg.args))
  cases hafter with
  | off => exact hp₂
  | on _ hstep =>
    refine Req.Paced.congr ?_ (Req.pace_rechecked _)
    cases hstep with
    | verified _ hcand hout => exact (hout.outcome.paced (lt_of_isCandidate hcand) hmax hp₂).congr rfl
    | skipped _ => exact hp₂

theorem Req.Paced.prefillToken {enable : Bool} (hp : r.Paced)
    (hle : r.llm42VerifiedTokens ≤ r.outputIds.length) :
    (r.prefillToken enable token logits).Paced := by
  have hver := r.prefillToken_llm42VerifiedTokens token logits enable
  have hwin : (r.prefillToken enable token logits).llm42NumVerificationWindows =
      r.llm42NumVerificationWindows := by
    rw [Req.prefillToken, Req.checkFinished_eq]
    split <;> rfl
  have hpaced := hp.verified
  refine ⟨?_, by rw [hwin, Req.prefillToken_samplingParams]; exact hp.limit⟩
  rw [hwin, hver]
  split
  next hnil =>
    rw [hnil.2.2, length_nil] at hle
    omega
  next => exact hpaced

theorem RequestExtend.hasRoom {row : ℕ}
    (h : RequestExtend cfg rejected token logits row r r' message) (hunf : ¬ r'.finished) :
    r'.HasRoom := by
  obtain @⟨indices, node, r₁, r₂, r₃, _, _, _, h₁, hout, h₃, rfl, _⟩ := h
  have hcore := h₃.streamOutput_core cfg.args
  rw [Req.finished_congr hcore] at hunf
  refine Req.HasRoom.congr ?_ hcore
  cases hout with
  | finished hf =>
    rw [Req.finished_congr (Req.acceptToken_core _ _)] at hunf
    exact absurd hf hunf
  | shared start indices' node' hf _ =>
    have hshared : ((r₁.prefillToken cfg.args.enableLlm42 token logits).shared start indices'
        node').HasRoom := Req.hasRoom_of_unfinished hf
    exact hshared.congr (Req.acceptToken_core _ _)

theorem RequestExtend.paced {row : ℕ} (hq : Queued cfg r) (hp : r.Paced)
    (h : RequestExtend cfg rejected token logits row r r' message) : r'.Paced := by
  obtain @⟨indices, node, r₁, r₂, r₃, _, _, _, h₁, hout, h₃, rfl, _⟩ := h
  have hp₁ : r₁.Paced := hp.congr ((Req.pace_congr h₁.core_eq).trans rfl)
  have hle : r₁.llm42VerifiedTokens ≤ r₁.outputIds.length := by
    obtain ⟨_, _, hids, hver, _⟩ := h₁.fields
    rw [hids, hver]
    exact hq.verified_le
  have hprefill : (r₁.prefillToken cfg.args.enableLlm42 token logits).Paced := hp₁.prefillToken hle
  refine Req.Paced.congr ?_ (Req.pace_congr (h₃.streamOutput_core cfg.args))
  cases hout with
  | finished hf =>
    exact hprefill.congr ((Req.pace_congr (Req.acceptToken_core _ _)).trans rfl)
  | shared start indices' node' hf _ =>
    exact hprefill.congr ((Req.pace_congr (Req.acceptToken_core _ _)).trans rfl)

end Requests

structure Progress (cfg : SchedulerConfig) (s : Scheduler) : Prop where
  consistent : Consistent cfg s
  running : ∀ id ∈ s.running, ¬ (s.heap id).finished → (s.heap id).HasRoom
  paced : ∀ id < s.nextId, (s.heap id).Paced

section Runs

variable {cfg : SchedulerConfig} {s t : Scheduler} {tokens : ReqId → Token}
  {logitsOf : ReqId → LogitsRow}

theorem Progress.hasRoom (h : Progress cfg s) {e : BatchEntry} (he : e ∈ s.filterBatch.runningBatch) :
    (s.heap e.req).HasRoom := by
  obtain ⟨hmem, hunf⟩ := mem_filterBatch.mp he
  exact h.running e.req (mem_map_of_mem hmem) hunf

/-- A running request has room for another token after every event. -/
theorem Progress.step (h : Progress cfg s) {event : SchedulerEvent}
    (hs : s.step cfg event = .ok t) : Progress cfg t := by
  have hc := h.consistent.step hs
  refine ⟨hc, fun id hid hunf => ?_, fun id hid => ?_⟩
  · obtain ⟨e, he, heq⟩ := mem_running.mp hid
    have hlt := hc.lt id (mem_append_left _ hid)
    cases h.consistent.requestStep hs hlt with
    | kept _ hkept hbatch _ _ =>
      rw [Req.finished_congr hkept.core_eq] at hunf
      exact (h.running id (mem_running.mpr ⟨e, hbatch e he heq, heq⟩) hunf).congr hkept.core_eq
    | received _ _ _ hnot => exact absurd hid hnot
    | extended _ _ hstep _ _ => exact hstep.hasRoom hunf
    | decoded P he₀ heq₀ _ _ hstep =>
      have hlive := live_of_mem_filterBatch h.consistent he₀
      rw [heq₀] at hlive
      exact hstep.hasRoom hlive hunf
    | retracted _ _ _ hnot => exact absurd hid hnot
  · cases h.consistent.requestStep hs hid with
    | kept hlt hkept _ _ _ => exact (h.paced id hlt).congr (Req.pace_congr hkept.core_eq)
    | received _ hnew hheap _ =>
      have hwin := (Req.initial_of_isNew hnew).windows
      rw [hheap]
      exact ⟨by omega, by omega⟩
    | extended _ hq hstep _ _ =>
      have hpaced := h.paced id (h.consistent.lt id (mem_append_right _ hq))
      exact hstep.paced (h.consistent.queued id hq) hpaced
    | decoded P he₀ heq₀ _ _ hstep =>
      have hroom := h.hasRoom he₀
      have hpaced := h.paced id (h.consistent.lt id (mem_append_left _
        (s.filterBatch_sublist.subset (mem_running.mpr ⟨_, he₀, heq₀⟩))))
      rw [heq₀] at hroom
      exact hstep.paced hroom hpaced
    | retracted _ hrun hheap _ =>
      have hlt := h.consistent.lt id (mem_append_left _ (s.filterBatch_sublist.subset hrun))
      rw [hheap]
      exact (h.paced id hlt).congr rfl

theorem progress_of_reachable (h : Reachable (step cfg) (Boots cfg) (fun _ _ => True) s) :
    Progress cfg s :=
  h.invariant (fun _ hb => ⟨hb.consistent, by simp [running, hb.runningBatch],
      fun id hid => by simp [hb.nextId] at hid⟩)
    fun _ _ _ hi _ hstep => hi.step hstep

theorem Progress.planned (h : Progress cfg s) (henable : cfg.args.enableLlm42 = true)
    (P : ResultPhases cfg s tokens logitsOf) {id : ReqId} (hid : id ∈ P.planned) :
    Verifiable (P.accepted.heap id) ∧
      (P.accepted.heap id).llm42VerifiedTokens < (P.accepted.heap id).outputIds.length ∧
      (P.accepted.heap id).outputIds.length ≤ (P.accepted.heap id).samplingParams.maxNewTokens := by
  obtain ⟨hmem, hcand⟩ := candidate_of_mem_plannedIds hid
  obtain ⟨e, he, rfl⟩ := mem_map.mp hmem
  have hver := ((P.accepted_entries h.consistent e he).verifiable henable hcand).2
  refine ⟨hver, lt_of_isCandidate hcand, ?_⟩
  rw [P.accepted_runningBatch h.consistent] at he
  obtain ⟨e₀, he₀, rfl⟩ := mem_map.mp he
  obtain ⟨r, h₁, h₂⟩ := (P.accepted_spec h.consistent).1 e₀ he₀
  exact ((h.hasRoom he₀).accepted h₁ h₂).2

/-- In every run, each pass strictly increases the verified count of every request of its group,
keeps the verified prefix and stays within `max_new_tokens`, for any `skip_mismatch`; the passes of
a request are at most `max_new_tokens`. -/
theorem verification_progress (henable : cfg.args.enableLlm42 = true)
    (hs : Reachable (step cfg) (Boots cfg) (fun _ _ => True) s) :
    (∀ tokens logitsOf victims a, s.resultLoop cfg tokens logitsOf victims = .ok a →
      ∀ (verdict : Verdict) before group force numDummies after v rolledBack v' results,
      cfg.worker.plannedPasses a.heap a.runningBatch =
        before ++ (group, force, numDummies) :: after →
      cfg.worker.runPasses verdict.run a.memory.rows before a.toVerifyState = .ok (v, rolledBack) →
      cfg.worker.runVerification verdict.run a.memory.rows group force numDummies v =
        .ok (v', results) →
      ∀ id ∈ group, (v.heap id).llm42VerifiedTokens < (v'.heap id).llm42VerifiedTokens ∧
        (v'.heap id).outputIds.take (v.heap id).llm42VerifiedTokens =
          (v.heap id).outputIds.take (v.heap id).llm42VerifiedTokens ∧
        (v'.heap id).llm42VerifiedTokens ≤ (v'.heap id).outputIds.length ∧
        (v'.heap id).outputIds.length ≤ (v'.heap id).samplingParams.maxNewTokens ∧
        (v'.heap id).llm42NumVerificationWindows = (v.heap id).llm42NumVerificationWindows + 1) ∧
    ∀ id < s.nextId,
      (s.heap id).llm42NumVerificationWindows ≤ (s.heap id).samplingParams.maxNewTokens := by
  have hprog := progress_of_reachable hs
  refine ⟨?_, fun id hid => (hprog.paced id hid).limit⟩
  intro tokens logitsOf victims a ha verdict before group force numDummies after v rolledBack v'
    results hplan hbefore hpass id hid
  obtain ⟨P, rfl⟩ := resultLoop_ok ha
  have hc := hprog.consistent
  have hnd : P.accepted.running.Nodup := P.accepted_running hc ▸ nodup_filterBatch hc
  -- the groups of one step are disjoint, so earlier passes did not touch this one
  have hids : P.planned = before.flatMap (·.1) ++ (group ++ after.flatMap (·.1)) := by
    rw [ResultPhases.planned, plannedIds, hplan, flatMap_append, flatMap_cons]
  have hndIds : P.planned.Nodup := cfg.worker.nodup_plannedIds hnd
  rw [hids] at hndIds
  obtain ⟨hndBefore, hndRest, hdisj⟩ := nodup_append.mp hndIds
  have hbefore' := passed_all hndBefore (fun id hid =>
    (hprog.planned henable P (hids ▸ mem_append_left _ hid)).1) hbefore
  have hgroup : ∀ id ∈ group, id ∈ P.planned ∧ v.heap id = P.accepted.heap id := by
    intro id hid
    refine ⟨hids ▸ mem_append_right _ (mem_append_left _ hid), ?_⟩
    exact (hbefore'.other id fun hmem =>
      hdisj id hmem id (mem_append_left _ hid) rfl).1
  have hpassed := passed_one (nodup_append.mp hndRest).1 (fun id hid => by
    rw [(hgroup id hid).2]
    exact (hprog.planned henable P (hgroup id hid).1).1) hpass
  obtain ⟨net, hout, _⟩ := hpassed.outcome id hid
  obtain ⟨hmem, hheap⟩ := hgroup id hid
  obtain ⟨_, hlt, hmax⟩ := hprog.planned henable P hmem
  rw [← hheap] at hlt hmax
  obtain ⟨hver, htake, hle, hlen, hwin, hsamp⟩ := hout.outcome.progress hlt
  exact ⟨hver, htake, hle, by rw [hsamp]; omega, hwin⟩

end Runs

/-- The verifier discards both unverified tokens of request 1 and puts one of its own there. -/
theorem verification_progress_twoRequests :
    ∃ s, runEvents (step ⟨{}, smallServer.1⟩) (smallStart .chunkCache)
        (twoRequests ++ [.decode (fun _ => 6) (fun _ => 0) ⟨fun _ _ => 9, none⟩ []]) = .ok s ∧
      ∃ a, s.resultLoop ⟨{}, smallServer.1⟩ (fun _ => 6) (fun _ => 0) [] = .ok a ∧
        smallServer.1.plannedPasses a.heap a.runningBatch = [([1], true, 1)] ∧
        ∃ x, smallServer.1.runVerification (Verdict.run ⟨fun _ _ => 9, none⟩) a.memory.rows [1] true
            1 a.toVerifyState = .ok x ∧
          (a.heap 1).outputIds = [5, 6, 6] ∧ (x.1.heap 1).outputIds = [5, 9] ∧
          (a.heap 1).llm42VerifiedTokens < (x.1.heap 1).llm42VerifiedTokens :=
  exists_runEvents_imp (p := fun _ => ∃ _, _ ∧ _ ∧ ∃ _, _ ∧ _ ∧ _) (boots_smallStart rfl)
    (by decide +kernel) fun _ hreach ⟨a, ha, hplan, x, hpass, hids, hids'⟩ =>
      ⟨a, ha, hplan, x, hpass, hids, hids', ((verification_progress rfl hreach).1 _ _ _ a ha _ [] [1]
        true 1 [] a.toVerifyState [] x.1 x.2 hplan rfl hpass 1 (by simp)).1⟩

end LLM42
