import LLM42.Scheduler.Completion
import LLM42.Scheduler.Progress

/-! # Aborts

The first finish check of a decode step consumes a pending abort, and the verification of the same
step may take the finish back. -/

namespace LLM42

open Scheduler LLM42Worker Library

/-- The pass over the output of `r` with `token` behind it changes nothing. -/
def Verdict.Agrees (v : Verdict) (w : LLM42Worker) (id : ReqId) (r : Req) (token : Token) : Prop :=
  w.Accepts (r.unverified ++ [token]) ((List.range (r.unverified.length + 1)).map (v.tokens id))
deriving Decidable

section Requests

variable {cfg : SchedulerConfig} {rejected planned : Prop} {token : Token} {logits : LogitsRow}
  {v : Verdict} {e e' : BatchEntry} {r r₁ r₂ r' : Req} {message : Option StreamMessage}

theorem Req.finishedReason_congr (hc : r'.core = r.core) :
    r'.finishedReason = r.finishedReason := by
  have h := congrArg (fun x : Req => x.finishedReason) hc
  exact h

/-- The window that a pass gets when the result loop kept the sampled token. -/
theorem Req.unverified_of_append (hids : r'.outputIds = r.outputIds ++ [token])
    (hver : r'.llm42VerifiedTokens = r.llm42VerifiedTokens)
    (hle : r.llm42VerifiedTokens ≤ r.outputIds.length) :
    r'.unverified = r.unverified ++ [token] := by
  unfold Req.unverified
  rw [hids, hver, List.drop_append_of_le_length hle]

/-- A pass over that window accepts it exactly when the verdict agrees. -/
theorem Verdict.agrees_iff (v : Verdict) (w : LLM42Worker) (id : ReqId)
    (hwin : r'.unverified = r.unverified ++ [token]) :
    w.rollbackCount r'.unverified (v.rows id r') = 0 ↔ v.Agrees w id r token := by
  rw [w.rollbackCount_eq_zero_iff (by simp [hwin]) (by simp [Verdict.rows]), Verdict.Agrees,
    Verdict.rows, hwin, List.length_append, List.length_singleton]

theorem Req.aborted_decoded {m : String} (henable : cfg.args.enableLlm42 = true)
    (hdet : r.isDeterministic) (hunf : ¬ r.finished) (habort : r.toFinish = some (.abort m))
    (h₁ : r.advanced.AbortedIf rejected r₁)
    (h₂ : (r₁.decoded cfg token logits).AbortedIf rejected r₂) :
    (∃ m', r₂.finishedReason = some (.abort m')) ∧ r₂.toFinish = none ∧
      r₂.outputIds = r.outputIds ++ [token] ∧
      r₂.llm42VerifiedTokens = r.llm42VerifiedTokens := by
  obtain ⟨m₁, habort₁⟩ : ∃ m₁, r₁.toFinish = some (.abort m₁) := by
    rcases h₁ with rfl | ⟨_, _, x, rfl⟩
    · exact ⟨m, habort⟩
    · exact ⟨x, rfl⟩
  have hunf₁ : ¬ r₁.finished := by
    rw [Req.finished_congr h₁.core_eq]
    exact hunf
  have hdet₁ : r₁.isDeterministic := by
    rw [Req.isDeterministic_congr h₁.core_eq]
    exact hdet
  have hcheck : r₁.decodeToken token logits = { r₁.appendToken token logits with
      finishedReason := some (.abort m₁), toFinish := none } := by
    have habort₂ : (r₁.appendToken token logits).toFinish = _ := habort₁
    rw [Req.decodeToken, Req.checkFinished, if_neg (by exact hunf₁), habort₂]
  have hids : r₁.outputIds = r.outputIds := (Req.outputIds_congr h₁.core_eq).trans rfl
  have hver : r₁.llm42VerifiedTokens = r.llm42VerifiedTokens :=
    (Req.verified_congr h₁.core_eq).trans rfl
  rw [Req.decoded_of_deterministic henable hdet₁, hcheck] at h₂
  generalize hr : ({ r₁.appendToken token logits with
    finishedReason := some (.abort m₁), toFinish := none } : Req) = r₃ at h₂
  have hreason : r₃.finishedReason = some (.abort m₁) := by rw [← hr]
  have hcore := r₃.acceptToken_core token
  have hfin : r₃.finished := by simp [Req.finished, hreason]
  obtain rfl := h₂.eq_of_finished ((Req.finished_congr hcore).trans hfin)
  refine ⟨⟨m₁, (Req.finishedReason_congr hcore).trans hreason⟩, ?_, ?_, ?_⟩
  · refine Req.acceptToken_closed (fun _ => ?_) ((Req.finished_congr hcore).trans hfin)
    rw [← hr]
  · rw [Req.outputIds_congr hcore, ← hr, ← hids]
    rfl
  · rw [Req.verified_congr hcore, ← hr, ← hver]
    rfl

theorem Req.rechecked_ne_abort (hunf : ¬ r.finished) (ht : r.toFinish = none) (m : String) :
    r.rechecked.finishedReason ≠ some (.abort m) := by
  have hopen : r.finishedReason ≠ some (.abort m) := fun h => by simp [Req.finished, h] at hunf
  have hcheck := Req.checkFinished_ne_abort hunf ht m
  unfold Req.rechecked
  split_ifs
  · exact hopen
  · exact hopen
  · exact hcheck
  · exact hcheck

theorem Req.rechecked_of_finished (hf : r.finished) :
    r.rechecked.finishedReason = r.finishedReason := by
  unfold Req.rechecked
  rw [Req.checkFinished_of_finished hf]
  split_ifs <;> rfl

theorem RequestDecode.aborted_iff {m : String} (hlive : Live cfg 0 0 e r)
    (henable : cfg.args.enableLlm42 = true) (hdet : r.isDeterministic) (hunf : ¬ r.finished)
    (habort : r.toFinish = some (.abort m))
    (h : RequestDecode cfg rejected planned token logits v e r e' r' message) :
    (∃ m', r'.finishedReason = some (.abort m')) ↔ v.Agrees cfg.worker e.req r token := by
  obtain @⟨r₁, r₂, r₃, _, _, _, h₁, h₂, hafter, rfl, _, hready⟩ := h
  obtain ⟨⟨m₂, hreason⟩, hpending, hids, hver⟩ := Req.aborted_decoded henable hdet hunf habort h₁ h₂
  have hlive₂ := hlive.decoded_of_deterministic henable hdet h₁ h₂
  have hdet₂ : r₂.isDeterministic := by
    rw [Req.isDeterministic_congr h₂.core_eq, Req.isDeterministic_decoded,
      Req.isDeterministic_congr h₁.core_eq]
    exact hdet
  have hfin₂ : r₂.finished := by simp [Req.finished, hreason]
  have hle := hlive.verified_le
  have hcand := hlive₂.isCandidate hdet₂ (by rw [hids, hver, List.length_append]; simp; omega)
  have hplan := hready hcand (by simp [isReady, hfin₂])
  have hwin := Req.unverified_of_append hids hver hle
  rw [Req.finishedReason_congr (r₃.streamOutput_core cfg.args),
    ← v.agrees_iff cfg.worker e.req hwin]
  cases hafter with
  | off hdis => simp [hdis] at henable
  | on _ hstep =>
    cases hstep with
    | skipped hskip => exact absurd hplan hskip
    | @verified net r₄ _ _ hout =>
      have houtcome := hout.outcome
      change VerifyOutcome r₂ (v.rows e.req r₂)
        (cfg.worker.rollbackCount r₂.unverified (v.rows e.req r₂)) r₄ net at houtcome
      generalize cfg.worker.rollbackCount r₂.unverified (v.rows e.req r₂) = k at houtcome ⊢
      cases houtcome with
      | accepted x hk =>
        refine iff_of_true ⟨m₂, ?_⟩ hk
        rw [Req.rechecked_of_finished (by exact hfin₂)]
        exact hreason
      | corrected x t hk _ _ =>
        refine iff_of_false ?_ hk.ne'
        rintro ⟨m', hm'⟩
        refine absurd hm' (Req.rechecked_ne_abort ?_ ?_ m')
        · simp [Req.finished, Req.rolledBack]
        · exact hpending

end Requests

/-- A decoding deterministic request with a pending abort ends its decode step aborted exactly when
the verification of that step agrees with all its tokens; a net or a single-token correction clears
the abort for good. -/
theorem abort_kept_iff {cfg : SchedulerConfig} {s t : Scheduler} {tokens : ReqId → Token}
    {logitsOf : ReqId → LogitsRow} {verdict : Verdict} {victims : List NodeRef} {id : ReqId}
    {m : String} (henable : cfg.args.enableLlm42 = true)
    (hs : Reachable (step cfg) (Boots cfg) (fun _ _ => True) s)
    (hd : s.decode cfg tokens logitsOf verdict victims = .ok t) (hid : id ∈ s.running)
    (hunf : ¬ (s.heap id).finished) (hdet : (s.heap id).isDeterministic)
    (habort : (s.heap id).toFinish = some (.abort m)) :
    (∃ m', (t.heap id).finishedReason = some (.abort m')) ↔
      verdict.Agrees cfg.worker id (s.heap id) (tokens id) := by
  have hc := (progress_of_reachable hs).consistent
  obtain ⟨e₀, he₀, heq₀⟩ := mem_running.mp hid
  have hrun : id ∈ s.filterBatch.running :=
    mem_running.mpr ⟨e₀, mem_filterBatch.mpr ⟨he₀, by rwa [heq₀]⟩, heq₀⟩
  have hle : s.nextId ≤ t.nextId :=
    hc.nextId_le (show s.step cfg (.decode tokens logitsOf verdict victims) = .ok t from hd)
  have hlt : id < t.nextId := (hc.lt id (List.mem_append_left _ hid)).trans_le hle
  cases requestStep_decode hc hd hlt with
  | kept _ _ _ _ hdec => exact absurd hrun hdec
  | decoded P he heq _ _ hstep =>
    have hlive := live_of_mem_filterBatch hc he
    subst heq
    exact hstep.aborted_iff hlive henable hdet hunf habort

def abortRunning : List SchedulerEvent := oneTokenIn smallReq ++ [.abort "a" false]

theorem abort_kept_iff_abortRunning :
    ∃ s, runEvents (step ⟨{}, smallServer.1⟩) (smallStart .chunkCache)
        abortRunning = .ok s ∧
      ∃ t, s.decode ⟨{}, smallServer.1⟩ (fun _ => 7) (fun _ => 0) ⟨fun _ i => 6 + i, none⟩ [] =
          .ok t ∧ (t.heap 0).outputIds = [5, 6, 7] ∧
        ∃ m, (t.heap 0).finishedReason = some (.abort m) :=
  exists_runEvents_imp (p := fun s => ∃ _, _ ∧ _ ∧ 0 ∈ s.running ∧ _ ∧ _ ∧
      (s.heap 0).toFinish = some (.abort "Aborted") ∧
      Verdict.Agrees ⟨fun _ i => 6 + i, none⟩ smallServer.1 0 (s.heap 0) 7)
    (boots_smallStart rfl) (by decide +kernel)
    fun _ hreach ⟨t, ht, hids, hrunning, hunf, hdet, habort, hagree⟩ =>
      ⟨t, ht, hids, (abort_kept_iff rfl hreach ht hrunning hunf hdet habort).mpr hagree⟩

/-- The verifier rejects the window: after the step the request neither is finished nor has an abort
pending, and it goes on decoding. -/
theorem abort_lost_on_rejection :
    ∃ s, runEvents (step ⟨{}, smallServer.1⟩) (smallStart .chunkCache)
        (abortRunning ++ [.decode (fun _ => 7) (fun _ => 0) ⟨fun _ _ => 9, none⟩ [],
          .decode (fun _ => 8) (fun _ => 0) ⟨fun _ _ => 0, none⟩ []]) = .ok s ∧
      (s.heap 0).outputIds = [5, 9, 8] ∧ (s.heap 0).finishedReason = none ∧
      (s.heap 0).toFinish = none ∧ s.running = [0] :=
  exists_runEvents _ _ _ (by decide +kernel)

end LLM42
