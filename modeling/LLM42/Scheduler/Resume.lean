import LLM42.Scheduler.Consistency

/-! # Where decoding goes on

After verification the row of the batch should hold the last token of the output. It does, except
when a pass replaced the very last token: a net rollback of zero does not refresh the row. -/

namespace LLM42

open Scheduler LLM42Worker Library

section Requests

variable {cfg : SchedulerConfig} {planned : Prop} {v : Verdict} {e e' : BatchEntry} {r r' : Req}

theorem Req.decoded_of_unfinished {token : Token} {logits : LogitsRow}
    (h : ¬ (r.decoded cfg token logits).finished) :
    (r.decoded cfg token logits).outputIds = r.outputIds ++ [token] := by
  unfold Req.decoded at h ⊢
  rw [Req.finished_congr (Req.acceptToken_core _ _)] at h
  rw [Req.outputIds_congr (Req.acceptToken_core _ _)]
  split_ifs at h ⊢ with hfin
  · exact absurd (Bool.and_eq_true_iff.mp hfin).1 h
  · rw [Req.decodeToken, Req.checkFinished_of_unfinished h]
    rfl

theorem AfterResult.outputId_iff (henable : cfg.args.enableLlm42 = true)
    (hlast : ¬ r.finished → r.outputIds.getLast? = some e.outputId)
    (h : AfterResult cfg v planned e r e' r') (hunf : ¬ r'.finished) :
    r'.outputIds.getLast? = some e'.outputId ↔
      ¬ (planned ∧ cfg.worker.rollbackCount r.unverified (v.rows e.req r) = 1 ∧
        (v.rows e.req r).getLast? ≠ some e.outputId) := by
  cases h with
  | off hdis => simp [hdis] at henable
  | @on _ r₁ _ hstep =>
    obtain ⟨hunf₁, hout⟩ := Req.rechecked_of_unfinished hunf
    rw [hout]
    cases hstep with
    | skipped hskip => simp [hskip, hlast hunf₁]
    | @verified net r₂ hplan _ houtcome =>
      have hlen : (v.rows e.req r).length = r.unverified.length := by simp [Verdict.rows]
      replace houtcome := houtcome.outcome
      generalize cfg.worker.rollbackCount r.unverified (v.rows e.req r) = k at houtcome ⊢
      cases houtcome with
      | accepted x hk =>
        have hkeep : r.outputIds.getLast? = some e.outputId := hlast hunf₁
        simpa [BatchEntry.refreshed, hk, Req.rolledBack, withStats] using hkeep
      | corrected x t hk hle hrow =>
        by_cases hone : k = 1
        · subst hone
          have hlastRow : (v.rows e.req r).getLast? = some t := by
            rw [List.getLast?_eq_getElem?, hlen, hrow]
          simp [BatchEntry.refreshed, Req.rolledBack, hplan, hlastRow]
        · have hnet : 0 < k - 1 := by omega
          simp [BatchEntry.refreshed, Req.rolledBack, hone, hnet]

end Requests

namespace Scheduler

variable {cfg : SchedulerConfig} {s t u : Scheduler} {tokens : ReqId → Token}
  {logitsOf : ReqId → LogitsRow} {verdict : Verdict} {victims : List NodeRef}

theorem prepareForDecode_runningBatch (h : s.prepareForDecode victims = .ok u) :
    u.runningBatch = s.runningBatch.map fun e =>
      { e with inputId := e.outputId, seqLen := e.seqLen + 1 } := by
  obtain ⟨⟨locs, m⟩, _, h⟩ := bind_eq_ok h
  simp only [Except.ok.injEq] at h
  rw [← h]
  simp [extendRows_frame, setMemory]

/-- The pass of this step replaced exactly the last token of request `id`, and not by the token
that was sampled for it. `s` is the state that verification starts from. -/
def LastTokenReplaced (cfg : SchedulerConfig) (verdict : Verdict) (tokens : ReqId → Token)
    (s : Scheduler) (id : ReqId) : Prop :=
  let rows := verdict.rows id (s.heap id)
  id ∈ cfg.worker.plannedIds s.heap s.runningBatch ∧
    cfg.worker.rollbackCount (s.heap id).unverified rows = 1 ∧ rows.getLast? ≠ some (tokens id)
deriving Decidable

namespace DecodePhases

variable (P : DecodePhases cfg s tokens logitsOf verdict t)

theorem outputId_iff (h : Consistent cfg s) (henable : cfg.args.enableLlm42 = true)
    {e' : BatchEntry} (he' : e' ∈ t.runningBatch) (hunf : ¬ (t.heap e'.req).finished) :
    (t.heap e'.req).outputIds.getLast? = some e'.outputId ↔
      ¬ LastTokenReplaced cfg verdict tokens P.accepted e'.req := by
  obtain ⟨hcore, hbatch, _, _, _⟩ := streamOutput_spec cfg.args P.rechecked P.rechecked.running
  have ht : ∀ j, (t.heap j).core = (P.rechecked.heap j).core := fun j =>
    (congrArg (fun u : Scheduler => (u.heap j).core) P.final_eq).trans (hcore j)
  have hbatch' : t.runningBatch = P.rechecked.runningBatch :=
    (congrArg (·.runningBatch) P.final_eq).trans hbatch
  rw [Req.finished_congr (ht e'.req)] at hunf
  rw [hbatch'] at he'
  obtain ⟨hreq, _⟩ := P.rechecked_requests h
  rw [P.accepted_runningBatch h, List.forall₂_map_left_iff] at hreq
  obtain ⟨e, he, heq, hafter⟩ := exists_of_mem_forall₂ hreq he'
  have hid : e'.req = e.req := heq
  rw [Req.outputIds_congr (ht e'.req)]
  rw [hid] at hunf ⊢
  obtain ⟨r, h₁, h₂⟩ := (P.accepted_spec h).1 e he
  have hlast : ¬ (P.accepted.heap e.req).finished →
      (P.accepted.heap e.req).outputIds.getLast? = some (tokens e.req) := by
    intro hunf'
    rw [Req.finished_congr h₂.core_eq] at hunf'
    rw [Req.outputIds_congr h₂.core_eq, Req.decoded_of_unfinished hunf', List.getLast?_concat]
  exact hafter.outputId_iff henable hlast hunf

end DecodePhases

end Scheduler

/-- After every decode step, the next `prepare_for_decode` feeds the last token of the output at
the position behind the committed ones, exactly for the requests whose last token was not replaced
on its own. -/
theorem decode_resumes_iff {cfg : SchedulerConfig} {s a t u : Scheduler} {tokens : ReqId → Token}
    {logitsOf : ReqId → LogitsRow} {verdict : Verdict} {victims victims' : List NodeRef}
    {e : BatchEntry} (henable : cfg.args.enableLlm42 = true)
    (hs : Reachable (step cfg) (Boots cfg) (fun _ _ => True) s)
    (ha : s.resultLoop cfg tokens logitsOf victims = .ok a)
    (ht : s.decode cfg tokens logitsOf verdict victims = .ok t)
    (hu : t.filterBatch.prepareForDecode victims' = .ok u) (he : e ∈ u.runningBatch) :
    let r := t.heap e.req
    (r.outputIds.getLast? = some e.inputId ∧
        e.seqLen = r.originInputIds.length + r.outputIds.length) ↔
      ¬ LastTokenReplaced cfg verdict tokens a e.req := by
  have hc : Consistent cfg s :=
    hs.invariant (fun _ h => h.consistent) fun _ _ _ hinv _ hstep => hinv.step hstep
  rw [prepareForDecode_runningBatch hu] at he
  obtain ⟨e₁, he₁, rfl⟩ := List.mem_map.mp he
  obtain ⟨hmem, hunf⟩ := mem_filterBatch.mp he₁
  have hlive := live_of_mem_filterBatch (hc.decode ht) he₁
  have hseq : e₁.seqLen + 1 =
      (t.heap e₁.req).originInputIds.length + (t.heap e₁.req).outputIds.length := by
    have hlag := hlive.seqLen
    have hcomm := hlive.committed
    omega
  rcases decode_ok_resultLoop ht with ⟨hempty, rfl⟩ | ⟨P, hloop⟩
  · simp [hempty] at hmem
  · obtain rfl : a = P.accepted := Except.ok.inj (ha.symm.trans hloop)
    have hiff := P.outputId_iff hc henable hmem hunf
    rw [← hiff]
    exact and_iff_left hseq

/-- The step that fills the window of `oneTokenIn` with token 7, and the `prepare_for_decode` of the
next one. -/
def fillWindow (verdict : Verdict) (s : Scheduler) :
    Except SchedulerError (Scheduler × Scheduler × Scheduler) := do
  let a ← s.resultLoop ⟨{}, smallServer.1⟩ (fun _ => 7) (fun _ => 0) []
  let t ← s.decode ⟨{}, smallServer.1⟩ (fun _ => 7) (fun _ => 0) verdict []
  let u ← t.filterBatch.prepareForDecode []
  .ok (a, t, u)

/-- The verifier rejects the first token of the window: the next input is the corrected token. -/
theorem decode_resumes_iff_firstToken : ∃ s a t u, runEvents (step ⟨{}, smallServer.1⟩)
        (smallStart (.radixCache .nil false)) (oneTokenIn smallReq) = .ok s ∧
      fillWindow ⟨fun _ _ => 9, none⟩ s = .ok (a, t, u) ∧ (t.heap 0).outputIds = [5, 9] ∧
      ∀ e ∈ u.runningBatch, (t.heap e.req).outputIds.getLast? = some e.inputId := by
  simp only [exists_and_left]
  exact exists_runEvents_imp (p := fun s => ∃ x, fillWindow ⟨fun _ _ => 9, none⟩ s = .ok x ∧
      (x.2.1.heap 0).outputIds = [5, 9] ∧ x.2.2.running = [0] ∧
      ¬ LastTokenReplaced ⟨{}, smallServer.1⟩ ⟨fun _ _ => 9, none⟩ (fun _ => 7) x.1 0)
    (boots_smallStart rfl) (by decide +kernel)
    fun s (hreach : Reachable _ _ (fun _ _ => True) s) ⟨⟨a, t, u⟩, hx, hout, hrunning, hnot⟩ =>
      ⟨a, t, u, hx, hout, fun e he => by
        obtain ⟨_, ha, hrest⟩ := bind_eq_ok hx
        obtain ⟨_, ht, hrest⟩ := bind_eq_ok hrest
        obtain ⟨_, hu, hrest⟩ := bind_eq_ok hrest
        cases hrest
        have hid : e.req = 0 := by
          have hmem : e.req ∈ u.running := mem_running.mpr ⟨e, he, rfl⟩
          simpa [hrunning] using hmem
        have hiff := decode_resumes_iff rfl hreach ha ht hu he
        rw [hid] at hiff ⊢
        exact (hiff.mpr hnot).1⟩

/-- The verifier rejects only the last token of the window: the output ends with its token 9, and
the next step still feeds the rejected token 7. -/
theorem decode_feeds_rejected_token : ∃ s, runEvents (step ⟨{}, smallServer.1⟩)
        (smallStart (.radixCache .nil false)) (oneTokenIn smallReq) = .ok s ∧
      ((fillWindow ⟨fun _ j => if j = 0 then 6 else 9, none⟩ s).toOption.map fun x =>
        ((x.2.1.heap 0).outputIds, x.2.2.runningBatch.map (·.inputId))) =
      some ([5, 6, 9], [7]) :=
  exists_runEvents _ _ _ (by decide +kernel)

end LLM42
