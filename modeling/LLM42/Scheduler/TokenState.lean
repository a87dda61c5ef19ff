import LLM42.Sampling.Penalizers
import LLM42.Scheduler.Written

/-! # State built from tokens

The grammar of a request and the penalizer rows of the running batch are fed the output tokens one at
a time. Rollback takes no token back from them, and a request that is prefilled again starts with
fresh penalizer rows. -/

namespace LLM42

open Scheduler LLM42Worker Library List PenalizerOrchestrator

namespace Grammar

def reset (g : Grammar) : Grammar := { g with acceptedTokens := [], finished := false }

def fed (g : Grammar) (tokens : List Token) : Grammar := tokens.foldl advance g.reset

theorem advance_eq (g : Grammar) (token : Token) :
    g.advance token = { g with acceptedTokens := (g.advance token).acceptedTokens } := by
  unfold advance acceptToken
  split_ifs <;> rfl

end Grammar

namespace Req

def GrammarFed (r : Req) : Prop :=
  ∀ g ∈ r.grammar, { g with finished := false } = g.fed r.outputIds

variable {r r' : Req} {token : Token} {logits : LogitsRow}

theorem GrammarFed.map (h : r.GrammarFed) {f : Grammar → Grammar}
    (hg : r'.grammarState = r.grammarState.map f) (hreset : ∀ g, (f g).reset = g.reset)
    (hfed : r.grammar.isSome → ∀ g : Grammar, f (g.fed r.outputIds) = g.fed r'.outputIds) :
    r'.GrammarFed := by
  intro g' hg'
  have hsome : r'.grammarState = some { g' with finished := false } := by
    simp only [grammarState, Option.map_eq_some_iff]
    exact ⟨g', hg', rfl⟩
  rw [hg, grammarState, Option.map_map, Option.map_eq_some_iff] at hsome
  obtain ⟨g, hmem, heq⟩ := hsome
  dsimp only [Function.comp_apply] at heq
  have hsame : g'.reset = g.reset := (congrArg Grammar.reset heq).symm.trans (hreset _)
  have hsome : r.grammar.isSome := by simp [hmem]
  rw [← heq, h g hmem, hfed hsome, Grammar.fed, Grammar.fed, hsame]

theorem GrammarFed.congr (h : r.GrammarFed) (hg : r'.grammarState = r.grammarState)
    (hids : r'.outputIds = r.outputIds) : r'.GrammarFed :=
  h.map (f := id) (by simpa using hg) (fun _ => rfl) fun _ g => by rw [hids]; rfl

theorem GrammarFed.advance (h : r.GrammarFed)
    (hg : r'.grammarState = r.grammarState.map (·.advance token))
    (hids : r.grammar.isSome → r'.outputIds = r.outputIds ++ [token]) : r'.GrammarFed := by
  refine h.map hg (fun g => ?_) fun hsome g => ?_
  · rw [Grammar.advance_eq]
    rfl
  · rw [hids hsome, Grammar.fed, Grammar.fed, foldl_concat]

end Req

section Requests

variable {cfg : SchedulerConfig} {rejected planned : Prop} {token : Token} {logits : LogitsRow}
  {v : Verdict} {e e' : BatchEntry} {r r₁ r₂ r' : Req} {message : Option StreamMessage}

/-- A decode step whose pass agrees leaves the sampled token at the end of the output and in the row
of the batch. -/
theorem RequestDecode.appended (hle : r.llm42VerifiedTokens ≤ r.outputIds.length)
    (hvocab : ¬ r.outsideVocab token)
    (hagree : cfg.args.enableLlm42 → r.isDeterministic → v.Agrees cfg.worker e.req r token)
    (h : RequestDecode cfg rejected planned token logits v e r e' r' message) :
    r'.outputIds = r.outputIds ++ [token] ∧ e'.outputId = token := by
  obtain @⟨r₁, r₂, r₃, _, _, _, h₁, h₂, hafter, rfl, _, _⟩ := h
  obtain ⟨hw, hver⟩ := Req.accepted_written hvocab h₁ h₂
  have hids : r₂.outputIds = r.outputIds ++ [token] := Req.outputIds_written hw
  have hlast : r₂.LastInVocab := (Req.lastInVocab_appendToken hvocab).congr hw
  rw [Req.outputIds_congr (r₃.streamOutput_core cfg.args)]
  cases hafter with
  | off _ => exact ⟨hids, rfl⟩
  | on henable hstep =>
    cases hstep with
    | skipped _ =>
      rw [Req.outputIds_written (Req.written_rechecked hlast)]
      exact ⟨hids, rfl⟩
    | @verified net r₄ _ hcand hout =>
      have hdet : r.isDeterministic := by
        have hsame : r₂.fixed = r.fixed := by
          have hdec := congrArg Prod.fst (r₁.profile_decoded cfg token logits)
          rw [Req.fixed_congr h₂.core_eq]
          exact (hdec.trans (Req.fixed_congr h₁.core_eq)).trans rfl
        rw [← Req.isDeterministic_fixed hsame]
        exact isDeterministic_of_isCandidate hcand
      have hzero := (v.agrees_iff cfg.worker e.req
        (Req.unverified_of_append hids hver hle)).mpr (hagree henable hdet)
      have houtcome := hout.outcome
      cases houtcome with
      | accepted x _ =>
        have hrolled : Req.LastInVocab (Req.rolledBack 0
            { withStats r₂ x with llm42VerifiedTokens := r₂.outputIds.length }) := hlast
        rw [Req.outputIds_written (Req.written_rechecked hrolled)]
        exact ⟨hids, rfl⟩
      | corrected _ _ hpos => exact absurd hzero hpos.ne'

end Requests

/-- The scheduler together with the penalizers of its running batch. -/
structure PenalizedScheduler where
  scheduler : Scheduler
  penalizers : PenalizerOrchestrator

namespace PenalizerOrchestrator

/-- An extend batch over `ids` from `s` to `t`: fresh rows, the filter over what is finished, and the
merge into the running batch. -/
def mergeExtend (s t : Scheduler) (ids : List ReqId) (o : PenalizerOrchestrator) :
    PenalizerOrchestrator :=
  let kept := ids.filter t.isUnfinished
  if kept.isEmpty then o
  else
    let lastBatch := (create (ids.map s.heap)).filterBatch t.heap ids t.isUnfinished
    if s.runningBatch.isEmpty then lastBatch
    else o.merge (s.running.map t.heap) (kept.map t.heap) lastBatch

def prepareForDecode (s : Scheduler) (o : PenalizerOrchestrator) : PenalizerOrchestrator :=
  let o := o.filterBatch s.heap s.running s.isUnfinished
  if o.isRequired then
    o.cumulateOutputTokens (s.filterBatch.runningBatch.map (·.outputId))
  else o

/-- What an event that leads from `s` to `t` does to the penalizers of the running batch. -/
def afterEvent (s t : Scheduler) (o : PenalizerOrchestrator) :
    SchedulerEvent → PenalizerOrchestrator
  | .extend ids _ _ _ =>
    if ids.Nodup ∧ ∀ id ∈ ids, id ∈ s.waitingQueue then o.mergeExtend s t ids else o
  | .decode .. =>
    if s.filterBatch.runningBatch.isEmpty then o else o.prepareForDecode s
  | .retract ids _ =>
    let o := o.filterBatch s.heap s.running s.isUnfinished
    let s := s.filterBatch
    if ids.Nodup ∧ (∀ id ∈ ids, id ∈ s.running) ∧ ids.length < s.runningBatch.length then
      o.filterBatch s.heap s.running fun id => decide (id ∉ ids)
    else o
  | _ => o

end PenalizerOrchestrator

namespace PenalizedScheduler

def step (cfg : SchedulerConfig) (x : PenalizedScheduler) (event : SchedulerEvent) :
    Except SchedulerError PenalizedScheduler := do
  let t ← x.scheduler.step cfg event
  .ok ⟨t, x.penalizers.afterEvent x.scheduler t event⟩

/-- A running batch that is empty has no penalizers to speak of. -/
def Starts (cfg : SchedulerConfig) (x : PenalizedScheduler) : Prop := Boots cfg x.scheduler

end PenalizedScheduler

def Req.hasTokenState (r : Req) : Bool :=
  r.grammar.isSome || isRequiredFor r

/-- The events that keep token-built state in step with the output: tokens of the vocabulary, no
penalized request prefilled with output tokens, and no pass that discards any. -/
def SchedulerEvent.KeepsTokenState (cfg : SchedulerConfig) (s : Scheduler) : SchedulerEvent → Prop
  | .extend ids tokens _ _ => ∀ id ∈ ids, (s.heap id).hasTokenState →
      ¬ (s.heap id).outsideVocab (tokens id) ∧
        (isRequiredFor (s.heap id) → (s.heap id).outputIds = [])
  | .decode tokens _ verdict _ => ∀ id ∈ s.filterBatch.running, (s.heap id).hasTokenState →
      ¬ (s.heap id).outsideVocab (tokens id) ∧
        (cfg.args.enableLlm42 → (s.heap id).isDeterministic →
          verdict.Agrees cfg.worker id (s.heap id) (tokens id))
  | _ => True

/-- The tokens that the penalizers should have seen: all but the last. -/
def Scheduler.cumulated (s : Scheduler) (id : ReqId) : List Token := (s.heap id).outputIds.dropLast

/-- Between two steps, what was built from tokens is what the output builds. -/
structure TokenStates (cfg : SchedulerConfig) (x : PenalizedScheduler) : Prop where
  consistent : Consistent cfg x.scheduler
  grammar : ∀ id < x.scheduler.nextId, (x.scheduler.heap id).GrammarFed
  last : ∀ e ∈ x.scheduler.runningBatch,
    isRequiredFor (x.scheduler.heap e.req) →
      (x.scheduler.heap e.req).outputIds.getLast? = some e.outputId
  tracks : x.scheduler.running ≠ [] →
    x.penalizers.Tracks x.scheduler.heap x.scheduler.cumulated x.scheduler.running

section Steps

variable {cfg : SchedulerConfig} {s t : Scheduler} {event : SchedulerEvent}
  {logitsOf : ReqId → LogitsRow} {tokens : ReqId → Token} {victims : List NodeRef} {r : Req}

instance : Decidable (event.KeepsTokenState cfg s) := by
  delta SchedulerEvent.KeepsTokenState
  induction event using SchedulerEvent.casesOn <;> infer_instance

theorem PenalizerOrchestrator.isRequiredFor_fixed {r r' : Req} (h : r'.fixed = r.fixed) :
    isRequiredFor r' = isRequiredFor r := by
  rw [isRequiredFor, isRequiredFor, frequencyPenalizer_stable.isRequiredFor_eq h,
    minNewTokensPenalizer_stable.isRequiredFor_eq h, presencePenalizer_stable.isRequiredFor_eq h]

theorem Req.hasTokenState_of_grammar (h : r.grammar.isSome) : r.hasTokenState := by
  simp [hasTokenState, h]

theorem Req.hasTokenState_of_penalty (h : isRequiredFor r) :
    r.hasTokenState := by
  simp [hasTokenState, h]

theorem Req.Initial.grammarFed (h : r.Initial) : r.GrammarFed := by
  intro g hg
  have hempty := h.grammar
  rw [show r.grammar = some g from hg, Option.map_some, Option.getD_some] at hempty
  rw [h.outputIds]
  simp [Grammar.fed, Grammar.reset, hempty]

variable {x : PenalizedScheduler}

theorem TokenStates.grammar_step (h : TokenStates cfg x)
    (hwhen : event.KeepsTokenState cfg x.scheduler) (hs : x.scheduler.step cfg event = .ok t)
    {id : ReqId} (hid : id < t.nextId) : (t.heap id).GrammarFed := by
  cases h.consistent.requestStep hs hid with
  | kept hlt hkept _ _ _ _ =>
    exact (h.grammar id hlt).congr (congrArg (·.2.2) hkept.profile) (Req.outputIds_congr hkept.core_eq)
  | received _ hnew hheap _ _ =>
    rw [hheap]
    exact (Req.initial_of_isNew hnew).grammarFed
  | extended hmem hq hstep _ _ _ =>
    have hlt := h.consistent.lt id (mem_append_right _ hq)
    refine (h.grammar id hlt).advance hstep.grammarState fun hsome => ?_
    have hvocab := (hwhen id hmem (Req.hasTokenState_of_grammar hsome)).1
    exact Req.outputIds_written (hstep.written hvocab)
  | decoded P he heq _ _ hstep _ =>
    subst heq
    have hrun := mem_running.mpr ⟨_, he, rfl⟩
    have hlt := h.consistent.lt _ (mem_append_left _ (x.scheduler.filterBatch_sublist.subset hrun))
    have hlive := live_of_mem_filterBatch h.consistent he
    refine (h.grammar _ hlt).advance hstep.grammarState fun hsome => ?_
    obtain ⟨hvocab, hagree⟩ := hwhen _ hrun (Req.hasTokenState_of_grammar hsome)
    exact (hstep.appended hlive.verified_le hvocab hagree).1
  | retracted _ hrun hheap _ _ =>
    have hlt := h.consistent.lt id (mem_append_left _ (x.scheduler.filterBatch_sublist.subset hrun))
    rw [hheap]
    exact (h.grammar id hlt).congr rfl rfl

theorem TokenStates.last_step (h : TokenStates cfg x)
    (hwhen : event.KeepsTokenState cfg x.scheduler) (hs : x.scheduler.step cfg event = .ok t)
    {e : BatchEntry} (he : e ∈ t.runningBatch)
    (hreq : isRequiredFor (t.heap e.req)) :
    (t.heap e.req).outputIds.getLast? = some e.outputId := by
  have hct := h.consistent.step hs
  have hrun : e.req ∈ t.running := mem_map_of_mem he
  cases h.consistent.requestStep hs (hct.lt e.req (mem_append_left _ hrun)) with
  | kept _ hkept hentry _ _ _ =>
    rw [isRequiredFor_fixed (Req.fixed_congr hkept.core_eq)] at hreq
    rw [Req.outputIds_congr hkept.core_eq]
    exact h.last e (hentry e he rfl) hreq
  | received _ _ _ hnot _ => exact absurd hrun hnot
  | extended hmem _ hstep hentry _ _ =>
    rw [isRequiredFor_fixed hstep.fixed] at hreq
    have hvocab := (hwhen e.req hmem (Req.hasTokenState_of_penalty hreq)).1
    have hids := Req.outputIds_written (hstep.written hvocab)
    rw [hids, hentry e he rfl]
    exact getLast?_concat
  | @decoded tokens _ _ _ e₀ e' P he₀ heq₀ he' heq' hstep _ =>
    obtain rfl := hct.entry_unique he he' heq'.symm
    rw [isRequiredFor_fixed hstep.fixed] at hreq
    have hrun₀ : e.req ∈ x.scheduler.filterBatch.running := mem_running.mpr ⟨e₀, he₀, heq₀⟩
    have hlive := live_of_mem_filterBatch h.consistent he₀
    rw [heq₀] at hlive
    obtain ⟨hvocab, hagree⟩ := hwhen _ hrun₀ (Req.hasTokenState_of_penalty hreq)
    obtain ⟨hids, hout⟩ := hstep.appended hlive.verified_le hvocab (by rwa [heq₀])
    rw [hids, hout]
    exact getLast?_concat
  | retracted _ _ _ hnot _ => exact absurd hrun hnot

theorem TokenStates.tracks_of_core (h : TokenStates cfg x)
    (hcore : ∀ id ∈ x.scheduler.running, (t.heap id).core = (x.scheduler.heap id).core)
    (hne : x.scheduler.running ≠ []) :
    x.penalizers.Tracks t.heap t.cumulated x.scheduler.running := by
  refine (h.tracks hne).congr (fun id hid => Req.fixed_congr (hcore id hid)) fun id hid _ => ?_
  rw [cumulated, cumulated, Req.outputIds_congr (hcore id hid)]

theorem Scheduler.running_filterBatch (s : Scheduler) :
    s.filterBatch.running = s.running.filter s.isUnfinished := by
  simp only [running, filterBatch, filter_map]
  rfl

section

variable (h : TokenStates cfg x)

include h

theorem TokenStates.tracks_filterBatch (hne : x.scheduler.filterBatch.running ≠ []) :
    (x.penalizers.filterBatch x.scheduler.heap x.scheduler.running
      x.scheduler.isUnfinished).Tracks x.scheduler.heap x.scheduler.cumulated
      x.scheduler.filterBatch.running := by
  rw [running_filterBatch] at hne ⊢
  have hall : x.scheduler.running ≠ [] := fun hnil => by
    rw [hnil] at hne
    exact hne rfl
  exact (h.tracks hall).filterBatch hne

theorem TokenStates.tracks_prepareForDecode (hne : x.scheduler.filterBatch.running ≠ []) :
    (x.penalizers.prepareForDecode x.scheduler).Tracks x.scheduler.heap
      (fun id => (x.scheduler.heap id).outputIds) x.scheduler.filterBatch.running := by
  have hfilter := h.tracks_filterBatch hne
  unfold PenalizerOrchestrator.prepareForDecode
  dsimp only
  split
  · refine hfilter.cumulate ?_
    rw [Scheduler.running, forall₂_map_left_iff, forall₂_map_right_iff, forall₂_same]
    intro e he hreq
    have hlast := h.last e (mem_filterBatch.mp he).1 hreq
    exact (dropLast_append_getLast? _ hlast).symm
  next hnot => exact hfilter.of_unused (by simpa using hnot) (Subset.refl _)

theorem TokenStates.tracks_decode {verdict : Verdict}
    (hwhen : (SchedulerEvent.decode tokens logitsOf verdict victims).KeepsTokenState cfg x.scheduler)
    (hs : x.scheduler.decode cfg tokens logitsOf verdict victims = .ok t) (hne : t.running ≠ []) :
    (x.penalizers.afterEvent x.scheduler t (.decode tokens logitsOf verdict victims)).Tracks
      t.heap t.cumulated t.running := by
  have hct := h.consistent.decode hs
  rcases decode_ok hs with ⟨hempty, rfl⟩ | ⟨⟨P⟩⟩
  · exact absurd (by simp [running, hempty]) hne
  · have hrun := P.running_eq h.consistent
    have hstep : ∀ id ∈ x.scheduler.filterBatch.running,
        (t.heap id).fixed = (x.scheduler.heap id).fixed ∧
          (isRequiredFor (x.scheduler.heap id) →
            t.cumulated id = (x.scheduler.heap id).outputIds) := by
      intro id hid
      have hlt := hct.lt id (mem_append_left _ (hrun.symm ▸ hid))
      cases requestStep_decode h.consistent hs hlt with
      | kept _ _ _ _ hnot _ => exact absurd hid hnot
      | decoded _ he heq _ _ hstep _ =>
        subst heq
        have hlive := live_of_mem_filterBatch h.consistent he
        refine ⟨hstep.fixed, fun hreq => ?_⟩
        obtain ⟨hvocab, hagree⟩ := hwhen _ hid (Req.hasTokenState_of_penalty hreq)
        obtain ⟨hids, _⟩ := hstep.appended hlive.verified_le hvocab hagree
        rw [cumulated, hids, dropLast_concat]
    have hbatch : x.scheduler.filterBatch.runningBatch.isEmpty = false := by
      rw [hrun] at hne
      simpa [running] using hne
    rw [afterEvent, hbatch]
    rw [hrun] at hne ⊢
    exact (h.tracks_prepareForDecode hne).congr (fun id hid => (hstep id hid).1)
      fun id hid => (hstep id hid).2

theorem TokenStates.tracks_extend {ids : List ReqId}
    (hwhen : (SchedulerEvent.extend ids tokens logitsOf victims).KeepsTokenState cfg x.scheduler)
    (hs : x.scheduler.extend cfg ids tokens logitsOf victims = .ok t) (hne : t.running ≠ []) :
    (x.penalizers.afterEvent x.scheduler t (.extend ids tokens logitsOf victims)).Tracks
      t.heap t.cumulated t.running := by
  unfold afterEvent
  dsimp only
  split
  next hids =>
    obtain ⟨P⟩ := extendPhases_of_ok hids hs
    have hunf : ∀ id ∈ ids, ¬ (x.scheduler.heap id).finished := fun id hid =>
      (h.consistent.queued id (hids.2 id hid)).unfinished
    obtain ⟨hreq, hother, hbatch, _, _⟩ := P.requests hunf
    have hrun := P.running_eq hunf
    have hcore : ∀ id ∈ x.scheduler.running,
        (t.heap id).core = (x.scheduler.heap id).core := fun id hid =>
      (hother id fun hmem => h.consistent.not_mem_running (hids.2 id hmem) hid).core_eq
    unfold mergeExtend
    dsimp only
    split
    next hempty =>
      rw [hrun, isEmpty_iff.mp hempty, append_nil] at hne ⊢
      exact h.tracks_of_core hcore hne
    next hkept =>
    have hfresh : (create (ids.map x.scheduler.heap)).Tracks
        t.heap t.cumulated ids := by
      have hstep : ∀ id ∈ ids, (t.heap id).fixed = (x.scheduler.heap id).fixed ∧
          t.cumulated id = (x.scheduler.heap id).outputIds := by
        intro id hid
        obtain ⟨row, hrow⟩ := P.mem_zip hid
        exact ⟨(hreq _ hrow).fixed, (hreq _ hrow).extended.outputIds⟩
      refine Tracks.congr (tracks_create fun id hid hpen => ?_)
        (fun id hid => (hstep id hid).1) fun _ _ _ => rfl
      rw [(hstep id hid).2]
      exact (hwhen id hid (Req.hasTokenState_of_penalty hpen)).2 hpen
    have hlast := hfresh.filterBatch fun hnil => hkept (isEmpty_iff.mpr hnil)
    rw [hrun]
    split
    next hidle =>
      rw [show x.scheduler.running = [] by
        rw [running, isEmpty_iff.mp hidle, map_nil], nil_append]
      exact hlast
    next hbusy =>
    have hrunning : x.scheduler.running ≠ [] := fun hnil =>
      hbusy (isEmpty_iff.mpr (map_eq_nil_iff.mp hnil))
    exact (h.tracks_of_core hcore hrunning).merge hlast
  next hids =>
    obtain rfl := extend_eq_of_not hids hs
    exact h.tracks hne

theorem TokenStates.tracks_retract {ids : List ReqId} {victims : ReqId → List NodeRef}
    (hs : x.scheduler.retract ids victims = .ok t) (hne : t.running ≠ []) :
    (x.penalizers.afterEvent x.scheduler t (.retract ids victims)).Tracks
      t.heap t.cumulated t.running := by
  unfold afterEvent
  dsimp only
  split
  next hids =>
    obtain ⟨-, u, _, _, hout, hbatch, _, _, rfl⟩ := (retract_ok hs).resolve_left fun h => h.1 hids
    have hrun : running { u with
        runningBatch := u.runningBatch.filter fun e => decide (e.req ∉ ids)
        waitingQueue := u.waitingQueue ++ ids } =
        x.scheduler.filterBatch.running.filter fun id => decide (id ∉ ids) := by
      simp only [running, hbatch, filter_map]
      rfl
    rw [hrun] at hne ⊢
    have hsome : x.scheduler.filterBatch.running ≠ [] := fun hnil => by
      rw [hnil] at hne
      exact hne rfl
    have hkept : ∀ id ∈ x.scheduler.filterBatch.running.filter fun id => decide (id ∉ ids),
        u.heap id = x.scheduler.heap id := fun id hid => hout id (by simpa using (mem_filter.mp hid).2)
    exact ((h.tracks_filterBatch hsome).filterBatch hne).congr
      (fun id hid => congrArg Req.fixed (hkept id hid))
      fun id hid _ => congrArg (fun r : Req => r.outputIds.dropLast) (hkept id hid)
  next hids =>
    obtain ⟨-, rfl⟩ := (retract_ok hs).resolve_right fun h => hids h.1
    exact h.tracks_filterBatch hne

theorem TokenStates.tracks_step (hwhen : event.KeepsTokenState cfg x.scheduler)
    (hs : x.scheduler.step cfg event = .ok t) (hne : t.running ≠ []) :
    (x.penalizers.afterEvent x.scheduler t event).Tracks t.heap t.cumulated t.running := by
  have hct := h.consistent.step hs
  have hlt : ∀ id ∈ t.running, id < t.nextId := fun id hid =>
    hct.lt id (mem_append_left _ hid)
  cases event with
  | extend ids tokens logitsOf victims => exact h.tracks_extend hwhen hs hne
  | decode tokens logitsOf verdict victims => exact h.tracks_decode hwhen hs hne
  | retract ids victims => exact h.tracks_retract hs hne
  | receive r =>
    have hrun : t.running = x.scheduler.running := by
      cases hs
      unfold receive
      split
      · rfl
      · rfl
    rw [hrun] at hne ⊢
    refine h.tracks_of_core (fun id hid => ?_) hne
    cases h.consistent.requestStep hs (hlt id (hrun ▸ hid)) with
    | kept _ hkept _ _ _ _ => exact hkept.core_eq
    | received _ _ _ hnot _ => exact absurd (hrun ▸ hid) hnot
  | abort rid abortAll =>
    cases hs
    exact h.tracks_of_core
      (fun id _ => (x.scheduler.abortRequest_aborted [] rid abortAll id).core_eq) hne
  | runningTimeout overdue =>
    cases hs
    exact h.tracks_of_core
      (fun id _ => (x.scheduler.abortOnRunningTimeout_aborted overdue id).core_eq) hne
  | flushCache =>
    cases hs
    have hsame : x.scheduler.flushCache.running = x.scheduler.running ∧
        x.scheduler.flushCache.heap = x.scheduler.heap := by
      unfold flushCache
      split <;> exact ⟨rfl, rfl⟩
    rw [hsame.1] at hne ⊢
    exact h.tracks_of_core (fun id _ => congrArg (fun u => (u id).core) hsame.2) hne

theorem TokenStates.step {y : PenalizedScheduler} (hwhen : event.KeepsTokenState cfg x.scheduler)
    (hs : x.step cfg event = .ok y) : TokenStates cfg y := by
  obtain ⟨t, ht, hs⟩ := bind_eq_ok hs
  obtain rfl := Except.ok.inj hs
  exact ⟨h.consistent.step ht, fun id hid => h.grammar_step hwhen ht hid,
    fun e he hreq => h.last_step hwhen ht he hreq, fun hne => h.tracks_step hwhen ht hne⟩

end

end Steps

/-- The row of request `id` is what feeding its output builds, up to the last token; it is there when
the request needs it. -/
def BatchedPenalizer.Cumulated {ρ : Type} (p : BatchedPenalizer ρ) (s : Scheduler)
    (tensors : Option (List ρ)) (id : ReqId) : Prop :=
  (p.isRequiredFor (s.heap id) → (rowOf s.running tensors id).isSome) ∧
    ∀ row ∈ rowOf s.running tensors id, row = p.feed (s.heap id) (s.heap id).outputIds.dropLast

theorem BatchedPenalizer.Tracks.cumulated {ρ : Type} {p : BatchedPenalizer ρ} {s : Scheduler}
    {tensors : Option (List ρ)} (h : p.Tracks s.heap s.cumulated s.running tensors) {id : ReqId}
    (hid : id ∈ s.running) (hidle : ¬ p.isRequiredFor (s.heap id) → ∀ token,
      p.cumulateRow token (p.prepareRow (s.heap id)) = p.prepareRow (s.heap id)) :
    p.Cumulated s tensors id := by
  obtain ⟨hsome, hrow⟩ := h.rowFor hid
  refine ⟨hsome, fun row hmem => ?_⟩
  obtain ⟨fed, rfl, hfed⟩ := hrow row hmem
  by_cases hreq : p.isRequiredFor (s.heap id)
  · rw [hfed hreq]
    rfl
  · rw [p.feed_of_idle (hidle hreq), p.feed_of_idle (hidle hreq)]

/-- All state that is built from tokens is a function of the tokens. The counter of the
min-new-tokens penalizer is read for requests with `min_new_tokens` only. -/
structure PenalizedScheduler.TokenDerived (x : PenalizedScheduler) : Prop where
  grammar : ∀ id < x.scheduler.nextId, (x.scheduler.heap id).GrammarFed
  frequency : ∀ id ∈ x.scheduler.running,
    frequencyPenalizer.Cumulated x.scheduler x.penalizers.frequency id
  presence : ∀ id ∈ x.scheduler.running,
    presencePenalizer.Cumulated x.scheduler x.penalizers.presence id
  minNewTokens : ∀ id ∈ x.scheduler.running, 0 < (x.scheduler.heap id).samplingParams.minNewTokens →
    minNewTokensPenalizer.Cumulated x.scheduler x.penalizers.minNewTokens id

theorem TokenStates.tokenDerived {cfg : SchedulerConfig} {x : PenalizedScheduler}
    (h : TokenStates cfg x) : x.TokenDerived := by
  have htracks : ∀ id ∈ x.scheduler.running,
      x.penalizers.Tracks x.scheduler.heap x.scheduler.cumulated x.scheduler.running :=
    fun id hid => h.tracks (ne_nil_of_mem hid)
  refine ⟨h.grammar, fun id hid => (htracks id hid).frequency.cumulated hid fun hzero token => ?_,
    fun id hid => (htracks id hid).presence.cumulated hid fun hzero token => ?_,
    fun id hid hmin => (htracks id hid).minNewTokens.cumulated hid fun hzero => ?_⟩
  · simp_all [frequencyPenalizer]
  · simp_all [presencePenalizer]
  · exact absurd (decide_eq_true hmin) hzero

/-- In every run of such events, every grammar and every penalizer row is what the current output
builds from scratch. -/
theorem token_state_of_output {cfg : SchedulerConfig} {x : PenalizedScheduler}
    (hx : Reachable (PenalizedScheduler.step cfg) (PenalizedScheduler.Starts cfg)
      (fun y e => e.KeepsTokenState cfg y.scheduler) x) : x.TokenDerived := by
  have hinv : TokenStates cfg x := by
    refine hx.invariant (fun y hb => ?_) fun _ _ _ hi hwhen hstep => hi.step hwhen hstep
    have hboots : Boots cfg y.scheduler := hb
    refine ⟨hboots.consistent, fun id hid => ?_, fun e he => ?_, fun hne => ?_⟩
    · simp [hboots.nextId] at hid
    · simp [hboots.runningBatch] at he
    · exact absurd (by rw [running, hboots.runningBatch, map_nil]) hne
  exact hinv.tokenDerived

/-- A deterministic request with a frequency penalty and a grammar that takes any token; it decodes 6
and 7 and meets a verifier whose rows for its window are `rows`. -/
def penalizedRun (rows : ℕ → Token) : List SchedulerEvent :=
  oneTokenIn { smallReq with
      grammar := some { terminatedOn := fun _ => false, accepts := fun _ _ => true }
      samplingParams.frequencyPenalty := 1 } ++
    [.decode (fun _ => 7) (fun _ => 0) ⟨fun _ => rows, none⟩ []]

theorem token_state_of_output_penalizedRun :
    ∃ x, runEvents (PenalizedScheduler.step ⟨{}, smallServer.1⟩) ⟨smallStart .chunkCache, {}⟩
        (penalizedRun fun i => if i = 0 then 6 else 7) = .ok x ∧
      (x.scheduler.heap 0).outputIds = [5, 6, 7] ∧ x.TokenDerived :=
  exists_runEvents_imp (by exact @boots_smallStart .chunkCache rfl) (by decide +kernel)
    fun _ hreach hids => ⟨hids, token_state_of_output hreach⟩

/-- A rejected window: the output is `[5, 9]`, the grammar has accepted the discarded tokens and the
penalizer charges token 6, which feeding the output from scratch does not. -/
theorem token_state_kept_on_rejection :
    ∃ x, runEvents (PenalizedScheduler.step ⟨{}, smallServer.1⟩) ⟨smallStart .chunkCache, {}⟩
        (penalizedRun fun _ => 9) = .ok x ∧
      0 ∈ x.scheduler.running ∧ (x.scheduler.heap 0).outputIds = [5, 9] ∧
      (x.scheduler.heap 0).grammar.map (·.acceptedTokens) = some [5, 6, 7] ∧
      (x.scheduler.heap 0).grammar.map (fun g => (g.fed [5, 9]).acceptedTokens) = some [5, 9] ∧
      (BatchedPenalizer.rowOf x.scheduler.running x.penalizers.frequency 0).map
        (fun row => row.cumulated 6) = some 1 ∧
      (frequencyPenalizer.feed (x.scheduler.heap 0) [5]).cumulated 6 = 0 :=
  exists_runEvents _ _ _ (by decide +kernel)

end LLM42
