import LLM42.Scheduler.Step

/-! # Aborting one request

An abort of the HTTP interface names a request by its rid. The scheduler looks for it in the waiting
queue, the grammar queue, the running batch and the batch in progress. -/

namespace LLM42

open List

/-- The requests of a scheduler, with the grammar queue; `curBatch` is empty when `cur_batch` is
`None` or the running batch. -/
structure LiveRequests where
  scheduler : Scheduler
  grammarQueue : List ReqId
  curBatch : List ReqId

def Req.setFinishWithAbort (r : Req) (errorMsg : String) : Req :=
  { r with
    grammar := none
    originInputIds := [0]
    returnLogprob := false
    logprobStartLen := -1
    toFinish := some (.abort errorMsg) }

/-- `TokenizerManager.abort_request`: the message it sends, if any. -/
def tokenizerAbortRequest (ridToState : List String) (rid : String) (abortAll : Bool) :
    Option (String × Bool) :=
  if !abortAll ∧ rid ∉ ridToState then none else some (rid, abortAll)

namespace LiveRequests

def live (s : LiveRequests) : List ReqId :=
  s.scheduler.waitingQueue ++ s.grammarQueue ++ (s.scheduler.running ++ s.curBatch)

def heap (s : LiveRequests) : ReqId → Req := s.scheduler.heap

def abortRequests (s : LiveRequests) (rid : String) (abortAll : Bool) (id : ReqId) : Req :=
  if id ∈ s.grammarQueue ∧ Scheduler.abortMatches rid abortAll (s.heap id) then
    (s.heap id).setFinishWithAbort "Aborted by AbortReq."
  else s.heap id

def abortRequest (s : LiveRequests) (rid : String) (abortAll : Bool) : LiveRequests :=
  let scheduler := { s.scheduler with heap := s.abortRequests rid abortAll }
  { s with scheduler := scheduler.abortRequest s.curBatch rid abortAll }

/-- What an abort may change of a request besides its place in a queue. -/
def verdict (r : Req) : Option FinishReason × Option FinishReason × Option Grammar :=
  (r.toFinish, r.finishedReason, r.grammar)

/-- Request `x` is removed, cancelled or marked, and no other one is touched. -/
structure AbortsOnly (s t : LiveRequests) (x : ReqId) : Prop where
  waiting : t.scheduler.waitingQueue = s.scheduler.waitingQueue.filter fun y => decide (y ≠ x)
  grammarQueue : t.grammarQueue = s.grammarQueue
  running : t.scheduler.runningBatch = s.scheduler.runningBatch
  curBatch : t.curBatch = s.curBatch
  cancelled : x ∈ s.grammarQueue → (t.heap x).grammar = none ∧ (t.heap x).toFinish.isSome
  marked : x ∈ s.scheduler.running ++ s.curBatch → (s.heap x).finished ∨ (t.heap x).toFinish.isSome
  others : ∀ y ∈ s.live, y ≠ x → verdict (t.heap y) = verdict (s.heap y)

/-- Another request whose rid begins with the rid of `x` is not queued, and an abort would find it
finished or marked as it is. -/
def Spared (s : LiveRequests) (x : ReqId) : Prop :=
  ∀ y ∈ s.live, y ≠ x → (s.heap x).rid.toList <+: (s.heap y).rid.toList →
    y ∉ s.scheduler.waitingQueue ∧
    (y ∈ s.grammarQueue →
      (s.heap y).grammar = none ∧ (s.heap y).toFinish = some (.abort "Aborted by AbortReq.")) ∧
    (y ∈ s.scheduler.running ++ s.curBatch →
      (s.heap y).finished ∨ (s.heap y).toFinish = some (.abort "Aborted"))

variable {s : LiveRequests} {x y : ReqId} {rid : String}

theorem abortMatches_iff {r : Req} :
    Scheduler.abortMatches rid false r = true ↔ rid.toList <+: r.rid.toList := by
  simp [Scheduler.abortMatches]

theorem rid_abortRequests : (s.abortRequests rid false y).rid = (s.heap y).rid := by
  unfold abortRequests
  split <;> rfl

/-- The request after an abort of `rid`, when it is not in two places. -/
theorem heap_abortRequest (hdisj : y ∈ s.grammarQueue → y ∉ s.scheduler.running ++ s.curBatch) :
    (s.abortRequest rid false).heap y = if rid.toList <+: (s.heap y).rid.toList then
        if y ∈ s.grammarQueue then (s.heap y).setFinishWithAbort "Aborted by AbortReq."
        else if y ∈ s.scheduler.running ++ s.curBatch ∧ ¬ (s.heap y).finished then
          { s.heap y with toFinish := some (.abort "Aborted") }
        else s.heap y
      else s.heap y := by
  change (if (y ∈ s.scheduler.running ∨ y ∈ s.curBatch) ∧ !(s.abortRequests rid false y).finished ∧
        Scheduler.abortMatches rid false (s.abortRequests rid false y) then
      { s.abortRequests rid false y with toFinish := some (.abort "Aborted") }
    else s.abortRequests rid false y) = _
  simp only [abortMatches_iff, rid_abortRequests, ← mem_append]
  by_cases hp : rid.toList <+: (s.heap y).rid.toList
  · by_cases hg : y ∈ s.grammarQueue
    · simp [abortRequests, abortMatches_iff, hp, hg, hdisj hg]
    · simp [abortRequests, hp, hg]
  · simp [abortRequests, abortMatches_iff, hp]

/-- An abort touches its request only, unless it finds another rid that begins with this one. -/
theorem abort_one_iff (hrids : (s.live.map fun id => (s.heap id).rid).Nodup)
    {ridToState : List String} {msg : String × Bool}
    (hsent : tokenizerAbortRequest ridToState (s.heap x).rid false = some msg) :
    AbortsOnly s (s.abortRequest msg.1 msg.2) x ↔ s.Spared x := by
  obtain rfl : ((s.heap x).rid, false) = msg := by
    unfold tokenizerAbortRequest at hsent
    split at hsent
    · cases hsent
    · exact Option.some.inj hsent
  have hdisj : ∀ y, y ∈ s.grammarQueue → y ∉ s.scheduler.running ++ s.curBatch := fun y hg hb =>
    (nodup_append.mp hrids.of_map).2.2 y (mem_append_right _ hg) y hb rfl
  have hheap := fun y => @heap_abortRequest s y (s.heap x).rid (hdisj y)
  have hwait : (s.abortRequest (s.heap x).rid false).scheduler.waitingQueue =
      s.scheduler.waitingQueue.filter fun y =>
        !decide ((s.heap x).rid.toList <+: (s.heap y).rid.toList) := by
    refine filter_congr fun y _ => congrArg (!·) ?_
    rw [Bool.eq_iff_iff, abortMatches_iff, rid_abortRequests, decide_eq_true_iff]
  constructor
  · intro h y hy hne hp
    have hsame := h.others y hy hne
    rw [hheap, if_pos hp] at hsame
    refine ⟨fun hw => ?_, fun hg => ?_, fun hb => ?_⟩
    · have hmem : y ∈ s.scheduler.waitingQueue.filter fun y => decide (y ≠ x) :=
        mem_filter.mpr ⟨hw, by simpa using hne⟩
      rw [← h.waiting, hwait, mem_filter] at hmem
      simp [hp] at hmem
    · rw [if_pos hg] at hsame
      simp only [verdict, Req.setFinishWithAbort, Prod.mk.injEq] at hsame
      exact ⟨hsame.2.2.symm, hsame.1.symm⟩
    · rw [if_neg fun hg => hdisj y hg hb] at hsame
      by_cases hf : (s.heap y).finished
      · exact .inl hf
      · rw [if_pos ⟨hb, hf⟩] at hsame
        simp only [verdict, Prod.mk.injEq] at hsame
        exact .inr hsame.1.symm
  · intro h
    refine ⟨?_, rfl, rfl, rfl, fun hg => ?_, fun hb => ?_, fun y hy hne => ?_⟩
    · rw [hwait]
      refine filter_congr fun y hy => ?_
      by_cases hyx : y = x
      · simp [hyx]
      · have hlive : y ∈ s.live := mem_append_left _ (mem_append_left _ hy)
        simpa [hyx] using fun hp => (h y hlive hyx hp).1 hy
    · rw [hheap, if_pos (prefix_refl _), if_pos hg]
      exact ⟨rfl, rfl⟩
    · by_cases hf : (s.heap x).finished
      · exact .inl hf
      · rw [hheap, if_pos (prefix_refl _), if_neg fun hg => hdisj x hg hb, if_pos ⟨hb, hf⟩]
        exact .inr rfl
    · rw [hheap]
      split
      next hp =>
        obtain ⟨-, hg, hb⟩ := h y hy hne hp
        split
        next hin => simp [verdict, Req.setFinishWithAbort, hg hin]
        · split
          next hin => simp [verdict, (hb hin.1).resolve_left hin.2]
          · rfl
      · rfl

def waitingFor (rids : List String) : LiveRequests where
  scheduler := { Scheduler.smallStart .chunkCache with
    heap := fun id =>
      { rid := rids.getD id "", originInputIds := [1], samplingParams := {}, vocabSize := 10 }
    waitingQueue := range rids.length }
  grammarQueue := []
  curBatch := []

theorem abort_one_iff_distinct : AbortsOnly (waitingFor ["a_1", "a_2"])
      ((waitingFor ["a_1", "a_2"]).abortRequest "a_1" false) 0 := by
  have hsent : tokenizerAbortRequest ["a_1"] ((waitingFor ["a_1", "a_2"]).heap 0).rid false =
      some ("a_1", false) := by decide +kernel
  refine (abort_one_iff (by decide +kernel) hsent).mpr fun y hy hne hp => ?_
  have hlive : y ∈ [0, 1] := hy
  rcases mem_pair.mp hlive with rfl | rfl
  · exact absurd rfl hne
  · exact absurd hp (by decide +kernel)

/-- The abort of item 1 of a batch removes item 10 too. -/
theorem abort_removes_longer_rid : ¬ AbortsOnly (waitingFor ["a_1", "a_10"])
      ((waitingFor ["a_1", "a_10"]).abortRequest "a_1" false) 0 :=
  fun h => absurd h.waiting (by decide +kernel)

end LiveRequests

end LLM42
