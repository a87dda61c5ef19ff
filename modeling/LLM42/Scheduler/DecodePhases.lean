import LLM42.Scheduler.PerRequest
import LLM42.Scheduler.Passes

/-! # The phases of a decode step

A decode step that returns, taken apart: allocation, the result loop, verification, rollback, the
second finish check and streaming, each with its effect on the requests of the batch. -/

namespace LLM42

open Library

namespace Scheduler

variable {cfg : SchedulerConfig} {s t : Scheduler} {tokens : ReqId → Token}
  {logitsOf : ReqId → LogitsRow} {verdict : Verdict} {victims : List NodeRef}

theorem extendRows_frame (es : ScheduleBatch) (locs : List ℕ) (s : Scheduler) :
    (extendRows es locs s).runningBatch = s.runningBatch ∧
      (extendRows es locs s).nextId = s.nextId ∧
      (extendRows es locs s).waitingQueue = s.waitingQueue ∧
      (extendRows es locs s).memory.allocator = s.memory.allocator ∧
      (extendRows es locs s).memory.tree = s.memory.tree := by
  induction es generalizing locs s with
  | nil => cases locs <;> exact ⟨rfl, rfl, rfl, rfl, rfl⟩
  | cons e es ih =>
    cases locs with
    | nil => exact ⟨rfl, rfl, rfl, rfl, rfl⟩
    | cons loc locs => exact ih locs (s.extendRow e loc)

theorem extendRows_spec {es : ScheduleBatch} {locs : List ℕ} (hnd : (es.map (·.req)).Nodup)
    (hlen : locs.length = es.length) (s : Scheduler) :
    (∀ e ∈ es, (extendRows es locs s).heap e.req = (s.heap e.req).advanced) ∧
      ∀ j ∉ es.map (·.req), (extendRows es locs s).heap j = s.heap j := by
  induction es generalizing locs s with
  | nil => simp [extendRows]
  | cons e es ih =>
    cases locs with
    | nil => simp at hlen
    | cons loc locs =>
      rw [List.map_cons, List.nodup_cons] at hnd
      obtain ⟨h1, h2⟩ := ih hnd.2 (by simpa using hlen) (s.extendRow e loc)
      have hother : ∀ j, j ≠ e.req → (s.extendRow e loc).heap j = s.heap j := by
        intro j hj
        simp [extendRow, setReq, setMemory, hj]
      constructor
      · intro e' he'
        rcases List.mem_cons.mp he' with rfl | he'
        · rw [extendRows, h2 _ hnd.1]
          simp [extendRow, setReq, setMemory, Req.advanced]
        · have hne : e'.req ≠ e.req := fun h => hnd.1 (h ▸ List.mem_map_of_mem he')
          rw [extendRows, h1 e' he', hother _ hne]
      · intro j hj
        obtain ⟨hj1, hj2⟩ := not_or.mp (List.mem_cons.not.mp hj)
        rw [extendRows, h2 j hj2, hother j hj1]

theorem streamOutput_spec (args : ServerArgs) (s : Scheduler) (ids : List ReqId) :
    (∀ id, ((s.streamOutput args ids).heap id).core = (s.heap id).core) ∧
      (s.streamOutput args ids).runningBatch = s.runningBatch ∧
      (s.streamOutput args ids).nextId = s.nextId ∧
      (s.streamOutput args ids).waitingQueue = s.waitingQueue ∧
      (s.streamOutput args ids).memory = s.memory := by
  induction ids generalizing s with
  | nil => exact ⟨fun _ => rfl, rfl, rfl, rfl, rfl⟩
  | cons id ids ih =>
    obtain ⟨h1, h2, h3, h4, h5⟩ := ih (streamReq args s id)
    refine ⟨fun j => (h1 j).trans ?_, h2, h3, h4, h5⟩
    by_cases hj : j = id
    · subst hj
      simp only [streamReq, setReq, Function.update_self]
      exact Req.streamOutput_core args (s.heap j)
    · simp [streamReq, setReq, hj]

theorem streamOutput_heap (args : ServerArgs) {ids : List ReqId} (hnd : ids.Nodup)
    (s : Scheduler) (j : ReqId) :
    (s.streamOutput args ids).heap j =
      if j ∈ ids then ((s.heap j).streamOutput args).1 else s.heap j := by
  induction ids generalizing s with
  | nil => simp [streamOutput]
  | cons id ids ih =>
    obtain ⟨hid, hnd⟩ := List.nodup_cons.mp hnd
    have hrest := ih hnd (streamReq args s id)
    rw [streamOutput, List.foldl_cons]
    rw [streamOutput] at hrest
    rw [hrest]
    by_cases hj : j = id
    · subst hj
      simp [hid, streamReq, setReq]
    · simp [hj, streamReq, setReq]

/-- A decode step over a non-empty batch, up to the end of the result loop. -/
structure ResultPhases (cfg : SchedulerConfig) (s : Scheduler) (tokens : ReqId → Token)
    (logitsOf : ReqId → LogitsRow) where
  locs : List ℕ
  memory : Memory
  prepared : Scheduler
  accepted : Scheduler
  allocated : s.memory.Allocated s.filterBatch.runningBatch.length locs memory
  prepared_eq : prepared =
    { extendRows s.filterBatch.runningBatch locs (s.filterBatch.setMemory memory) with
      runningBatch := s.filterBatch.runningBatch.map fun e =>
        { e with inputId := e.outputId, outputId := tokens e.req, seqLen := e.seqLen + 1 } }
  accepted_eq : prepared.running.foldlM (decodeResult cfg tokens logitsOf) prepared.freeGroupBegin =
    .ok accepted

structure DecodePhases (cfg : SchedulerConfig) (s : Scheduler) (tokens : ReqId → Token)
    (logitsOf : ReqId → LogitsRow) (verdict : Verdict) (t : Scheduler) extends
    ResultPhases cfg s tokens logitsOf where
  rechecked : Scheduler
  verified : cfg.args.enableLlm42 = true → ∃ passed results rolledBack,
    accepted.verifyRequests cfg verdict = .ok (passed, results) ∧
    results.foldlM rollback passed = .ok rolledBack ∧
    rolledBack.running.foldlM recheck rolledBack = .ok rechecked
  unverified : cfg.args.enableLlm42 = false → rechecked = accepted
  final_eq : t = (rechecked.streamOutput cfg.args rechecked.running).freeGroupEnd

theorem prepareForDecode_ok (tokens : ReqId → Token)
    (h : s.filterBatch.prepareForDecode victims = .ok t) :
    ∃ locs m, s.memory.Allocated s.filterBatch.runningBatch.length locs m ∧ t.setOutputIds tokens =
        { extendRows s.filterBatch.runningBatch locs (s.filterBatch.setMemory m) with
          runningBatch := s.filterBatch.runningBatch.map fun e =>
            { e with inputId := e.outputId, outputId := tokens e.req, seqLen := e.seqLen + 1 } } := by
  obtain ⟨⟨locs, m⟩, halloc, h⟩ := bind_eq_ok h
  simp only [Except.ok.injEq] at h
  refine ⟨locs, m, Memory.allocTokenSlots_ok halloc, ?_⟩
  rw [← h]
  simp [setOutputIds, extendRows_frame, setMemory, Function.comp_def]

/-- A decode step up to the end of the result loop, as one function. -/
def resultLoop (cfg : SchedulerConfig) (s : Scheduler) (tokens : ReqId → Token)
    (logitsOf : ReqId → LogitsRow) (victims : List NodeRef) : Except SchedulerError Scheduler := do
  let s ← s.filterBatch.prepareForDecode victims
  let s := (s.setOutputIds tokens).freeGroupBegin
  s.running.foldlM (decodeResult cfg tokens logitsOf) s

theorem resultLoop_ok {a : Scheduler} (h : s.resultLoop cfg tokens logitsOf victims = .ok a) :
    ∃ P : ResultPhases cfg s tokens logitsOf, P.accepted = a := by
  obtain ⟨u, hu, h⟩ := bind_eq_ok h
  obtain ⟨locs, m, halloc, hprep⟩ := prepareForDecode_ok tokens hu
  exact ⟨⟨locs, m, _, a, halloc, hprep, h⟩, rfl⟩

section

variable (h : s.decode cfg tokens logitsOf verdict victims = .ok t)

include h

theorem decode_ok_resultLoop : (s.filterBatch.runningBatch = [] ∧ t = s.filterBatch) ∨
      ∃ P : DecodePhases cfg s tokens logitsOf verdict t,
        s.resultLoop cfg tokens logitsOf victims = .ok P.accepted := by
  unfold decode at h
  split at h
  next hempty =>
    simp only [Except.ok.injEq] at h
    exact .inl ⟨List.isEmpty_iff.mp hempty, h.symm⟩
  · right
    obtain ⟨u, hu, h⟩ := bind_eq_ok h
    obtain ⟨locs, m, halloc, hprep⟩ := prepareForDecode_ok tokens hu
    obtain ⟨accepted, hacc, h⟩ := bind_eq_ok h
    have hloop : s.resultLoop cfg tokens logitsOf victims = .ok accepted := by
      rw [resultLoop, hu]
      exact hacc
    split at h
    next henable =>
      obtain ⟨rechecked, hver, h⟩ := bind_eq_ok h
      simp only [Except.ok.injEq] at h
      obtain ⟨⟨passed, results⟩, hpass, hver⟩ := bind_eq_ok hver
      obtain ⟨rolledBack, hroll, hver⟩ := bind_eq_ok hver
      exact ⟨⟨⟨locs, m, _, accepted, halloc, hprep, hacc⟩, rechecked,
        fun _ => ⟨passed, results, rolledBack, hpass, hroll, hver⟩,
        fun hd => absurd henable (by simp [hd]), h.symm⟩, hloop⟩
    next hdis =>
    obtain ⟨rechecked, hver, h⟩ := bind_eq_ok h
    simp only [Except.ok.injEq] at h hver
    exact ⟨⟨⟨locs, m, _, accepted, halloc, hprep, hacc⟩, rechecked,
      fun he => absurd he hdis, fun _ => hver.symm, h.symm⟩, hloop⟩

/-- A decode step goes through its phases, or nothing is left to run. -/
theorem decode_ok : (s.filterBatch.runningBatch = [] ∧ t = s.filterBatch) ∨
      Nonempty (DecodePhases cfg s tokens logitsOf verdict t) :=
  (decode_ok_resultLoop h).imp_right fun ⟨P, _⟩ => ⟨P⟩

end

end Scheduler

end LLM42
