import LLM42.Memory.Ownership
import LLM42.Scheduler.Step

/-! # Scheduler steps, request by request

Each loop over a batch treats its requests one after the other. A request sees the others only
through an abort: a grammar that rejects its token may abort requests with the same `rid` prefix. -/

namespace LLM42

open Library Function

namespace Req

/-- Unchanged, or aborted meanwhile for a reason `p`. -/
def AbortedIf (p : Prop) (r r' : Req) : Prop :=
  r' = r ∨ (p ∧ ¬ r.finished ∧ ∃ m, r' = { r with toFinish := some (.abort m) })

def core (r : Req) : Req :=
  { r.withoutOffsets with
    grammar := none
    toFinish := none
    finishedOutput := false
    finishedLen := none }

namespace AbortedIf

variable {p q : Prop} {r r' r'' : Req}

theorem refl (p : Prop) (r : Req) : AbortedIf p r r := .inl rfl

section

variable (h : AbortedIf p r r')

include h

theorem trans (h' : AbortedIf p r' r'') : AbortedIf p r r'' := by
  rcases h with rfl | ⟨hp, hf, x, rfl⟩
  · exact h'
  · rcases h' with rfl | ⟨_, _, y, rfl⟩
    · exact .inr ⟨hp, hf, x, rfl⟩
    · exact .inr ⟨hp, hf, y, rfl⟩

theorem imp (hpq : p → q) : AbortedIf q r r' := h.imp_right fun ⟨hp, hx⟩ => ⟨hpq hp, hx⟩

theorem eq_of_not (hp : ¬ p) : r' = r := h.resolve_right fun hx => hp hx.1

theorem core_eq : r'.core = r.core := by
  rcases h with rfl | ⟨_, _, x, rfl⟩
  · rfl
  · rfl

theorem grammar : r'.grammar = r.grammar := by
  rcases h with rfl | ⟨_, _, x, rfl⟩
  · rfl
  · rfl

theorem fields : r'.kv = r.kv ∧ r'.originInputIds = r.originInputIds ∧
    r'.outputIds = r.outputIds ∧ r'.llm42VerifiedTokens = r.llm42VerifiedTokens ∧
      r'.samplingParams = r.samplingParams := by
  rcases h with rfl | ⟨_, _, x, rfl⟩
  · exact ⟨rfl, rfl, rfl, rfl, rfl⟩
  · exact ⟨rfl, rfl, rfl, rfl, rfl⟩

end

end AbortedIf

def Rejects (r : Req) (token : Token) : Prop :=
  ∃ g, r.grammar = some g ∧ g.acceptToken token = none

def acceptToken (r : Req) (token : Token) : Req :=
  match r.grammar with
  | none => r
  | some g => match g.acceptToken token with
    | some g' => { r with grammar := some { g' with finished := r.finished } }
    | none =>
      { r with
        grammar := some { g with finished := r.finished }
        toFinish := if r.finished then r.toFinish else some (.abort "Aborted") }

theorem acceptToken_core (r : Req) (token : Token) : (r.acceptToken token).core = r.core := by
  unfold acceptToken
  split
  · rfl
  · split
    · rfl
    · rfl

@[simp] theorem acceptToken_kv (r : Req) (token : Token) : (r.acceptToken token).kv = r.kv := by
  have h := congrArg (fun x : Req => x.kv) (r.acceptToken_core token)
  exact h

theorem streamOutput_core (args : ServerArgs) (r : Req) : (r.streamOutput args).1.core = r.core := by
  have hsend : ∀ r : Req, (r.sendOutput args).1.core = r.core := by
    intro r
    exact congrArg (fun x : Req =>
      { x with grammar := none, toFinish := none, finishedOutput := false, finishedLen := none })
      (r.withoutOffsets_sendOutput args)
  unfold streamOutput
  split_ifs
  · rfl
  · rfl
  · exact hsend r.markFinal
  · exact hsend r
  · rfl

theorem AbortedIf.streamOutput_core {p : Prop} {r r' : Req} (h : AbortedIf p r r')
    (args : ServerArgs) : (r'.streamOutput args).1.core = r.core :=
  (r'.streamOutput_core args).trans h.core_eq

def release (r : Req) : Req := { r with kv := Memory.releasedKv r.kv, completed := true }

def decoded (cfg : SchedulerConfig) (token : Token) (logits : LogitsRow) (r : Req) : Req :=
  let r := r.decodeToken token logits
  (if r.finished && !(cfg.args.enableLlm42 && r.isDeterministic) then r.release
    else r).acceptToken token

def rechecked (r : Req) : Req :=
  if r.kv.isRetracted || !r.isDeterministic then r
  else if r.completed then r
  else if r.checkFinished.finished then r.checkFinished.release
  else r.checkFinished

@[simp] theorem rolledBack_zero (r : Req) : r.rolledBack 0 = r := by
  simp [rolledBack]

end Req

namespace Scheduler

/-- Besides request `id` only aborts happened, and queued requests may have been dropped. -/
structure Frame (p : Prop) (s t : Scheduler) (id : ReqId) : Prop where
  other : ∀ j, j ≠ id → (s.heap j).AbortedIf p (t.heap j)
  runningBatch : t.runningBatch = s.runningBatch
  nextId : t.nextId = s.nextId
  waitingQueue : t.waitingQueue.Sublist s.waitingQueue
  messages : t.messages = s.messages

variable {p : Prop} {s t u : Scheduler} {id : ReqId} {logitsOf : ReqId → LogitsRow}
  {tokens : ReqId → Token} {cfg : SchedulerConfig} {ι : Type}

theorem Frame.trans (h : Frame p s t id) (h' : Frame p t u id) : Frame p s u id :=
  ⟨fun j hj => (h.other j hj).trans (h'.other j hj), h'.runningBatch.trans h.runningBatch,
    h'.nextId.trans h.nextId, h'.waitingQueue.trans h.waitingQueue, h'.messages.trans h.messages⟩

theorem Frame.imp {q : Prop} (h : Frame p s t id) (hpq : p → q) : Frame q s t id :=
  { h with other := fun j hj => (h.other j hj).imp hpq }

theorem frame_setReq (p : Prop) (s : Scheduler) (id : ReqId) (r : Req) (m : Memory) :
    Frame p s ((s.setMemory m).setReq id r) id where
  other j hj := by
    simp only [setReq, setMemory, update_of_ne hj]
    exact .refl _ _
  runningBatch := rfl
  nextId := rfl
  waitingQueue := List.Sublist.refl _
  messages := rfl

theorem abortRequest_aborted (s : Scheduler) (curBatch : List ReqId) (rid : String)
    (abortAll : Bool) (j : ReqId) :
    (s.heap j).AbortedIf True ((s.abortRequest curBatch rid abortAll).heap j) := by
  simp only [abortRequest]
  split
  next h => exact .inr ⟨trivial, by simpa using h.2.1, _, rfl⟩
  · exact .refl _ _

theorem abortOnRunningTimeout_aborted (s : Scheduler) (overdue : ReqId → Bool) (j : ReqId) :
    (s.heap j).AbortedIf True ((s.abortOnRunningTimeout overdue).heap j) := by
  simp only [abortOnRunningTimeout]
  split
  next h => exact .inr ⟨trivial, by simpa using h.2.1, _, rfl⟩
  · exact .refl _ _

theorem acceptGrammar_spec (s : Scheduler) {curBatch : List ReqId} {id : ReqId} (token : Token)
    (hid : id ∈ s.running ∨ id ∈ curBatch) :
    Frame ((s.heap id).Rejects token) s (s.acceptGrammar curBatch id token) id ∧
      (s.acceptGrammar curBatch id token).heap id = (s.heap id).acceptToken token ∧
      (s.acceptGrammar curBatch id token).memory = s.memory := by
  unfold acceptGrammar Req.acceptToken
  cases hg : (s.heap id).grammar with
  | none =>
    exact ⟨⟨fun _ _ => .refl _ _, rfl, rfl, List.Sublist.refl _, rfl⟩, rfl, rfl⟩
  | some g =>
    dsimp only
    cases ha : g.acceptToken token with
    | some g' =>
      refine ⟨frame_setReq _ s id _ s.memory, ?_, rfl⟩
      simp [setReq]
    | none =>
      have hrej : (s.heap id).Rejects token := ⟨g, hg, ha⟩
      have habort := s.abortRequest_aborted curBatch (s.heap id).rid false
      refine ⟨Frame.trans (t := s.abortRequest curBatch (s.heap id).rid false)
          ⟨?_, rfl, rfl, List.filter_sublist, rfl⟩
        (frame_setReq _ _ id _ s.memory), ?_, rfl⟩
      · exact fun j hj => (habort j).imp fun _ => hrej
      · have hmatch : abortMatches (s.heap id).rid false (s.heap id) = true := by
          simp [abortMatches]
        have hheap : (s.abortRequest curBatch (s.heap id).rid false).heap id = { s.heap id with
              toFinish := if (s.heap id).finished then (s.heap id).toFinish
                else some (.abort "Aborted") } := by
          by_cases hf : (s.heap id).finished
          · simp only [abortRequest]
            rw [if_neg (by simp [hf]), if_pos hf]
          · simp only [abortRequest]
            rw [if_pos ⟨hid, by simpa using hf, hmatch⟩, if_neg hf]
        simp only [setReq, update_self, hheap]
        rfl

theorem finishReq_ok {r : Req} (h : s.finishReq id r = .ok t) :
    t.heap = Function.update s.heap id r.release ∧
      (∃ row r', s.memory.Released r row r' t.memory) ∧ ∀ p, Frame p s t id := by
  obtain ⟨⟨r', m⟩, hrel, h⟩ := bind_eq_ok h
  obtain ⟨row, hspec⟩ := Memory.releaseKvCache_ok hrel
  have hr' := hspec.req_eq
  simp only [Except.ok.injEq] at h
  subst h hr'
  exact ⟨rfl, ⟨row, _, hspec⟩, fun p => frame_setReq p s id _ m⟩

/-- The grammar part after a step that left request `id` as `r` with its grammar. -/
theorem accept_after {u : Scheduler} {ids : List ReqId} {r : Req} (token : Token)
    (hframe : ∀ p, Frame p s u id) (hu : u.heap id = r) (hgram : r.grammar = (s.heap id).grammar)
    (hid : id ∈ u.running ∨ id ∈ ids) :
    Frame ((s.heap id).Rejects token) s (u.acceptGrammar ids id token) id ∧
      (u.acceptGrammar ids id token).heap id = r.acceptToken token ∧
      (u.acceptGrammar ids id token).memory = u.memory := by
  obtain ⟨hframe', hheap, hmem⟩ := u.acceptGrammar_spec token hid
  have hrej : (u.heap id).Rejects token ↔ (s.heap id).Rejects token := by
    simp [hu, Req.Rejects, hgram]
  rw [propext hrej] at hframe'
  exact ⟨(hframe _).trans hframe', hu ▸ hheap, hmem⟩

/-- What happened to the memory, and to what request `r` knows of it, while `r` was treated. -/
inductive MemoryEffect (m : Memory) (r : Req) : Memory → KvFields → Prop
  | same : MemoryEffect m r m r.kv
  | released {row : ℕ} {r' : Req} {m' : Memory} : m.Released r row r' m' →
      MemoryEffect m r m' (Memory.releasedKv r.kv)

theorem decodeResult_ok (hid : id ∈ s.running) (h : decodeResult cfg tokens logitsOf s id = .ok t) :
    Frame ((s.heap id).Rejects (tokens id)) s t id ∧
      t.heap id = (s.heap id).decoded cfg (tokens id) (logitsOf id) ∧
      MemoryEffect s.memory ((s.heap id).decodeToken (tokens id) (logitsOf id)) t.memory
        (t.heap id).kv := by
  unfold decodeResult at h
  unfold Req.decoded
  dsimp only at h ⊢
  have hgram : ((s.heap id).decodeToken (tokens id) (logitsOf id)).grammar =
      (s.heap id).grammar := by simp [Req.decodeToken, Req.appendToken]
  generalize (s.heap id).decodeToken (tokens id) (logitsOf id) = r at h hgram ⊢
  split at h
  next hfin =>
    obtain ⟨u, hu, h⟩ := bind_eq_ok h
    cases h
    obtain ⟨hheap, ⟨row, r', hrel⟩, hframe⟩ := finishReq_ok hu
    have hid' : id ∈ u.running ∨ id ∈ ([] : List ReqId) := by
      left
      rw [running, (hframe True).runningBatch]
      exact hid
    obtain ⟨hframe', hheap', hmem⟩ :=
      accept_after (r := r.release) (tokens id) hframe (by rw [hheap, update_self]) hgram hid'
    refine ⟨hframe', by rw [hheap', if_pos hfin], ?_⟩
    rw [hmem, hheap', Req.acceptToken_kv]
    exact .released hrel
  next hfin =>
  obtain ⟨u, hu, h⟩ := bind_eq_ok h
  simp only [Except.ok.injEq] at h hu
  subst h hu
  obtain ⟨hframe', hheap', hmem⟩ := @accept_after s id (s.setReq id r) [] r (tokens id)
    (fun p => frame_setReq p s id r s.memory) (by simp [setReq]) hgram (.inl hid)
  refine ⟨hframe', by rw [hheap', if_neg hfin], ?_⟩
  rw [hmem, hheap', Req.acceptToken_kv]
  exact .same

theorem recheck_ok (h : recheck s id = .ok t) :
    (∀ p, Frame p s t id) ∧ t.heap id = (s.heap id).rechecked ∧
      MemoryEffect s.memory (s.heap id).checkFinished t.memory (t.heap id).kv := by
  have hsame : MemoryEffect s.memory (s.heap id).checkFinished s.memory (s.heap id).kv := by
    have h := MemoryEffect.same (m := s.memory) (r := (s.heap id).checkFinished)
    rwa [Req.checkFinished_kv] at h
  have hskip : ∀ p, Frame p s s id := fun p =>
    ⟨fun _ _ => .refl _ _, rfl, rfl, List.Sublist.refl _, rfl⟩
  unfold recheck at h
  unfold Req.rechecked
  dsimp only at h
  split at h
  next hr =>
    cases h
    exact ⟨hskip, by rw [if_pos hr], hsame⟩
  next hr =>
  rw [if_neg hr]
  split at h
  next hc =>
    cases h
    exact ⟨hskip, by rw [if_pos hc], hsame⟩
  next hc =>
  rw [if_neg hc]
  split at h
  next hf =>
    obtain ⟨hheap, ⟨row, r', hrel⟩, hframe⟩ := finishReq_ok h
    refine ⟨hframe, by rw [hheap, update_self, if_pos hf], ?_⟩
    rw [hheap, update_self]
    exact .released hrel
  next hf =>
  cases h
  refine ⟨fun p => frame_setReq p s id _ s.memory, by simp [setReq, hf], ?_⟩
  simp only [setReq, update_self]
  exact .same

theorem rollback_ok {x : ReqId × ℕ} (h : rollback s x = .ok t) :
    (∀ p, Frame p s t x.1) ∧ t.heap x.1 = (s.heap x.1).rolledBack x.2 ∧
      ∃ row, (s.heap x.1).kv.reqPoolIdx = some row ∧
        t.memory = s.memory.free ((s.memory.rows.slice row
          ((s.heap x.1).originInputIds.length + ((s.heap x.1).outputIds.length - 1))
          ((s.heap x.1).originInputIds.length + ((s.heap x.1).outputIds.length - 1) + x.2)).filter
            (· ≠ 0)) := by
  unfold rollback at h
  dsimp only at h
  split at h
  · cases h
  next row hrow =>
  cases h
  exact ⟨fun p => frame_setReq p s x.1 _ _, by simp [setReq, Req.rolledBack], row, hrow, rfl⟩

theorem cacheUnfinished_ok {r : Req} (h : s.cacheUnfinished id r = .ok t) :
    ∃ row r', r.kv.reqPoolIdx = some row ∧ s.memory.Cached r row r' t.memory ∧
      t.heap = Function.update s.heap id r' ∧ ∀ p, Frame p s t id := by
  unfold cacheUnfinished at h
  split at h
  · cases h
  next row hrow =>
  obtain ⟨⟨r', m⟩, hc, h⟩ := bind_eq_ok h
  cases h
  exact ⟨row, r', hrow, Memory.cacheUnfinishedReq_ok hc, rfl, fun p => frame_setReq p s id _ m⟩

/-- What the prefill result loop does with a request `r` that has its token. -/
inductive PrefillEffect (m : Memory) (r : Req) (token : Token) : Memory → Req → Prop
  | finished {row : ℕ} {r' : Req} {m' : Memory} : r.finished → m.Released r row r' m' →
      PrefillEffect m r token m' (r.release.acceptToken token)
  | cached {row : ℕ} {r' : Req} {m' : Memory} : ¬ r.finished → r.kv.reqPoolIdx = some row →
      m.Cached r row r' m' → PrefillEffect m r token m' (r'.acceptToken token)

/-- One pass of the prefill result loop for a request that is neither finished nor retracted. -/
theorem prefillResult_ok {ids : List ReqId} (hid : id ∈ ids) (hfin : ¬ (s.heap id).finished)
    (hret : (s.heap id).kv.isRetracted = false)
    (h : prefillResult cfg ids tokens logitsOf s id = .ok t) :
    Frame ((s.heap id).Rejects (tokens id)) s t id ∧ PrefillEffect s.memory
        ((s.heap id).prefillToken cfg.args.enableLlm42 (tokens id) (logitsOf id)) (tokens id)
        t.memory (t.heap id) := by
  unfold prefillResult at h
  rw [if_neg (by simp [hfin, hret])] at h
  have hgram : ((s.heap id).prefillToken cfg.args.enableLlm42 (tokens id) (logitsOf id)).grammar =
      (s.heap id).grammar := by
    unfold Req.prefillToken
    dsimp only
    split <;> simp [Req.appendToken]
  dsimp only at h
  generalize (s.heap id).prefillToken cfg.args.enableLlm42 (tokens id) (logitsOf id) = r
    at h hgram ⊢
  split at h
  next hf =>
    obtain ⟨u, hu, h⟩ := bind_eq_ok h
    cases h
    obtain ⟨hheap, ⟨row, r', hrel⟩, hframe⟩ := finishReq_ok hu
    obtain ⟨hframe', hheap', hmem⟩ := accept_after (r := r.release) (tokens id) hframe
      (by rw [hheap, update_self]) hgram (.inr hid)
    refine ⟨hframe', ?_⟩
    rw [hheap', hmem]
    exact .finished hf hrel
  next hf =>
  obtain ⟨u, hu, h⟩ := bind_eq_ok h
  cases h
  obtain ⟨row, r', hrow, hcached, hheap, hframe⟩ := cacheUnfinished_ok hu
  have hgram' : r'.grammar = r.grammar := by
    obtain ⟨_, _, _, heq⟩ := hcached.req_eq
    rw [heq]
  obtain ⟨hframe', hheap', hmem⟩ := accept_after (r := r') (tokens id) hframe
    (by rw [hheap, update_self]) (hgram'.trans hgram) (.inr hid)
  refine ⟨hframe', ?_⟩
  rw [hheap', hmem]
  exact .cached hf hrow hcached

theorem releaseReq_ok {victims : ReqId → List NodeRef} (h : releaseReq victims s id = .ok t) :
    (∀ p, Frame p s t id) ∧
      t.heap id = resetForRetract { s.heap id with kv := Memory.releasedKv (s.heap id).kv } ∧
      ∃ row r' m, s.memory.Released (s.heap id) row r' m ∧ m.Keeps t.memory := by
  obtain ⟨⟨r', m⟩, hrel, h⟩ := bind_eq_ok h
  obtain ⟨row, hspec⟩ := Memory.releaseKvCache_ok hrel
  have hr' := hspec.req_eq
  simp only [Except.ok.injEq] at h
  subst h hr'
  exact ⟨fun p => frame_setReq p s id _ _, by simp [setReq], row, _, m, hspec,
    m.keeps_evict (victims id)⟩

variable (key : ι → ReqId) {op : Scheduler → ι → Except SchedulerError Scheduler} {p : Prop}
  {xs : List ι}

/-- A loop over distinct requests, seen from each of them: what happens to it happens between
aborts caused by the others. -/
theorem foldlM_heap (effect : ι → Req → Req → Prop) (hnd : (xs.map key).Nodup)
    (hop : ∀ u x v, x ∈ xs → (s.heap (key x)).AbortedIf p (u.heap (key x)) →
      u.runningBatch = s.runningBatch → op u x = .ok v →
      Frame p u v (key x) ∧ effect x (u.heap (key x)) (v.heap (key x)))
    (h : xs.foldlM op s = .ok t) :
    (∀ x ∈ xs, ∃ r r', (s.heap (key x)).AbortedIf p r ∧ effect x r r' ∧
        r'.AbortedIf p (t.heap (key x))) ∧
      (∀ j ∉ xs.map key, (s.heap j).AbortedIf p (t.heap j)) ∧
      t.runningBatch = s.runningBatch ∧ t.nextId = s.nextId ∧
      t.waitingQueue.Sublist s.waitingQueue := by
  have hloop := foldlM_spec (fun u => (∀ j ∉ xs.map key, (s.heap j).AbortedIf p (u.heap j)) ∧
      u.runningBatch = s.runningBatch ∧ u.nextId = s.nextId ∧
      u.waitingQueue.Sublist s.waitingQueue)
    (fun x u => x ∈ xs ∧ (s.heap (key x)).AbortedIf p (u.heap (key x)))
    (fun x u => x ∈ xs ∧ ∃ r r', (s.heap (key x)).AbortedIf p r ∧ effect x r r' ∧
      r'.AbortedIf p (u.heap (key x)))
    ?_ (List.Nodup.of_map key hnd) h ?_ ?_
  · obtain ⟨⟨hother, hrun, hnext, hwait⟩, hpost, _⟩ := hloop
    exact ⟨fun x hx => (hpost x hx).2, hother, hrun, hnext, hwait⟩
  · rintro u x v ⟨hother, hrun, hnext, hwait⟩ ⟨hx, hpre⟩ hstep
    obtain ⟨hframe, heff⟩ := hop u x v hx hpre hrun hstep
    refine ⟨⟨?_, hframe.runningBatch.trans hrun, hframe.nextId.trans hnext,
      hframe.waitingQueue.trans hwait⟩, ⟨hx, _, _, hpre, heff, .refl _ _⟩, ?_⟩
    · intro j hj
      have hne : j ≠ key x := fun h => hj (h ▸ List.mem_map_of_mem hx)
      exact (hother j hj).trans (hframe.other j hne)
    · intro y hne
      have hkey : y ∈ xs → key y ≠ key x := fun hy heq =>
        hne (List.inj_on_of_nodup_map hnd hy hx heq)
      refine ⟨fun ⟨hy, hpy⟩ => ⟨hy, hpy.trans (hframe.other _ (hkey hy))⟩, ?_⟩
      rintro ⟨hy, r, r', h1, h2, h3⟩
      exact ⟨hy, r, r', h1, h2, h3.trans (hframe.other _ (hkey hy))⟩
  · exact ⟨fun _ _ => .refl _ _, rfl, rfl, List.Sublist.refl _⟩
  · exact fun x hx => ⟨hx, .refl _ _⟩

/-- An invariant of such a loop: each pass finds its request untouched, aborts apart. -/
theorem foldlM_heap_invariant (Inv : Scheduler → Prop) (hnd : (xs.map key).Nodup)
    (hop : ∀ u x v, x ∈ xs → (s.heap (key x)).AbortedIf p (u.heap (key x)) →
      u.runningBatch = s.runningBatch → Inv u → op u x = .ok v → Frame p u v (key x) ∧ Inv v)
    (h : xs.foldlM op s = .ok t) (hinv : Inv s) : Inv t := by
  have hloop := foldlM_spec (fun u => Inv u ∧ u.runningBatch = s.runningBatch)
    (fun x u => x ∈ xs ∧ (s.heap (key x)).AbortedIf p (u.heap (key x))) (fun _ _ => True)
    ?_ (List.Nodup.of_map key hnd) h ⟨hinv, rfl⟩ fun x hx => ⟨hx, .refl _ _⟩
  · exact hloop.1.1
  · rintro u x v ⟨hu, hrun⟩ ⟨hx, hpre⟩ hstep
    obtain ⟨hframe, hv⟩ := hop u x v hx hpre hrun hu hstep
    refine ⟨⟨hv, hframe.runningBatch.trans hrun⟩, trivial, fun y hne => ⟨?_, fun _ => trivial⟩⟩
    rintro ⟨hy, hpy⟩
    refine ⟨hy, hpy.trans (hframe.other _ fun heq => hne ?_)⟩
    exact List.inj_on_of_nodup_map hnd hy hx heq

/-- Such a loop fails at a request that it finds untouched, aborts apart. -/
theorem foldlM_heap_error {c : SchedulerError} (hnd : (xs.map key).Nodup)
    (hop : ∀ u x v, x ∈ xs → (s.heap (key x)).AbortedIf p (u.heap (key x)) →
      u.runningBatch = s.runningBatch → op u x = .ok v → Frame p u v (key x))
    (h : xs.foldlM op s = .error c) : ∃ x ∈ xs, ∃ u,
      (s.heap (key x)).AbortedIf p (u.heap (key x)) ∧ op u x = .error c := by
  have hloop := foldlM_error (fun u => u.runningBatch = s.runningBatch)
    (fun x u => x ∈ xs ∧ (s.heap (key x)).AbortedIf p (u.heap (key x))) ?_
    (List.Nodup.of_map key hnd) h rfl fun x hx => ⟨hx, .refl _ _⟩
  · obtain ⟨x, hx, u, ⟨_, hpre⟩, hstep⟩ := hloop
    exact ⟨x, hx, u, hpre, hstep⟩
  · rintro u x v hrun ⟨hx, hpre⟩ hstep
    have hframe := hop u x v hx hpre hrun hstep
    refine ⟨hframe.runningBatch.trans hrun, fun y hne => ?_⟩
    rintro ⟨hy, hpy⟩
    refine ⟨hy, hpy.trans (hframe.other _ fun heq => hne ?_)⟩
    exact List.inj_on_of_nodup_map hnd hy hx heq

end Scheduler

end LLM42
