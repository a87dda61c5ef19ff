import LLM42.Scheduler.Errors
import LLM42.Scheduler.Journey

/-! # KV bookkeeping across rollback

Without a prefix cache and without retraction: the counters of every decoding request follow its
output, and every slot has exactly one holder. -/

namespace LLM42

open Scheduler Library List

/-- A scheduler with the number of decode steps that each request ran. -/
structure Counted where
  scheduler : Scheduler
  decodeSteps : ReqId → ℕ

namespace Counted

def step (cfg : SchedulerConfig) (c : Counted) (event : SchedulerEvent) :
    Except SchedulerError Counted := do
  let s ← c.scheduler.step cfg event
  .ok ⟨s, fun id =>
    if event.Decodes c.scheduler id then c.decodeSteps id + 1 else c.decodeSteps id⟩

/-- Start-up without a prefix cache. -/
structure Starts (cfg : SchedulerConfig) (c : Counted) : Prop where
  boots : Boots cfg c.scheduler
  tree : c.scheduler.memory.tree = .chunkCache
  decodeSteps : ∀ id, c.decodeSteps id = 0

/-- Every event but retraction and `flush_cache`. -/
def Allowed (_ : Counted) : SchedulerEvent → Prop
  | .retract .. | .flushCache => False
  | _ => True

instance (c : Counted) (event : SchedulerEvent) : Decidable (Allowed c event) := by
  unfold Allowed
  split <;> infer_instance

structure Invariant (cfg : SchedulerConfig) (c : Counted) : Prop where
  booked : Booked cfg True c.scheduler
  running : ∀ id ∈ c.scheduler.running, (c.scheduler.heap id).generated = 1 + c.decodeSteps id
  queued : ∀ id ∈ c.scheduler.waitingQueue,
    (c.scheduler.heap id).generated = 0 ∧ c.decodeSteps id = 0
  fresh : ∀ id, c.scheduler.nextId ≤ id → c.decodeSteps id = 0

variable {cfg : SchedulerConfig} {c d : Counted} {event : SchedulerEvent}

theorem Starts.invariant (h : Starts cfg c) : Invariant cfg c where
  booked := h.boots.booked fun _ => h.tree
  running := by simp [running, h.boots.runningBatch]
  queued := by simp [h.boots.waitingQueue]
  fresh id _ := h.decodeSteps id

/-- The tokens generated keep in step with the decode steps taken. -/
theorem Invariant.step (h : Invariant cfg c) (ha : Allowed c event)
    (hs : c.step cfg event = .ok d) : Invariant cfg d := by
  obtain ⟨t, ht, hd⟩ := bind_eq_ok hs
  cases hd
  have hc := h.booked.consistent
  have hbooked : Booked cfg True t := by
    refine h.booked.step ?_ (.inl trivial) ht
    rintro rfl
    exact ha
  have hidle : ∀ id, ¬ event.Decodes c.scheduler id →
      (if event.Decodes c.scheduler id then c.decodeSteps id + 1 else c.decodeSteps id) =
        c.decodeSteps id := fun id hdec => if_neg hdec
  refine ⟨hbooked, fun id hid => ?_, fun id hid => ?_, fun id hid => ?_⟩
  · have hlt := hbooked.consistent.lt id (mem_append_left _ hid)
    obtain ⟨e, he, heq⟩ := mem_running.mp hid
    dsimp only
    cases hc.requestStep ht hlt with
    | kept _ hkept hbatch _ hdec =>
      rw [Req.generated_congr hkept.core_eq, hidle id hdec]
      exact h.running id (mem_running.mpr ⟨e, hbatch e he heq, heq⟩)
    | received _ _ _ hnot => exact absurd hid hnot
    | extended _ hq hstep _ _ =>
      obtain ⟨hgen, hsteps⟩ := h.queued id hq
      rw [hidle id not_false, hstep.generated, hgen, hsteps]
    | @decoded tokens logitsOf verdict victims _ _ P he₀ heq₀ _ _ hstep =>
      have hrun : id ∈ c.scheduler.filterBatch.running := mem_running.mpr ⟨_, he₀, heq₀⟩
      have hcount : ∀ n : ℕ, (if SchedulerEvent.Decodes c.scheduler id
          (.decode tokens logitsOf verdict victims) then n + 1 else n) = n + 1 := fun n => if_pos hrun
      rw [hcount, hstep.generated, h.running id (c.scheduler.filterBatch_sublist.subset hrun)]
      omega
    | retracted => exact ha.elim
  · have hlt := hbooked.consistent.lt id (mem_append_right _ hid)
    dsimp only
    cases hc.requestStep ht hlt with
    | kept _ hkept _ hwait hdec =>
      rw [Req.generated_congr hkept.core_eq, hidle id hdec]
      exact h.queued id (hwait hid)
    | received hnext hnew heap _ =>
      rw [heap, hidle id not_false, h.fresh id hnext.ge]
      have hinit := Req.initial_of_isNew hnew
      exact ⟨by simp [Req.generated, hinit.outputIds, hinit.rolledBack], rfl⟩
    | extended _ _ _ _ hnot => exact absurd hid hnot
    | decoded P _ _ he' heq' _ =>
      exact absurd (mem_running.mpr ⟨_, he', heq'⟩) (hbooked.consistent.not_mem_running hid)
    | retracted => exact ha.elim
  · dsimp only at hid ⊢
    have hle := (hc.nextId_le ht).trans hid
    rw [hidle id, h.fresh id hle]
    intro hdec
    cases event with
    | decode tokens logitsOf verdict victims =>
      have hlt := hc.lt id (mem_append_left _ (c.scheduler.filterBatch_sublist.subset hdec))
      exact absurd hlt (Nat.not_lt.mpr hle)
    | _ => exact hdec

end Counted

namespace Scheduler

def committedSlots (s : Scheduler) (id : ReqId) : List ℕ :=
  match (s.heap id).kv.reqPoolIdx with
  | none => []
  | some row => s.memory.rows.slice row 0 (s.heap id).kv.kvCommittedLen

variable {cfg : SchedulerConfig} {s : Scheduler}

theorem committedSlots_eq_owned (h : Booked cfg True s) {id : ReqId} (hid : id < s.nextId) :
    s.committedSlots id = s.memory.owned (s.kv id) := by
  unfold committedSlots Memory.owned
  by_cases hrun : id ∈ s.running
  · obtain ⟨e, he, rfl⟩ := mem_running.mp hrun
    rcases h.consistent.settled e he with hgone | ⟨_, hlive⟩
    · simp only [kv, hgone.row]
    · have hzero := h.books.cacheProtectedLen_eq_zero hid rfl hlive (h.sharing.anchored _ hrun)
      simp only [kv, hlive.row, hzero]
  · simp only [kv, h.consistent.parked id hid hrun]

theorem slots_perm (h : Booked cfg True s) :
    (s.memory.allocator.held ++ holdings s.nextId s.committedSlots ++
      cfg.worker.reservedSlots).Perm (range' 1 s.memory.allocator.size) := by
  have hslots := h.books.ledger.slots
  rw [holdings_congr fun id hid => (committedSlots_eq_owned h hid).symm] at hslots
  have htree : s.memory.tree.slots = [] := by
    rw [h.books.chunk trivial]
    rfl
  rwa [Memory.pooled, htree, append_nil] at hslots

theorem step_ne_overallocated (h : Consistent cfg s) (event : SchedulerEvent) (p q : ℕ) :
    s.step cfg event ≠ .error (.overallocated p q) := by
  intro herr
  cases event with
  | extend ids tokens logitsOf victims =>
    rcases extend_error h herr with ⟨n, hn⟩ | ⟨n, hn⟩ | ⟨m, k, hn⟩
    · cases hn
    · cases hn
    · cases hn
  | decode tokens logitsOf verdict victims =>
    rcases decode_error h herr with ⟨n, hn⟩ | ⟨P, _, hver⟩
    · cases hn
    · unfold verifyRequests at hver
      split at hver
      · cases hver
      · cases hver
  | retract ids victims =>
    obtain ⟨t, ht⟩ := retract_isOk h ids victims
    rw [step, ht] at herr
    cases herr
  | _ => cases herr

end Scheduler

/-- In every run without prefix cache and retraction, however verification turns out: counters,
row of the batch and step count of a decoding request follow its output, every slot has exactly
one holder, and `release_kv_cache` never finds slots beyond the committed ones. -/
theorem kv_bookkeeping {cfg : SchedulerConfig} {c : Counted}
    (h : Reachable (Counted.step cfg) (Counted.Starts cfg) Counted.Allowed c) :
    let s := c.scheduler
    (∀ e ∈ s.runningBatch, ¬ (s.heap e.req).finished →
      let r := s.heap e.req
      r.kv.kvCommittedLen = r.kv.kvAllocatedLen ∧
      r.kv.kvCommittedLen + 1 = r.originInputIds.length + r.outputIds.length ∧
      e.seqLen = r.kv.kvCommittedLen ∧
      r.outputIds.length + r.llm42TokensRolledBack = 1 + c.decodeSteps e.req) ∧
    (s.memory.allocator.held ++ (range s.nextId).flatMap s.committedSlots ++
      cfg.worker.reservedSlots).Perm (range' 1 s.memory.allocator.size) ∧
    ∀ event p q, s.step cfg event ≠ .error (.overallocated p q) := by
  have hinv : Counted.Invariant cfg c :=
    h.invariant (fun _ hs => hs.invariant) fun _ _ _ hi ha hs => hi.step ha hs
  have hc := hinv.booked.consistent
  refine ⟨fun e he hf => ?_, slots_perm hinv.booked, step_ne_overallocated hc⟩
  rcases hc.settled e he with hgone | ⟨_, hlive⟩
  · exact absurd hgone.finished hf
  · exact ⟨hlive.allocated.symm, hlive.committed, hlive.seqLen,
      hinv.running e.req (mem_map_of_mem he)⟩

/-- Two deterministic requests; the verifier rejects the first token of the first one's window. -/
def rejectedWindow : List SchedulerEvent :=
  let verdict : Verdict := { tokens := fun id j => if id = 0 then 9 else 6 + j }
  [.receive smallReq, .receive { smallReq with rid := "b" }, .extend [0, 1] (fun _ => 5) (fun _ => 0) [],
   .decode (fun _ => 6) (fun _ => 0) verdict [], .decode (fun _ => 7) (fun _ => 0) verdict []]

theorem kv_bookkeeping_rejectedWindow :
    ∃ c, runEvents (Counted.step ⟨{}, smallServer.1⟩) ⟨smallStart .chunkCache, fun _ => 0⟩
        rejectedWindow = .ok c ∧
      (c.scheduler.heap 0).outputIds = [5, 9] ∧ (c.scheduler.heap 1).outputIds = [5, 6, 7] ∧
      (c.scheduler.memory.allocator.held ++
        (range c.scheduler.nextId).flatMap c.scheduler.committedSlots ++
        smallServer.1.reservedSlots).Perm (range' 1 c.scheduler.memory.allocator.size) :=
  exists_runEvents_imp (p := fun _ => _ ∧ _) ⟨boots_smallStart rfl, rfl, fun _ => rfl⟩
    (by decide +kernel) fun _ hreach ⟨h0, h1⟩ => ⟨h0, h1, (kv_bookkeeping hreach).2.1⟩

end LLM42
