import LLM42.Scheduler.Booked

/-! # Rollbacks and the prefix tree

A rollback frees slots behind the corrected token. They are the request's own, and not the tree's, as
long as no request is prefilled again with unverified output: the prefill shares all it computed. -/

namespace LLM42

open Scheduler Library List

variable {cfg : SchedulerConfig} {s : Scheduler}

/-- Events that put nothing unverified into the tree; `flush_cache` is not one of them. -/
def SchedulerEvent.SharesVerified (cfg : SchedulerConfig) (s : Scheduler) (event : SchedulerEvent) :
    Prop :=
  event.PrefillsVerified cfg s ∧ !(event matches .flushCache)

instance (event : SchedulerEvent) : Decidable (event.SharesVerified cfg s) := by
  delta SchedulerEvent.SharesVerified SchedulerEvent.PrefillsVerified
  induction event using SchedulerEvent.casesOn <;> infer_instance

theorem Scheduler.ResultPhases.protected_le {tokens : ReqId → Token} {logitsOf : ReqId → LogitsRow}
    {verdict : Verdict} {passed : Scheduler} {results : List (ReqId × ℕ)}
    (P : ResultPhases cfg s tokens logitsOf) (hc : Consistent cfg s) (hs : Sharing cfg s)
    (henable : cfg.args.enableLlm42 = true)
    (hver : P.accepted.verifyRequests cfg verdict = .ok (passed, results)) :
    ∀ x ∈ results, (passed.heap x.1).kv.cacheProtectedLen ≤
      (passed.heap x.1).originInputIds.length + ((passed.heap x.1).outputIds.length - 1) := by
  intro x hx
  have hnd : P.accepted.running.Nodup := P.accepted_running hc ▸ nodup_filterBatch hc
  obtain ⟨v, rfl, hpass⟩ := verifyRequests_ok hnd henable (P.accepted_entries hc) hver
  have hplan := hpass.mem_ids (mem_map_of_mem hx)
  obtain ⟨hmem, hcand⟩ := LLM42Worker.candidate_of_mem_plannedIds hplan
  obtain ⟨e, he, hreq⟩ := mem_map.mp hmem
  obtain ⟨net, hout, _⟩ := hpass.outcome x.1 hplan
  obtain ⟨hanch, hguard⟩ := P.accepted_anchored hc hs e he
  rw [hreq] at hanch hguard
  have hle := (hanch.verified (hguard henable) (isDeterministic_of_isCandidate hcand) hout.outcome).le
  rwa [length_append, length_dropLast] at hle

theorem Books.held_disjoint_tree {slotsAside rowsAside : List ℕ} {n : ℕ} {grouped : Bool}
    {chunk : Prop} (h : Books slotsAside rowsAside n grouped chunk s) {x : ℕ}
    (hheld : x ∈ s.memory.allocator.held) : x ∉ s.memory.tree.slots := by
  have hnd := h.ledger.slots.symm.nodup (nodup_range' 1 Nat.one_pos)
  have hpool := (nodup_append.mp (nodup_append.mp hnd).1).1
  exact fun htree => (nodup_append.mp hpool).2.2 x hheld x htree rfl

/-- As long as nothing unverified is prefilled again: whatever a decode step rolls back is behind the
shared prefix of its request, and no slot is both free and in the tree. -/
theorem rollback_spares_tree (henable : cfg.args.enableLlm42 = true)
    (h : Reachable (step cfg) (Boots cfg) (fun s e => e.SharesVerified cfg s) s) :
    (∀ tokens logitsOf victims verdict a passed results,
      s.resultLoop cfg tokens logitsOf victims = .ok a →
      a.verifyRequests cfg verdict = .ok (passed, results) → ∀ x ∈ results,
        let r := passed.heap x.1
        r.kv.cacheProtectedLen ≤ r.originInputIds.length + (r.outputIds.length - 1)) ∧
    ∀ x ∈ s.memory.allocator.held, x ∉ s.memory.tree.slots := by
  have hinv : Booked cfg False s :=
    h.invariant (fun _ hb => hb.booked False.elim) fun _ e _ hi hsafe hstep =>
      hi.step (by rintro rfl; cases hsafe.2) (.inr hsafe.1) hstep
  refine ⟨?_, fun x hx => hinv.books.held_disjoint_tree hx⟩
  intro tokens logitsOf victims verdict a passed results ha hver
  obtain ⟨P, rfl⟩ := resultLoop_ok ha
  exact P.protected_le hinv.consistent hinv.sharing henable hver

/-- Windows of six tokens, two requests to a pass, 23 slots beside the reserved ones. -/
def sixTokenServer : LLM42Worker × ReqToTokenPool × TokenToKVPoolAllocator :=
  LLM42Worker.init true 2 100 .whole 6 (.create 4) (.create 45 false) Nat.two_pos (by decide)

def sixTokenStart : Scheduler :=
  idle ⟨sixTokenServer.2.2, sixTokenServer.2.1, .radixCache .nil false⟩

theorem boots_sixTokenStart : Boots ⟨{}, sixTokenServer.1⟩ sixTokenStart :=
  boots_idle {} true 2 100 .whole 6 45 4 false (.radixCache .nil false) (by decide) (by decide) rfl
    (by decide +kernel)

def plainRequest : Req :=
  { rid := "a", originInputIds := (range 13).map Int.ofNat, vocabSize := 1000,
    eosTokenIds := [2], samplingParams := { maxNewTokens := 8 } }

/-- A deterministic request whose prompt continues that of the plain one. -/
def longerRequest : Req :=
  { rid := "b", originInputIds := (range 14).map Int.ofNat, vocabSize := 1000,
    samplingParams := { maxNewTokens := 8, isDeterministic := true } }

def decodeSix : SchedulerEvent := .decode (fun _ => 6) (fun _ => 0) ⟨fun _ _ => 9, none⟩ []

/-- Six decode steps fill the window, and the verifier rejects it from its first token on. -/
def rejectSixTokens : List SchedulerEvent :=
  [.receive longerRequest, .extend [0] (fun _ => 5) (fun _ => 0) []] ++ replicate 6 decodeSix

theorem rollback_spares_tree_rejectSixTokens :
    ∃ s, runEvents (step ⟨{}, sixTokenServer.1⟩) sixTokenStart
        rejectSixTokens = .ok s ∧ (s.heap 0).outputIds = [5, 9] ∧ s.memory.tree.slots ≠ [] ∧
      ∀ x ∈ s.memory.allocator.held, x ∉ s.memory.tree.slots :=
  exists_runEvents_imp (p := fun _ => _ ∧ _) boots_sixTokenStart (by decide +kernel)
    fun _ hreach ⟨hids, hslots⟩ => ⟨hids, hslots, (rollback_spares_tree rfl hreach).2⟩

/-- Four decode steps leave one slot for two requests: the deterministic one is retracted with four
unverified tokens, and prefilled again once the other one has finished. -/
def shareUnverified : List SchedulerEvent :=
  [.receive plainRequest, .receive longerRequest, .extend [0] (fun _ => 5) (fun _ => 0) [],
   .extend [1] (fun _ => 5) (fun _ => 0) []] ++ replicate 4 decodeSix ++
  [.retract [1] (fun _ => [⟨none, longerRequest.originInputIds⟩]),
   .decode (fun _ => 2) (fun _ => 0) ⟨fun _ _ => 9, none⟩ [],
   .extend [1] (fun _ => 7) (fun _ => 0) [⟨none, plainRequest.originInputIds ++ [5, 6, 6, 6, 6]⟩],
   .decode (fun _ => 8) (fun _ => 0) ⟨fun _ _ => 9, none⟩ []]

/-- The re-prefill shares the 19 tokens it computed; the verifier then rejects all unverified ones,
and four of the five slots that are freed belong to the tree. -/
theorem rollback_frees_tree : ∃ s, runEvents (step ⟨{}, sixTokenServer.1⟩) sixTokenStart
        shareUnverified = .ok s ∧ (s.heap 1).outputIds = [5, 9] ∧
      (s.heap 1).kv.cacheProtectedLen = 19 ∧ s.memory.rows.slice 3 15 20 = [42, 44, 36, 37, 39] ∧
      (∀ x ∈ [42, 44, 36, 37], x ∈ s.memory.allocator.held ∧ x ∈ s.memory.tree.slots) :=
  exists_runEvents _ _ _ (by decide +kernel)

end LLM42
