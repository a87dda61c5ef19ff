import LLM42.Scheduler.Booked

/-! # Reserved slots and rows

What the verification pool took at start-up is in nobody else's hands, whatever the prefix tree
shares and rollbacks free, until `flush_cache` hands everything out again. -/

namespace LLM42

open Library List

namespace Memory

/-- Reserved slots are not in circulation, and neither are reserved rows. -/
structure Avoids (slots rows : List ℕ) (m : Memory) : Prop where
  pooled : ∀ x ∈ m.pooled, x ∉ slots
  cells : ∀ row ∉ rows, ∀ j, m.rows.reqToToken row j ∉ slots
  free : ∀ row ∈ m.rows.freeSlots, row ∉ rows

namespace Avoids

variable {slots rows : List ℕ} {m m' : Memory} {row : ℕ} {r r' : Req}

section

variable (h : m.Avoids slots rows)

include h

theorem of_pooled (hrows : m'.rows = m.rows) (hpool : ∀ x ∈ m'.pooled, x ∈ m.pooled) :
    m'.Avoids slots rows :=
  ⟨fun x hx => h.pooled x (hpool x hx), hrows ▸ h.cells, hrows ▸ h.free⟩

theorem keeps (hk : m.Keeps m') : m'.Avoids slots rows :=
  h.of_pooled hk.rows fun _ hx => hk.pooled.mem_iff.mp hx

theorem allocated {n : ℕ} {locs : List ℕ} (ha : m.Allocated n locs m') :
    m'.Avoids slots rows ∧ ∀ x ∈ locs, x ∉ slots := by
  have hmem : ∀ x ∈ locs ++ m'.pooled, x ∉ slots := fun x hx =>
    h.pooled x (ha.pooled.mem_iff.mp hx)
  refine ⟨h.of_pooled ha.rows fun x hx => ?_, fun x hx => hmem x (mem_append_left _ hx)⟩
  exact ha.pooled.mem_iff.mp (mem_append_right _ hx)

theorem write (row start : ℕ) {values : List ℕ} (hvalues : ∀ x ∈ values, x ∉ slots) :
    Avoids slots rows { m with rows := m.rows.write row start values } := by
  refine ⟨h.pooled, fun i hi j => ?_, h.free⟩
  simp only [ReqToTokenPool.write]
  split
  next hj =>
    have hlt : j - start < values.length := by omega
    rw [getD_eq_getElem?_getD, getElem?_eq_getElem hlt, Option.getD_some]
    exact hvalues _ (getElem_mem hlt)
  · exact h.cells i hi j

theorem freed {xs : List ℕ} (hxs : ∀ x ∈ xs, x ∉ slots) : (m.free xs).Avoids slots rows := by
  refine ⟨fun x hx => ?_, h.cells, h.free⟩
  rcases mem_append.mp ((m.pooled_free xs).mem_iff.mp hx) with hx | hx
  · exact hxs x hx
  · exact h.pooled x hx

theorem released (hrow : row ∉ rows) (hr : m.Released r row r' m') : m'.Avoids slots rows := by
  refine ⟨fun x hx => ?_, ?_, ?_⟩
  · rcases hr.mem_pooled x hx with hx | ⟨j, _, rfl⟩
    · exact h.pooled x hx
    · exact h.cells row hrow j
  · rw [hr.rows]
    exact h.cells
  · rw [hr.rows]
    intro i hi
    rcases mem_append.mp hi with hi | hi
    · exact h.free i hi
    · rwa [mem_singleton.mp hi]

theorem cached (hrow : row ∉ rows) (hc : m.Cached r row r' m') : m'.Avoids slots rows := by
  have hpool : ∀ x ∈ m'.pooled, x ∉ slots := by
    intro x hx
    rcases hc.mem_pooled x hx with hx | ⟨j, _, rfl⟩
    · exact h.pooled x hx
    · exact h.cells row hrow j
  refine ⟨hpool, fun i hi j => ?_, hc.freeSlots ▸ h.free⟩
  by_cases hir : i = row
  · subst hir
    rcases hc.mem_row j with heq | hmem
    · rw [heq]
      exact h.cells i hi j
    · exact hpool _ hmem
  · rw [hc.other_rows i hir]
    exact h.cells i hi j

end

end Avoids

end Memory

open Scheduler

structure Reserved (slots rows : List ℕ) (n : ℕ) (grouped : Bool) (s : Scheduler) : Prop where
  memory : s.memory.Avoids slots rows
  rows : ∀ id < n, ∀ row, (s.kv id).reqPoolIdx = some row → row ∉ rows
  group : s.memory.allocator.isNotInFreeGroup = !grouped

variable {cfg : SchedulerConfig} {slots rows : List ℕ} {n : ℕ} {grouped : Bool}
  {s t : Scheduler} {id : ReqId} {ids : List ReqId} {r : Req}

namespace Reserved

theorem congr (h : Reserved slots rows n grouped s)
    (hkv : ∀ j < n, (t.kv j).reqPoolIdx = (s.kv j).reqPoolIdx) (hmem : t.memory = s.memory) :
    Reserved slots rows n grouped t :=
  ⟨hmem ▸ h.memory, fun j hj row hrow => h.rows j hj row (hkv j hj ▸ hrow), hmem ▸ h.group⟩

theorem freeGroupBegin (h : Reserved slots rows n false s) :
    Reserved slots rows n true s.freeGroupBegin := by
  refine ⟨h.memory.of_pooled rfl fun x hx => ?_, h.rows, rfl⟩
  have hheld := TokenToKVPoolAllocator.held_freeGroupBegin (a := s.memory.allocator) h.group
  simpa only [Memory.pooled, Scheduler.freeGroupBegin, setMemory, hheld] using hx

theorem freeGroupEnd (h : Reserved slots rows n true s) :
    Reserved slots rows n false s.freeGroupEnd := by
  refine ⟨h.memory.of_pooled rfl fun x hx => ?_, h.rows,
    by simp [Scheduler.freeGroupEnd, setMemory]⟩
  have hheld := TokenToKVPoolAllocator.held_freeGroupEnd (a := s.memory.allocator) h.group
  exact (hheld.append_right s.memory.tree.slots).mem_iff.mp hx

section

variable (h : Reserved slots rows n grouped s)

include h

theorem rows_of_other (hother : ∀ j < n, j ≠ id → t.kv j = s.kv j)
    (hself : ∀ row, (t.kv id).reqPoolIdx = some row → row ∉ rows) :
    ∀ j < n, ∀ row, (t.kv j).reqPoolIdx = some row → row ∉ rows := by
  intro j hj row hrow
  by_cases hji : j = id
  · exact hself row (hji ▸ hrow)
  · rw [hother j hj hji] at hrow
    exact h.rows j hj row hrow

theorem effect (hid : id < n) (hr : r.kv = s.kv id)
    (heff : MemoryEffect s.memory r t.memory (t.kv id))
    (hother : ∀ j < n, j ≠ id → t.kv j = s.kv j) : Reserved slots rows n grouped t := by
  generalize hk : t.kv id = k at heff
  generalize hm : t.memory = m at heff
  cases heff with
  | same =>
    refine ⟨hm ▸ h.memory, h.rows_of_other hother fun row hrow => ?_, hm ▸ h.group⟩
    rw [hk, hr] at hrow
    exact h.rows id hid row hrow
  | released hrel =>
    have hrow := h.rows id hid _ (hr ▸ hrel.row_eq)
    refine ⟨hm ▸ h.memory.released hrow hrel, h.rows_of_other hother fun row hrow => ?_, ?_⟩
    · rw [hk] at hrow
      cases hrow
    · rw [hm, hrel.group, h.group]

theorem rollback {x : ReqId × ℕ} (hid : x.1 < n) (hstep : rollback s x = .ok t) :
    Reserved slots rows n grouped t := by
  obtain ⟨hframe, hheap, row, hrow, hmem⟩ := rollback_ok hstep
  have hclear := h.rows x.1 hid row hrow
  refine ⟨?_, h.rows_of_other (fun j _ hj => ((hframe False).other j hj).fields.1) ?_, ?_⟩
  · rw [hmem]
    refine h.memory.freed fun y hy => ?_
    obtain ⟨j, _, _, rfl⟩ := s.memory.rows.mem_slice.mp (mem_filter.mp hy).1
    exact h.memory.cells row hclear j
  · intro row' hrow'
    refine h.rows x.1 hid row' ?_
    rw [kv, hheap] at hrow'
    exact hrow'
  · rw [hmem]
    simpa [Memory.free] using h.group

end

open LLM42Worker in
theorem passed {w : LLM42Worker} {v : Verdict} {vs : VerifyState Unit}
    {results : List (ReqId × ℕ)} (h : Reserved slots rows n grouped s)
    (hpass : Passed w v ids s.toVerifyState vs results) :
    Reserved slots rows n grouped (s.ofVerifyState vs) := by
  refine ⟨h.memory.of_pooled rfl fun x hx => ?_, fun j hj row hrow => ?_, hpass.group.trans h.group⟩
  · exact (hpass.held.append_right s.memory.tree.slots).mem_iff.mp hx
  · refine h.rows j hj row ?_
    by_cases hmem : j ∈ ids
    · obtain ⟨net, hout, _⟩ := hpass.outcome j hmem
      exact (congrArg KvFields.reqPoolIdx hout.outcome.kv_eq).symm.trans hrow
    · have hsame : (vs.heap j).kv = (s.heap j).kv := congrArg Req.kv (hpass.other j hmem).1
      exact (congrArg KvFields.reqPoolIdx hsame).symm.trans hrow

theorem prefillEffect {token : Token} (h : Reserved slots rows n grouped s) (hid : id < n)
    (hr : r.kv = s.kv id) (heff : PrefillEffect s.memory r token t.memory (t.heap id))
    (hother : ∀ j < n, j ≠ id → t.kv j = s.kv j) : Reserved slots rows n grouped t := by
  generalize hrt : t.heap id = rt at heff
  generalize hm : t.memory = m at heff
  cases heff with
  | finished _ hrel =>
    refine h.effect hid hr ?_ hother
    rw [hm, kv, hrt, Req.acceptToken_kv]
    exact .released hrel
  | @cached row r' _ _ hrow hc =>
    have hclear := h.rows id hid row (hr ▸ hrow)
    refine ⟨hm ▸ h.memory.cached hclear hc, h.rows_of_other hother fun row' hrow' => ?_, ?_⟩
    · obtain ⟨start, indices, node, heq⟩ := hc.req_eq
      rw [kv, hrt, Req.acceptToken_kv, heq] at hrow'
      exact h.rows id hid row' (hr ▸ hrow')
    · rw [hm, hc.group, h.group]

end Reserved

theorem avoids_extendRows {es : ScheduleBatch} {locs : List ℕ} (hlocs : ∀ x ∈ locs, x ∉ slots)
    (h : s.memory.Avoids slots rows) : (extendRows es locs s).memory.Avoids slots rows := by
  induction es generalizing locs s with
  | nil => exact h
  | cons e es ih =>
    cases locs with
    | nil => exact h
    | cons loc locs =>
      refine ih (s := s.extendRow e loc) (fun x hx => hlocs x (mem_cons_of_mem _ hx)) ?_
      exact h.write e.reqPoolIdx e.seqLen fun x hx => hlocs x (by simp_all)

theorem matchLoop_slots (hnd : ids.Nodup) (s : Scheduler) :
    (ids.foldl initNextRoundInput s).memory.tree.slots = s.memory.tree.slots ∧
      (ids.foldl initNextRoundInput s).memory.allocator = s.memory.allocator ∧
      ∀ id ∈ ids, ∀ x ∈ ((ids.foldl initNextRoundInput s).kv id).prefixIndices,
        x ∈ s.memory.tree.slots := by
  induction ids generalizing s with
  | nil => simp
  | cons id ids ih =>
    obtain ⟨hid, hnd'⟩ := nodup_cons.mp hnd
    obtain ⟨h1, h2, h3⟩ := ih hnd' (s.initNextRoundInput id)
    have hslots : (s.initNextRoundInput id).memory.tree.slots = s.memory.tree.slots := by
      simp [initNextRoundInput, setReq, setMemory]
    rw [foldl_cons]
    refine ⟨h1.trans hslots, h2, fun j hj x hx => ?_⟩
    rcases mem_cons.mp hj with rfl | hj
    · have hsame := (matchLoop_spec hnd' (s.initNextRoundInput j)).2.1 j hid
      rw [kv, hsame] at hx
      simp only [initNextRoundInput, setReq, setMemory, Function.update_self] at hx
      exact s.memory.tree.mem_slots_of_mem_matchPrefix _ _ hx
    · exact hslots ▸ h3 j hj x hx

theorem avoids_assignRows {newRows locs : List ℕ} (hnd : ids.Nodup) (hlocs : ∀ x ∈ locs, x ∉ slots)
    (hids : ∀ id ∈ ids, ∀ x ∈ (s.kv id).prefixIndices, x ∉ slots)
    (h : s.memory.Avoids slots rows) :
    (assignRows (ids.zip newRows) locs s).memory.Avoids slots rows := by
  induction ids generalizing newRows locs s with
  | nil => exact h
  | cons id ids ih =>
    cases newRows with
    | nil => exact h
    | cons row newRows =>
      obtain ⟨hid, hnd⟩ := nodup_cons.mp hnd
      rw [zip_cons_cons, assignRows]
      refine ih hnd (fun x hx => hlocs x (mem_of_mem_drop hx)) ?_ ?_
      · intro j hj
        have hne : j ≠ id := fun heq => hid (heq ▸ hj)
        have hsame : ∀ ls, (s.assignRow id row ls).kv j = s.kv j := by
          intro ls
          simp [assignRow, setReq, setMemory, kv, hne]
        rw [hsame]
        exact hids j (by simp [hj])
      · exact (h.write row 0 (hids id (by simp))).write row _
          fun x hx => hlocs x (mem_of_mem_take hx)

section Steps

variable {tokens : ReqId → Token} {logitsOf : ReqId → LogitsRow} {verdict : Verdict}
  {victims : List NodeRef} (hc : Consistent cfg s) (h : Reserved slots rows s.nextId false s)

include h

theorem Scheduler.AssignPhases.reserved_assigned (P : AssignPhases s ids) :
    Reserved slots rows s.nextId false P.assigned := by
  obtain ⟨hslots, halloc, hindices⟩ := matchLoop_slots P.nodup
    { s with waitingQueue := s.waitingQueue.filter fun id => decide (id ∉ ids) }
  have hrowsEq := (matchLoop_spec P.nodup
    { s with waitingQueue := s.waitingQueue.filter fun id => decide (id ∉ ids) }).2.2.2.2.2
  rw [← P.matched_eq] at hslots halloc hindices hrowsEq
  have htaken : P.rowsTaken.Avoids slots rows := by
    rw [P.rowsTaken_eq]
    refine ⟨fun x hx => h.memory.pooled x ?_, ?_, fun row hrow => h.memory.free row ?_⟩
    · simpa only [Memory.pooled, hslots, halloc] using hx
    · rw [hrowsEq]
      exact h.memory.cells
    · rw [hrowsEq] at hrow
      exact mem_of_mem_drop hrow
  obtain ⟨hmem, hlocs⟩ := htaken.allocated P.allocated
  obtain ⟨hother, _, _, _⟩ := P.assigned_frame
  obtain ⟨_, _, _, hallocator, _⟩ := assignRows_frame (ids.zip P.rows) P.locs
    (P.matched.setMemory P.memory)
  refine ⟨?_, fun j hj row hrow => ?_, ?_⟩
  · rw [P.assigned_eq]
    refine avoids_assignRows P.nodup hlocs (fun j hj x hx => ?_) hmem
    exact h.memory.pooled x (mem_append_right _ (hindices j hj x hx))
  · by_cases hids : j ∈ ids
    · -- a new row comes from the free list
      obtain ⟨i, hi⟩ := P.mem_zip hids
      obtain ⟨indices, node, _, heq⟩ := P.assigned_heap hi
      rw [kv, heq] at hrow
      obtain rfl : i = row := Option.some.inj hrow
      refine h.memory.free i ?_
      have hfree := (of_mem_zip hi).2
      rw [P.rows_eq, hrowsEq] at hfree
      exact mem_of_mem_take hfree
    · rw [kv, hother j hids] at hrow
      exact h.rows j hj row hrow
  · rw [P.assigned_eq, hallocator]
    change P.memory.allocator.isNotInFreeGroup = _
    rw [P.allocated.group, P.rowsTaken_eq]
    rw [halloc]
    exact h.group

theorem Reserved.receive (r : Req) :
    Reserved slots rows (s.receive r).nextId false (s.receive r) := by
  unfold Scheduler.receive
  split
  next hnew =>
    refine ⟨h.memory, fun j hj row hrow => ?_, h.group⟩
    by_cases hlast : j = s.nextId
    · simp [Scheduler.kv, hlast, (Req.initial_of_isNew hnew).kv] at hrow
    · refine h.rows j (Nat.lt_of_le_of_ne (Nat.le_of_lt_succ hj) hlast) row ?_
      simpa [Scheduler.kv, hlast] using hrow
  · exact h

include hc

theorem Scheduler.ResultPhases.reserved_prepared (P : ResultPhases cfg s tokens logitsOf) :
    Reserved slots rows s.nextId false P.prepared := by
  obtain ⟨hmem, hlocs⟩ := h.memory.allocated P.allocated
  obtain ⟨_, _, halloc, _⟩ := P.prepared_frame
  refine ⟨?_, fun j hj row hrow => h.rows j hj row ?_, ?_⟩
  · rw [P.prepared_eq]
    exact avoids_extendRows (s := s.filterBatch.setMemory P.memory) hlocs hmem
  · by_cases hrun : j ∈ s.filterBatch.running
    · obtain ⟨e, he, rfl⟩ := mem_running.mp hrun
      rw [kv, P.prepared_heap hc he] at hrow
      exact hrow
    · rwa [kv, P.prepared_other hc hrun] at hrow
  · rw [halloc, P.allocated.group]
    exact h.group

theorem Scheduler.ResultPhases.reserved_accepted (P : ResultPhases cfg s tokens logitsOf) :
    Reserved slots rows s.nextId true P.accepted := by
  refine P.accepted_invariant hc (P.reserved_prepared hc h).freeGroupBegin ?_
  intro e he u v hmem _ _ hu hstep
  have hlt := hc.lt _ (mem_append_left _ (mem_running_of_filterBatch he))
  obtain ⟨hframe, _, heff⟩ := decodeResult_ok hmem hstep
  refine hu.effect hlt ?_ heff fun k _ hk => (hframe.other k hk).fields.1
  simp

theorem Scheduler.DecodePhases.reserved_rechecked (P : DecodePhases cfg s tokens logitsOf verdict t) :
    Reserved slots rows s.nextId true P.rechecked := by
  have hres := P.reserved_accepted hc h
  refine P.rechecked_invariant hc hres (fun _ _ hpass => hres.passed hpass) ?_ ?_
  · intro e he _ _ u net w _ hu hstep
    exact hu.rollback (P.lt_of_mem_accepted hc he) hstep
  · intro e he _ e' u w _ _ hu hstep
    obtain ⟨hframe, _, heff⟩ := recheck_ok hstep
    exact hu.effect (P.lt_of_mem_accepted hc he) (r := (u.heap e.req).checkFinished) (by simp)
      heff fun k _ hk => ((hframe False).other k hk).fields.1

theorem Reserved.decode (hd : s.decode cfg tokens logitsOf verdict victims = .ok t) :
    Reserved slots rows t.nextId false t := by
  rcases decode_ok hd with ⟨_, rfl⟩ | ⟨⟨P⟩⟩
  · exact h.congr (fun _ _ => rfl) rfl
  · obtain ⟨hcore, _, _, _, hmem⟩ := streamOutput_spec cfg.args P.rechecked P.rechecked.running
    have hstream : Reserved slots rows s.nextId true
        (P.rechecked.streamOutput cfg.args P.rechecked.running) :=
      (P.reserved_rechecked hc h).congr (fun j _ => row_congr (hcore j)) hmem
    rw [(P.requests hc).2.2.1]
    have hend := hstream.freeGroupEnd
    rwa [← P.final_eq] at hend

theorem Reserved.extend (he : s.extend cfg ids tokens logitsOf victims = .ok t) :
    Reserved slots rows t.nextId false t := by
  rcases extend_ok he with rfl | ⟨⟨P⟩⟩
  · exact h
  · have hunf : ∀ id ∈ ids, ¬ (s.heap id).finished := fun id hid =>
      (hc.queued id (P.mem_queue id hid)).unfinished
    have hres : Reserved slots rows s.nextId false P.accepted := by
      refine foldlM_heap_invariant (p := True) id _ (by simpa using P.nodup) ?_ P.accepted_eq
        (P.reserved_assigned h)
      intro u j v hj hpre _ hu hstep
      obtain ⟨row, indices, node, _, _, hfin, hret⟩ := P.found hj (hunf j hj) hpre
      obtain ⟨hframe, heff⟩ := prefillResult_ok hj hfin hret hstep
      have hlt := hc.lt j (mem_append_right _ (P.mem_queue j hj))
      exact ⟨hframe.imp fun _ => trivial, hu.prefillEffect hlt (Req.prefillToken_kv _ _ _ _) heff
        fun k _ hk => (hframe.other k hk).fields.1⟩
    obtain ⟨hcore, _, _, _, hmem⟩ := streamOutput_spec cfg.args P.accepted ids
    rw [(P.requests hunf).2.2.2.1]
    refine hres.congr (fun j _ => ?_) ?_
    · have hkv := congrArg (fun u : Scheduler => (u.kv j).reqPoolIdx) P.final_eq
      exact hkv.trans (row_congr (hcore j))
    · have hmemory := congrArg (·.memory) P.final_eq
      exact hmemory.trans hmem

theorem Reserved.retract {victims : ReqId → List NodeRef} (hr : s.retract ids victims = .ok t) :
    Reserved slots rows t.nextId false t := by
  rcases retract_ok hr with ⟨-, rfl⟩ | ⟨⟨hnd, hmem, -⟩, u, hu, _, _, _, hnext, _, rfl⟩
  · exact h.congr (fun _ _ => rfl) rfl
  · have hres : Reserved slots rows s.nextId false u := by
      refine foldlM_heap_invariant (p := False) id _ (by simpa using hnd) ?_ hu
        (h.congr (t := s.filterBatch) (fun _ _ => rfl) rfl)
      intro v j w hj _ _ hv hstep
      obtain ⟨hframe, hself, row, r', m, hrel, hkeep⟩ := releaseReq_ok hstep
      have hlt := hc.lt j (mem_append_left _ (s.filterBatch_sublist.subset (hmem j hj)))
      refine ⟨hframe _, (hv.memory.released (hv.rows j hlt row hrel.row_eq) hrel).keeps hkeep,
        hv.rows_of_other (fun k _ hk => ((hframe False).other k hk).fields.1) ?_, ?_⟩
      · intro row' hrow'
        rw [kv, hself] at hrow'
        cases hrow'
      · rw [hkeep.group, hrel.group]
        exact hv.group
    rw [show nextId _ = s.nextId from hnext]
    exact hres.congr (fun _ _ => rfl) rfl

end Steps

/-- A `flush_cache` that is refused, or any other event. -/
def SchedulerEvent.KeepsCache (s : Scheduler) : SchedulerEvent → Prop
  | .flushCache => s.runningBatch ≠ []
  | _ => True

instance (s : Scheduler) (event : SchedulerEvent) : Decidable (event.KeepsCache s) := by
  unfold SchedulerEvent.KeepsCache
  split <;> infer_instance

/-- No event touches the reserved slots and rows. -/
theorem Reserved.step (hc : Consistent cfg s) (h : Reserved slots rows s.nextId false s)
    {event : SchedulerEvent} (hkeep : event.KeepsCache s) (hs : s.step cfg event = .ok t) :
    Reserved slots rows t.nextId false t := by
  cases event with
  | receive r =>
    cases hs
    exact h.receive r
  | extend ids tokens logitsOf victims => exact h.extend hc hs
  | decode tokens logitsOf verdict victims => exact h.decode hc hs
  | retract ids victims => exact h.retract hc hs
  | abort rid abortAll =>
    cases hs
    exact h.congr (fun j _ => row_congr (s.abortRequest_aborted [] rid abortAll j).core_eq) rfl
  | runningTimeout overdue =>
    cases hs
    exact h.congr (fun j _ => row_congr (s.abortOnRunningTimeout_aborted overdue j).core_eq) rfl
  | flushCache =>
    cases hs
    have hne : s.runningBatch ≠ [] := hkeep
    rw [flushCache, if_neg (by simpa using hne)]
    exact h

theorem Scheduler.Boots.reserved (h : Boots cfg s) :
    Reserved cfg.worker.reservedSlots cfg.worker.reservedRows s.nextId false s := by
  have hbooks : Books cfg.worker.reservedSlots cfg.worker.reservedRows s.nextId false False s :=
    h.books False.elim
  have hledger := hbooks.ledger
  rw [h.nextId] at hledger ⊢
  refine ⟨⟨fun x hx hmem => ?_, fun row hrow j hmem => ?_, fun row hfree hmem => ?_⟩,
    fun j hj => absurd hj (Nat.not_lt_zero j), hbooks.group⟩
  · have hnodup := hledger.slots.nodup_iff.mpr nodup_range'
    exact (nodup_append.mp hnodup).2.2 x (mem_append_left _ hx) x hmem rfl
  · -- slot 0 pads the page table and is never handed out
    have hpos : 0 < s.memory.rows.reqToToken row j := by
      have hrange := hledger.slots.mem_iff.mp (mem_append_right _ hmem)
      rw [mem_range'_1] at hrange
      omega
    obtain ⟨size, needSort, numRows, hpools⟩ := h.pools
    cases hp : cfg.worker.fixedPool with
    | none => simp [LLM42Worker.reservedSlots, hp] at hmem
    | some pool =>
      rw [hp] at hpools
      have hrow' : row ∉ pool.dummyReqPoolIndices := by
        simpa [LLM42Worker.reservedRows, hp] using hrow
      have hzero := congrFun (FixedSizeVerificationPool.create_reqToToken hpools hrow') j
      rw [hzero] at hpos
      exact absurd hpos (lt_irrefl 0)
  · exact (nodup_append.mp hledger.rows).2.2 row (mem_append_left _ hfree) row hmem rfl

/-- Consistent queues, and reserves that nobody else holds. -/
structure KeepsReserve (cfg : SchedulerConfig) (s : Scheduler) : Prop where
  consistent : Consistent cfg s
  reserved : Reserved cfg.worker.reservedSlots cfg.worker.reservedRows s.nextId false s

/-- As long as no `flush_cache` goes through, a reserved slot is neither free nor in the prefix tree
nor in a request's row, and a reserved row is neither free nor assigned. -/
theorem reserved_stay_reserved
    (h : Reachable (step cfg) (Boots cfg) (fun s e => e.KeepsCache s) s) :
    (∀ x ∈ cfg.worker.reservedSlots, x ∉ s.memory.allocator.held ∧ x ∉ s.memory.tree.slots ∧
      ∀ id < s.nextId, ∀ row, (s.heap id).kv.reqPoolIdx = some row →
        ∀ pos, s.memory.rows.reqToToken row pos ≠ x) ∧
    ∀ row ∈ cfg.worker.reservedRows, row ∉ s.memory.rows.freeSlots ∧
      ∀ id < s.nextId, (s.heap id).kv.reqPoolIdx ≠ some row := by
  have hinv : KeepsReserve cfg s :=
    h.invariant (fun _ hs => ⟨hs.consistent, hs.reserved⟩) fun _ _ _ hi hkeep hstep =>
      ⟨hi.consistent.step hstep, hi.reserved.step hi.consistent hkeep hstep⟩
  have hres := hinv.reserved
  refine ⟨fun x hx => ⟨?_, ?_, ?_⟩, fun row hrow => ⟨?_, ?_⟩⟩
  · exact fun hmem => hres.memory.pooled x (mem_append_left _ hmem) hx
  · exact fun hmem => hres.memory.pooled x (mem_append_right _ hmem) hx
  · intro id hid row hrow pos heq
    exact hres.memory.cells row (hres.rows id hid row hrow) pos (heq ▸ hx)
  · exact fun hmem => hres.memory.free row hmem hrow
  · exact fun id hid hassigned => hres.rows id hid row hassigned hrow

/-- A request that decodes while a `flush_cache` is refused. -/
def refusedFlush : List SchedulerEvent :=
  [.receive smallReq, .extend [0] (fun _ => 5) (fun _ => 0) [], .flushCache,
   .decode (fun _ => 6) (fun _ => 0) ⟨fun _ _ => 6, none⟩ []]

theorem reserved_stay_reserved_refusedFlush : ∃ s, runEvents (step ⟨{}, smallServer.1⟩)
        (smallStart (.radixCache .nil false)) refusedFlush = .ok s ∧
      s.memory.tree.slots ≠ [] ∧
      ∀ x ∈ smallServer.1.reservedSlots, x ∉ s.memory.allocator.held ∧ x ∉ s.memory.tree.slots :=
  exists_runEvents_imp (boots_smallStart rfl) (by decide +kernel) fun _ hreach hslots =>
    have hkept := reserved_stay_reserved hreach
    ⟨hslots, fun x hx => ⟨(hkept.1 x hx).1, (hkept.1 x hx).2.1⟩⟩

def idleFlush : List SchedulerEvent :=
  [.flushCache, .receive smallReq, .extend [0] (fun _ => 5) (fun _ => 0) []]

/-- The flush puts every reserved slot and row back into circulation, and the request is given
slots and a row of the verification pool. -/
theorem flushCache_frees_reserved :
    smallServer.1.reservedSlots = [1, 2, 3, 4, 5, 6] ∧ smallServer.1.reservedRows = [0, 1] ∧
    ∃ s, runEvents (step ⟨{}, smallServer.1⟩)
        (smallStart (.radixCache .nil false)) idleFlush = .ok s ∧
      (s.heap 0).kv.reqPoolIdx = some 0 ∧ s.memory.rows.slice 0 0 2 = [1, 2] ∧
      3 ∈ s.memory.allocator.held ∧ 1 ∈ s.memory.rows.freeSlots :=
  ⟨by decide +kernel, by decide +kernel, exists_runEvents _ _ _ (by decide +kernel)⟩

end LLM42
