import LLM42.Serving.State

/-! # Which request changes when

What a batch operation does to the heap, and the fields that the queues tell: who has a row, whose
KV is not yet released, and that the two length counters of a live request agree page-wise. -/

namespace LLM42

open List

variable {η β : Type*} {cfg : RadixConfig η β}

namespace PagedMemory

variable {m m' : PagedMemory η β} {pick : List (List Page) → ℕ}

@[simp] theorem rows_evict (n : ℕ) : (m.evict cfg pick n).rows = m.rows := by
  unfold evict
  split <;> rfl

@[simp] theorem rows_evictFromTreeCache (n : ℕ) :
    (m.evictFromTreeCache cfg pick n).rows = m.rows := by
  unfold evictFromTreeCache
  split
  · rfl
  · split <;> simp

@[simp] theorem allocator_free (slots : List ℕ) :
    (m.free slots).allocator = m.allocator.free slots := rfl

theorem evictFromTreeCache_preserves {P : KVAllocator → Prop}
    (hP : ∀ a slots, P a → P (KVAllocator.free a slots)) (h : P m.allocator) (n : ℕ) :
    P (m.evict cfg pick n).allocator ∧ P (m.evictFromTreeCache cfg pick n).allocator := by
  have hev : P (m.evict cfg pick n).allocator := by
    unfold evict
    split
    · exact foldlRecOn _ _ h fun a ha x _ => hP a _ ha
    · exact h
  refine ⟨hev, ?_⟩
  unfold evictFromTreeCache
  split
  · exact h
  · split
    · exact hev
    · exact h

theorem assignRows_spec {f : ℕ → Option ℕ} {g : ℕ → ℕ} {ids select : List ℕ}
    (h : ids.map g = assignRows (ids.map f) select) :
    (∀ id ∈ ids, ∀ i, f id = some i → g id = i) ∧
      (ids.filter (f · = none)).map g = select.take (ids.countP (f · = none)) := by
  induction ids generalizing select with
  | nil => simp
  | cons id ids ih =>
    cases hf : f id with
    | some i =>
      simp only [map_cons, hf, assignRows, cons.injEq] at h
      obtain ⟨h1, h2⟩ := ih h.2
      refine ⟨?_, ?_⟩
      · intro x hx j hj
        rcases mem_cons.mp hx with rfl | hx
        · rw [hf] at hj
          cases hj
          exact h.1
        · exact h1 x hx j hj
      · simpa [hf] using h2
    | none =>
      cases select with
      | nil => simp [hf, assignRows] at h
      | cons i select =>
        simp only [map_cons, hf, assignRows, cons.injEq] at h
        obtain ⟨h1, h2⟩ := ih h.2
        refine ⟨?_, ?_⟩
        · intro x hx j hj
          rcases mem_cons.mp hx with rfl | hx
          · rw [hf] at hj
            cases hj
          · exact h1 x hx j hj
        · simp [hf, h.1, h2]

theorem length_assignRows {reqs : List (Option ℕ)} {select : List ℕ}
    (h : reqs.countP (· = none) ≤ select.length) :
    (assignRows reqs select).length = reqs.length := by
  induction reqs generalizing select with
  | nil => rfl
  | cons r reqs ih =>
    cases r with
    | some i =>
      rw [assignRows, length_cons, ih (by simpa using h), length_cons]
    | none =>
      cases select with
      | nil => simp at h
      | cons i select =>
        rw [assignRows, length_cons, ih (by simpa using h), length_cons]

end PagedMemory

theorem exists_map_eq {α : Type*} [Inhabited α] {ids : List ℕ} {l : List α} (hnd : ids.Nodup)
    (hlen : l.length = ids.length) : ∃ f : ℕ → α, l = ids.map f := by
  refine ⟨fun id => l.getD (ids.idxOf id) default, ?_⟩
  apply ext_getElem
  · simpa using hlen
  · intro i h1 h2
    simp [Nodup.idxOf_getElem hnd, h1]

namespace PagedMemory

variable {m m' : PagedMemory η β}
  {pick : List (List Page) → ℕ} {heap : ℕ → MemReq} {ids : List ℕ} {rs : List MemReq}

theorem afterExtend_ok {idx : ℕ} {r r' : MemReq} (h : afterExtend idx r = .ok r') :
    r' = r.extended idx := by
  unfold afterExtend at h
  dsimp only at h
  split at h
  · cases h
  split at h
  · cases h
  · cases h
    rfl

theorem afterExtendAll_ok {row : ℕ → ℕ} (h : afterExtendAll (ids.map row) (ids.map heap) = .ok rs) :
    rs = ids.map fun id => (heap id).extended (row id) := by
  induction ids generalizing rs with
  | nil =>
    cases h
    rfl
  | cons id ids ih =>
    simp only [map_cons, afterExtendAll] at h
    cases hr : afterExtend (row id) (heap id) with
    | error e =>
      rw [hr] at h
      cases h
    | ok r =>
      obtain rfl := afterExtend_ok hr
      rw [hr] at h
      cases hrs : afterExtendAll (ids.map row) (ids.map heap) with
      | error e =>
        rw [hrs] at h
        cases h
      | ok rs' =>
        rw [hrs] at h
        cases h
        obtain rfl := ih hrs
        rfl

def needRows (heap : ℕ → MemReq) (ids : List ℕ) : ℕ :=
  ids.countP fun id => (heap id).reqPoolIdx = none

/-- A successful extend of the requests `ids`, with `row id` the row of each. -/
structure Extends (cfg : RadixConfig η β) (pick : List (List Page) → ℕ) (heap : ℕ → MemReq)
    (ids : List ℕ) (row : ℕ → ℕ) (out : List ℕ) (m m' : PagedMemory η β) : Prop where
  kept : ∀ id ∈ ids, ∀ i, (heap id).reqPoolIdx = some i → row id = i
  fresh : (ids.filter fun id => (heap id).reqPoolIdx = none).map row =
    m.rows.freeSlots.take (needRows heap ids)
  evicted : ∃ n, m'.cache = (m.evictFromTreeCache cfg pick n).cache ∧
    (m.evictFromTreeCache cfg pick n).allocator.allocExtend (ids.map fun id => (heap id).extendEntry)
      (extendNumTokens (ids.map heap)) = (m'.allocator, some out)
  rows : m'.rows = writeCacheIndices
    { m.rows with freeSlots := m.rows.freeSlots.drop (needRows heap ids) } out
    (ids.map fun id => (row id, heap id))

theorem evictFromTreeCache_rows (rows : ReqToTokenPool) (n : ℕ) :
    ({ m with rows } : PagedMemory η β).evictFromTreeCache cfg pick n =
      { m.evictFromTreeCache cfg pick n with rows } := by
  obtain ⟨allocator, rows', cache⟩ := m
  rcases cache with - | ⟨disable, c⟩
  · rfl
  · simp only [evictFromTreeCache]
    split
    · cases disable <;> rfl
    · rfl

theorem sub_countP_isSome (heap : ℕ → MemReq) (ids : List ℕ) :
    (ids.map heap).length - (ids.map heap).countP (·.reqPoolIdx.isSome) = needRows heap ids := by
  have h : ids.length = _ := length_eq_countP_add_countP fun id => (heap id).reqPoolIdx.isSome
  have hnone : ids.countP (fun id => ¬ (heap id).reqPoolIdx.isSome) = needRows heap ids := by
    refine countP_congr fun id _ => ?_
    simp
  rw [length_map, countP_map]
  simp only [Function.comp_def]
  omega

/-- What preparing a prefill batch does to memory and requests. -/
theorem prepareForExtend_ok (hnd : ids.Nodup)
    (h : m.prepareForExtend cfg pick (ids.map heap) = .ok (rs, m')) :
    ∃ row out, Extends cfg pick heap ids row out m m' ∧
      rs = ids.map fun id => (heap id).extended (row id) := by
  unfold prepareForExtend allocReqSlots at h
  dsimp only at h
  rw [sub_countP_isSome] at h
  by_cases hmany : 1 < (ids.map heap).countP (·.reqPoolIdx.isSome)
  · rw [if_pos hmany] at h
    cases h
  by_cases hfit : m.rows.freeSlots.length < needRows heap ids
  · rw [if_neg hmany, if_pos hfit] at h
    cases h
  rw [if_neg hmany, if_neg hfit] at h
  dsimp only at h
  rw [evictFromTreeCache_rows] at h
  -- the rows as a function of the request
  have hlen : (assignRows ((ids.map heap).map (·.reqPoolIdx))
      (m.rows.freeSlots.take (needRows heap ids))).length = ids.length := by
    rw [length_assignRows]
    · simp
    · rw [length_take, map_map, countP_map]
      exact le_min le_rfl (not_lt.mp hfit)
  obtain ⟨row, hrow⟩ := exists_map_eq hnd hlen
  rw [hrow] at h
  have hassign := assignRows_spec (f := fun id => (heap id).reqPoolIdx)
    (by rw [← hrow, map_map]; rfl)
  have hzip : (ids.map row).zip (ids.map heap) = ids.map fun id => (row id, heap id) := by
    rw [zip_map']
  split at h
  · cases h
  next a' out halloc =>
  split at h
  · cases h
  next rs' hafter =>
  cases h
  obtain rfl := afterExtendAll_ok hafter
  refine ⟨row, out, ⟨hassign.1, ?_, ⟨_, rfl, ?_⟩, ?_⟩, rfl⟩
  · rw [hassign.2, take_take, needRows, Nat.min_self]
  · rw [map_map] at halloc
    exact halloc
  · rw [hzip]

structure Decodes (cfg : RadixConfig η β) (pick : List (List Page) → ℕ) (reqs : List MemReq)
    (out : List ℕ) (m m' : PagedMemory η β) : Prop where
  evicted : ∃ n, m'.cache = (m.evictFromTreeCache cfg pick n).cache ∧
    (m.evictFromTreeCache cfg pick n).allocator.allocDecode (m.decodeRows reqs) =
      (m'.allocator, some out)
  rows : m'.rows = writeNext m.rows out reqs

theorem prepareForDecode_ok {reqs : List MemReq}
    (h : m.prepareForDecode cfg pick reqs = .ok (rs, m')) :
    rs = reqs.map MemReq.decoded ∧ ∃ out, Decodes cfg pick reqs out m m' := by
  unfold prepareForDecode at h
  dsimp only at h
  split at h
  · cases h
  next a' out halloc =>
    cases h
    exact ⟨rfl, out, ⟨_, rfl, halloc⟩, by simp⟩

theorem releaseKvCache_ok {r r' : MemReq} {isInsert : Bool}
    (h : m.releaseKvCache cfg r isInsert = .ok (r', m')) :
    ∃ idx, r.reqPoolIdx = some idx ∧
      r' = { r with kvCommittedFreed := true, kvOverallocatedFreed := true, reqPoolIdx := none } ∧
      m' = { m.cacheFinishedReq cfg r idx isInsert with
        rows := (m.cacheFinishedReq cfg r idx isInsert).rows.freeRow idx } := by
  unfold releaseKvCache at h
  split at h
  · cases h
  next idx hidx =>
  split at h
  · cases h
  split at h
  · cases h
  split at h
  all_goals cases h
  exact ⟨idx, hidx, rfl, rfl⟩

end PagedMemory

namespace ServingState

variable {s t : ServingState η β}
  {P : ServingState η β → ResultOp → Prop} {Inv : ServingState η β → Prop} {ops : List ResultOp}

@[simp] theorem heap_setReq_self (id : ℕ) (r : MemReq) : (s.setReq id r).heap id = r := by
  simp [setReq]

theorem heap_setReq_of_ne {id id' : ℕ} (h : id' ≠ id) (r : MemReq) :
    (s.setReq id r).heap id' = s.heap id' := by
  simp [setReq, h]

theorem setReqs_eq {ids : List ℕ} (hnd : ids.Nodup) (f : ℕ → MemReq) : s.setReqs ids (ids.map f) =
      { s with heap := fun id => if id ∈ ids then f id else s.heap id } := by
  induction ids generalizing s with
  | nil => simp [setReqs]
  | cons id ids ih =>
    obtain ⟨hnot, hnd⟩ := nodup_cons.mp hnd
    rw [map_cons, setReqs, ih hnd]
    simp only [setReq, mk.injEq, and_true]
    funext x
    by_cases hx : x = id
    · subst hx
      simp
    · simp [hx]

/-- Everyone waits, is admitted or is live, once. -/
structure Queues (s : ServingState η β) : Prop where
  nodup : (s.waitingQueue ++ s.canRunList ++ s.live).Nodup
  lt : ∀ id ∈ s.waitingQueue ++ s.canRunList ++ s.live, id < s.nextId

theorem Queues.perm (h : s.Queues) (hp : (t.waitingQueue ++ t.canRunList ++ t.live).Perm
      (s.waitingQueue ++ s.canRunList ++ s.live)) (hn : t.nextId = s.nextId) : t.Queues :=
  ⟨hp.nodup_iff.mpr h.nodup, fun id hid => hn ▸ h.lt id (hp.mem_iff.mp hid)⟩

theorem Queues.applyResult {op : ResultOp} (h : s.Queues) (hstep : s.applyResult cfg op = .ok t) :
    t.Queues := by
  cases op with
  | sample id token =>
    cases hstep
    exact { h with }
  | cacheUnfinished id =>
    simp only [ServingState.applyResult] at hstep
    split at hstep
    · cases hstep
    · split at hstep
      · cases hstep
      · cases hstep
        exact { h with }
  | finish id isInsert =>
    simp only [ServingState.applyResult] at hstep
    split at hstep
    · cases hstep
    · cases hstep
      have hsub : (s.waitingQueue ++ s.canRunList ++ s.live.erase id).Sublist
          (s.waitingQueue ++ s.canRunList ++ s.live) :=
        (Sublist.refl _).append erase_sublist
      exact ⟨h.nodup.sublist hsub, fun x hx => h.lt x (hsub.subset hx)⟩
  | rollback id outputIds =>
    simp only [ServingState.applyResult] at hstep
    split at hstep
    · cases hstep
    · cases hstep
      exact { h with }

theorem applyResults_invariant
    (hstep : ∀ s op t, Inv s → P s op → s.applyResult cfg op = .ok t → Inv t)
    (hallowed : ResultsAllowed cfg P s ops) (h : Inv s) (hrun : s.applyResults cfg ops = .ok t) :
    Inv t := by
  induction ops generalizing s with
  | nil =>
    cases hrun
    exact h
  | cons op ops ih =>
    simp only [applyResults] at hrun
    simp only [ResultsAllowed] at hallowed
    cases hop : s.applyResult cfg op with
    | error e =>
      rw [hop] at hrun
      cases hrun
    | ok u =>
      rw [hop] at hrun hallowed
      exact ih hallowed.2 (hstep _ _ _ h hallowed.1 hop) hrun

theorem step_results_invariant {grouped : Bool} (hbegin : ∀ s, Inv s → Inv (freeGroupBegin s))
    (hend : ∀ s, Inv s → Inv (freeGroupEnd s))
    (hstep : ∀ s op t, Inv s → P s op → s.applyResult cfg op = .ok t → Inv t)
    (hallowed : s.Allowed cfg P (.results grouped ops)) (h : Inv s)
    (hrun : s.step cfg (.results grouped ops) = .ok t) : Inv t := by
  simp only [step] at hrun
  cases grouped with
  | false => exact applyResults_invariant hstep hallowed h hrun
  | true =>
    cases hres : s.freeGroupBegin.applyResults cfg ops with
    | error e =>
      rw [hres] at hrun
      cases hrun
    | ok u =>
      rw [hres] at hrun
      cases hrun
      exact hend _ (applyResults_invariant hstep hallowed (hbegin _ h) hres)

theorem perm_extend {ids waiting canRun live : List ℕ} (hids : ids.Nodup)
    (hnd : (waiting ++ canRun ++ live).Nodup) :
    (waiting ++ canRun.filter (· ∉ ids) ++ (live ++ ids.filter (· ∈ canRun))).Perm
      (waiting ++ canRun ++ live) := by
  have hcan : canRun.Nodup := (nodup_append.mp (nodup_append.mp hnd).1).2.1
  have hmoved : (ids.filter (· ∈ canRun)).Perm (canRun.filter (· ∈ ids)) :=
    (perm_ext_iff_of_nodup (hids.filter _) (hcan.filter _)).mpr fun x => by
      simp [and_comm]
  have hsplit : (canRun.filter (· ∈ ids) ++ canRun.filter (· ∉ ids)).Perm canRun := by
    have := filter_append_perm (fun x => decide (x ∈ ids)) canRun
    simpa using this
  rw [perm_iff_count]
  intro x
  have h1 := hmoved.count_eq x
  have h2 := hsplit.count_eq x
  simp only [count_append] at h2 ⊢
  omega

theorem Queues.step {op : ServingOp} (h : s.Queues) (hop : s.Allowed cfg P op)
    (hstep : s.step cfg op = .ok t) : t.Queues := by
  cases op with
  | receive r =>
    cases hstep
    have hperm : (s.waitingQueue ++ [s.nextId] ++ s.canRunList ++ s.live).Perm
        (s.nextId :: (s.waitingQueue ++ s.canRunList ++ s.live)) := by
      simp
    refine ⟨hperm.nodup_iff.mpr (nodup_cons.mpr ⟨fun hmem => ?_, h.nodup⟩), fun id hid => ?_⟩
    · exact Nat.lt_irrefl _ (h.lt _ hmem)
    · rcases mem_cons.mp (hperm.mem_iff.mp hid) with rfl | hid
      · exact Nat.lt_succ_self _
      · exact Nat.lt_succ_of_lt (h.lt id hid)
  | lookup key =>
    cases hstep
    exact { h with }
  | admitReq id truncLen =>
    cases hstep
    refine h.perm ?_ rfl
    change (s.waitingQueue.erase id ++ (s.canRunList ++ [id]) ++ s.live).Perm _
    have hp := (perm_cons_erase hop.1).count_eq
    rw [perm_iff_count]
    intro x
    have := hp x
    simp only [count_append, count_cons, count_nil] at this ⊢
    omega
  | nextChunk id truncLen =>
    cases hstep
    exact { h with }
  | extend ids pick =>
    simp only [ServingState.step] at hstep
    split at hstep
    · cases hstep
    next rs m' hext =>
    cases hstep
    obtain ⟨row, out, -, rfl⟩ := PagedMemory.prepareForExtend_ok hop.1 hext
    rw [setReqs_eq hop.1]
    exact h.perm (perm_extend hop.1 h.nodup) rfl
  | decode ids pick =>
    simp only [ServingState.step] at hstep
    split at hstep
    · cases hstep
    next rs m' hdec =>
    cases hstep
    obtain ⟨rfl, -⟩ := PagedMemory.prepareForDecode_ok hdec
    rw [reqs, map_map, setReqs_eq hop.1]
    exact { h with }
  | results grouped ops =>
    refine step_results_invariant (fun s h => ?_) (fun s h => ?_) ?_ hop h hstep
    · exact { h with }
    · exact { h with }
    · exact fun s op t h _ hstep => h.applyResult hstep
  | retract id numTokens pick =>
    simp only [ServingState.step, releaseReq] at hstep
    split at hstep
    · cases hstep
    · cases hstep
      refine h.perm ?_ rfl
      change (s.waitingQueue ++ [id] ++ s.canRunList ++ s.live.erase id).Perm _
      have hp := (perm_cons_erase hop.1).count_eq
      rw [perm_iff_count]
      intro x
      have := hp x
      simp only [count_append, count_cons, count_nil] at this ⊢
      omega
  | evict numTokens pick =>
    cases hstep
    exact { h with }

end ServingState

end LLM42
