import LLM42.Serving.PageOwners

/-! # Admission, prefill and decode keep the owners

An admission locks the cached prefix. A batch takes pages from the allocator, each for one of its
requests, after pages of the tree may have been evicted. -/

namespace LLM42

open Library List Function PagedMemory KVAllocator
open RadixCache (contents)
open RadixState (Keeps)

theorem MemReq.maxPrefixLen_le (r : MemReq) : r.maxPrefixLen ≤ r.tokens.length := by
  rw [MemReq.maxPrefixLen]
  omega

theorem MemReq.Admitted.length_eq {η β : Type*} {cfg : RadixConfig η β} {c : RadixCache η β}
    {r : MemReq} {P : List ℕ} (h : r.Admitted cfg c P) (hps : 0 < cfg.pageSize) :
    P.length = r.sharedPages cfg := by
  rw [h.length, ← h.cached, h.shares.aligned, pageCount_mul hps]

theorem MemReq.Shares.append {η β : Type*} {cfg : RadixConfig η β} {c : RadixCache η β}
    {r : MemReq} {P : List ℕ} (h : r.Shares cfg c P) (hle : r.sharedPages cfg ≤ P.length)
    (Q : List ℕ) : r.Shares cfg c (P ++ Q) :=
  h.table fun _ hi => getD_append _ _ _ _ (hi.trans_le hle)

namespace ServingState

variable {η β : Type*} {cfg : RadixConfig η β} {s t : ServingState η β} {N : ℕ}
  {c c' : RadixCache η β} {table : ℕ → List ℕ} {id : ℕ} {r : MemReq} {m : PagedMemory η β}

theorem admitReq_spec {holders : List (List Page)} (h : m.Caching cfg c holders) {r' : MemReq}
    {m' : PagedMemory η β} {truncLen : Option ℕ} (hok : m.admitReq cfg r truncLen = (r', m')) :
    ∃ c' P, m'.Caching cfg c' (r'.lastNode.getD [] :: holders) ∧ Keeps holders c c' ∧
      r'.Admitted cfg c' P ∧ (∀ x, m'.pageUses cfg c' x = m.pageUses cfg c x) ∧
      m'.rows = m.rows ∧ m'.allocator = m.allocator := by
  have hps := h.pageSize_pos
  have hmax := r.maxPrefixLen_le
  set key := r.radixKey (r.tokens.take r.maxPrefixLen) with hkey
  set b := r.maxPrefixLen / cfg.pageSize with hb
  have hbtok : b * cfg.pageSize ≤ r.tokens.length := (Nat.div_mul_le_self _ _).trans hmax
  obtain ⟨P, hPle, hidx, hnode, hstored⟩ := h.paged.found hps key
  obtain ⟨hpaged, htree, hcont, hholds⟩ := h.paged.matchPrefix key
  have hpages : (key.pageAligned cfg.pageSize).pages cfg.pageSize = r.path cfg (b * cfg.pageSize) := by
    rw [hkey, pageAligned_radixKey hmax, MemReq.path]
  rw [hpages] at hPle hnode hstored
  have hpath : ∀ k, k ≤ b → (r.path cfg (b * cfg.pageSize)).take k = r.path cfg (k * cfg.pageSize) :=
    fun k hk => MemReq.path_take hps (Nat.mul_le_mul_right _ hk) hbtok
  have hPb : P.length ≤ b := hPle.trans (MemReq.length_path hps hbtok).le
  have hnode' : (c.matchPrefix cfg.pageSize key).2.1 = r.path cfg (P.length * cfg.pageSize) :=
    hnode.trans (hpath _ hPb)
  obtain ⟨h2, htree2, hcont2⟩ := (h.setTree hpaged).incLockRef hholds
  rw [hnode'] at h2 htree2 hcont2
  have hmatch : c.matchPrefix cfg.pageSize key = (laid cfg.pageSize P (P.length * cfg.pageSize),
      r.path cfg (P.length * cfg.pageSize), (c.matchPrefix cfg.pageSize key).2.2) := by
    rw [← hidx, ← hnode']
  set c₁ := (c.matchPrefix cfg.pageSize key).2.2
  have heq : m.admitReq cfg r truncLen = ({ r with
        fillIds := r.tokens.take (P.length * cfg.pageSize +
          truncLen.getD (r.tokens.length - P.length * cfg.pageSize))
        prefixIndices := laid cfg.pageSize P (P.length * cfg.pageSize)
        lastNode := some (r.path cfg (P.length * cfg.pageSize))
        cacheProtectedLen := P.length * cfg.pageSize
        extendInputLen := truncLen.getD (r.tokens.length - P.length * cfg.pageSize) },
       { m with cache := .radixCache false (c₁.incLockRef (r.path cfg (P.length * cfg.pageSize))) }) := by
    simp only [admitReq, PrefixCache.matchPrefix, h.cache, ← hkey, hmatch, length_laid]
    rfl
  have hshared : P.length * cfg.pageSize / cfg.pageSize = P.length := Nat.mul_div_cancel _ hps
  have hPtok : P.length * cfg.pageSize ≤ r.tokens.length := (Nat.mul_le_mul_right _ hPb).trans hbtok
  rw [heq] at hok
  cases hok
  refine ⟨_, P, ⟨rfl, h2.paged, h2.wf, h2.pageSize⟩,
    fun p hp q hq => (hcont2 q).trans (hcont q), ?_, fun x => ?_, rfl, rfl⟩
  · constructor
    · refine ⟨?_, hPtok, rfl, fun i hi => ?_⟩
      · rw [MemReq.sharedPages, hshared]
      · rw [MemReq.sharedPages, hshared] at hi
        rw [hcont2, hcont, getD_eq_getElem _ _ hi, ← hstored i hi]
        change contents c.nodes ((r.path cfg (P.length * cfg.pageSize)).take (i + 1)) = _
        rw [← hpath _ hPb, take_take, Nat.min_eq_left hi]
    · exact congrArg (laid cfg.pageSize P) length_laid.symm
    · rw [length_laid, pageCount_mul hps]
    · exact length_laid.symm
    · rw [length_laid, length_take]
      omega
    · exact take_prefix _ _
  · rw [pageUses, pageUses, htree2, htree.count_eq]

theorem Owned.admitReq (h : s.Owned cfg N c table) (hid : id ∈ s.waitingQueue)
    {truncLen : Option ℕ} (ht : t.Consistent cfg)
    (hstep : s.step cfg (.admitReq id truncLen) = .ok t) : s.OwnedFrom cfg N t := by
  obtain rfl : t = { s.setReq id (s.memory.admitReq cfg (s.heap id) truncLen).1 with
      memory := (s.memory.admitReq cfg (s.heap id) truncLen).2
      waitingQueue := s.waitingQueue.erase id
      canRunList := s.canRunList ++ [id] } := (Except.ok.inj hstep).symm
  have henc : (s.memory.admitReq cfg (s.heap id) truncLen).1.encoderLen = (s.heap id).encoderLen :=
    rfl
  generalize hok : s.memory.admitReq cfg (s.heap id) truncLen = admitted at *
  obtain ⟨r, m⟩ := admitted
  obtain ⟨c', P, hm, hkeep, hadm, huses, hrows, halloc⟩ := admitReq_spec h.caching hok
  have hne : ∀ x ∈ s.canRunList ++ s.live, x ≠ id := by
    rintro x hx rfl
    rcases mem_append.mp hx with hx | hx
    · exact h.base.queues.ne_waiting_canRun hid hx rfl
    · exact h.base.queues.ne_waiting_live hid hx rfl
  have hheap : ∀ x ∈ s.canRunList ++ s.live, (s.setReq id r).heap x = s.heap x :=
    fun x hx => heap_setReq_of_ne (hne x hx) r
  refine ⟨⟨c', update table id P, ⟨ht, fun x hx => ?_, hm.perm ?_, fun x hx => ?_,
    fun x hx => ?_, ?_, fun x => ?_⟩⟩, congrArg isNotInFreeGroup halloc⟩
  · by_cases hxid : x = id
    · rw [hxid, heap_setReq_self, henc]
      exact h.plain id (by simp [hid])
    · rw [heap_setReq_of_ne hxid]
      refine h.plain x ?_
      simp only [mem_append, mem_singleton] at hx ⊢
      rcases hx with (hx | hx | hx) | hx
      · exact .inl (.inl (mem_of_mem_erase hx))
      · exact .inl (.inr hx)
      · exact absurd hx hxid
      · exact .inr hx
  · have hperm : (id :: (s.canRunList ++ s.live)).Perm (s.canRunList ++ [id] ++ s.live) := by
      rw [append_assoc, singleton_append]
      exact perm_middle.symm
    refine Perm.trans (.of_eq ?_) (hperm.map _)
    rw [map_cons, heap_setReq_self, holders]
    exact congrArg _ (map_congr_left fun x hx => by rw [hheap x hx])
  · rcases mem_append.mp hx with hx | hx
    · have hmem : x ∈ s.canRunList ++ s.live := mem_append_left _ hx
      rw [hheap x hmem, update_of_ne (hne x hmem)]
      exact (h.admitted x hx).keeps (hkeep _ (mem_holders hmem))
    · rw [mem_singleton.mp hx, heap_setReq_self, update_self]
      exact hadm
  · have hmem : x ∈ s.canRunList ++ s.live := mem_append_right _ hx
    rw [hheap x hmem, update_of_ne (hne x hmem), hrows]
    exact (h.tabled x hx).keeps (hkeep _ (mem_holders hmem)) fun _ => rfl
  · rw [hrows, map_congr_left fun x hx => by rw [hheap x (mem_append_right _ hx)]]
    exact h.rows
  · rw [← h.pages x, ← huses x]
    congr 2
    refine flatMap_congr fun y hy => ?_
    have hmem : y ∈ s.canRunList ++ s.live := mem_append_right _ hy
    rw [hheap y hmem, update_of_ne (hne y hmem)]

section Batch

variable {ids : List ℕ} {g : ℕ → MemReq} {got : ℕ → List ℕ} {pick : List (List Page) → ℕ}

def advance (s : ServingState η β) (ids : List ℕ) (g : ℕ → MemReq) (m : PagedMemory η β) :
    ServingState η β :=
  { s with
    heap := fun id => if id ∈ ids then g id else s.heap id
    memory := m
    canRunList := s.canRunList.filter (· ∉ ids)
    live := s.live ++ ids.filter (· ∈ s.canRunList) }

theorem count_flatMap_batch {L : List ℕ} (f : ℕ → List ℕ) (x : ℕ) :
    (L.flatMap fun id => f id ++ if id ∈ ids then got id else []).count x =
      (L.flatMap f).count x + ((L.filter (· ∈ ids)).flatMap got).count x := by
  induction L with
  | nil => rfl
  | cons id L ih =>
    simp only [flatMap_cons, count_append, ih, filter_cons]
    by_cases hid : id ∈ ids
    · simp only [hid, if_true, decide_true, flatMap_cons, count_append]
      omega
    · simp only [hid, if_false, decide_false, count_nil, Bool.false_eq_true]
      omega

theorem sharedPages_le {rows : ReqToTokenPool} {P : List ℕ}
    (h : r.Tabled cfg c rows P) (hps : 0 < cfg.pageSize) : r.sharedPages cfg ≤ P.length := by
  rw [h.length, ← pageCount_mul hps (r.sharedPages cfg), ← h.shares.aligned]
  exact pageCount_mono (h.cached.trans h.known)

section

variable (h : s.Owned cfg N c table)

include h

section

variable (hids : ∀ id ∈ ids, id ∈ s.canRunList ∨ id ∈ s.live)

include hids

theorem Owned.filter_noRow :
    (ids.filter fun id => (s.heap id).reqPoolIdx = none) = ids.filter (· ∈ s.canRunList) := by
  refine filter_congr fun id hid => ?_
  rw [decide_eq_decide]
  constructor
  · exact fun hnone => (hids id hid).resolve_right fun hl => (h.base.live id hl).row hnone
  · exact fun hc => (h.base.canRun id hc).2.1

variable (hnd : ids.Nodup)

include hnd

theorem Owned.count_privatePages_advance
    (hshared : ∀ x, ((s.advance ids g m).heap x).sharedPages cfg = (s.heap x).sharedPages cfg)
    (x : ℕ) :
    ((s.advance ids g m).privatePages cfg fun id =>
      table id ++ if id ∈ ids then got id else []).count x =
      (s.privatePages cfg table).count x + (ids.flatMap got).count x := by
  have hps := h.caching.pageSize_pos
  set new := ids.filter (· ∈ s.canRunList) with hnew
  have hcan : ∀ y ∈ new, (table y).drop ((s.heap y).sharedPages cfg) = [] := fun y hy =>
    drop_of_length_le ((h.admitted y (by simpa using (mem_filter.mp hy).2)).length_eq hps).le
  have hsplit : ∀ y ∈ s.live ++ new, (table y ++ if y ∈ ids then got y else []).drop
      (((s.advance ids g m).heap y).sharedPages cfg) =
      (table y).drop ((s.heap y).sharedPages cfg) ++ if y ∈ ids then got y else [] := by
    intro y hy
    rw [hshared, drop_append_of_le_length]
    rcases mem_append.mp hy with hy | hy
    · exact sharedPages_le (h.tabled y hy) hps
    · exact ((h.admitted y (by simpa using (mem_filter.mp hy).2)).length_eq hps).ge
  have hbatch : ((s.live ++ new).filter (· ∈ ids)).Perm ids := by
    have hndl : (s.live ++ new).Nodup := by
      have hperm := @perm_extend ids [] s.canRunList s.live hnd h.base.queues.nodup_canRun_live
      exact (nodup_append.mp (hperm.nodup_iff.mpr h.base.queues.nodup_canRun_live)).2.1
    refine (perm_ext_iff_of_nodup (hndl.filter _) hnd).mpr fun y => ?_
    rw [mem_filter, mem_append, hnew, mem_filter]
    constructor
    · exact fun hy => by simpa using hy.2
    · intro hy
      have := hids y hy
      simp only [hy, decide_true, decide_eq_true_eq, true_and, and_true]
      exact this.symm
  have hfm : (s.advance ids g m).privatePages cfg (fun id =>
      table id ++ if id ∈ ids then got id else []) = (s.live ++ new).flatMap fun y =>
        (table y).drop ((s.heap y).sharedPages cfg) ++ if y ∈ ids then got y else [] :=
    flatMap_congr hsplit
  rw [hfm, count_flatMap_batch, (hbatch.flatMap_right got).count_eq, flatMap_append,
    count_append, flatMap_eq_nil_iff.mpr hcan, count_nil, Nat.add_zero]
  rfl

theorem Owned.advance (ht : (s.advance ids g m).Consistent cfg)
    (hnode : ∀ id ∈ ids, (g id).lastNode = (s.heap id).lastNode)
    (hcpl : ∀ id ∈ ids, (g id).cacheProtectedLen = (s.heap id).cacheProtectedLen)
    (henc : ∀ id ∈ ids, (g id).encoderLen = (s.heap id).encoderLen)
    (hcache : m.cache = s.memory.cache)
    (hheld : ∀ x, m.allocator.held.count x + (ids.flatMap got).count x =
      s.memory.allocator.held.count x)
    (htab : ∀ id ∈ ids, (g id).Tabled cfg c m.rows (table id ++ got id))
    (hlive : ∀ id ∈ ids, id ∈ s.live → (g id).row = (s.heap id).row)
    (hfresh : s.memory.rows.freeSlots.Perm
      ((ids.filter (· ∈ s.canRunList)).map (fun id => (g id).row) ++ m.rows.freeSlots))
    (hothers : ∀ i ∉ ids.map (fun id => (g id).row), ∀ j,
      m.rows.reqToToken i j = s.memory.rows.reqToToken i j) :
    (s.advance ids g m).Owned cfg N c fun id => table id ++ if id ∈ ids then got id else [] := by
  have hperm := @perm_extend ids [] s.canRunList s.live hnd h.base.queues.nodup_canRun_live
  have hfields : ∀ x, ((s.advance ids g m).heap x).lastNode = (s.heap x).lastNode ∧
      ((s.advance ids g m).heap x).sharedPages cfg = (s.heap x).sharedPages cfg ∧
      ((s.advance ids g m).heap x).encoderLen = (s.heap x).encoderLen := by
    intro x
    by_cases hx : x ∈ ids <;> simp [ServingState.advance, hx, hnode, MemReq.sharedPages, hcpl, henc]
  have hof : ∀ x ∈ (s.advance ids g m).live, x ∉ ids → x ∈ s.live := fun x hx hnot =>
    (mem_append.mp hx).resolve_right fun hx => hnot (mem_filter.mp hx).1
  have hrowsLive := (nodup_append.mp h.rows).2.1
  refine ⟨ht, fun x hx => ?_, ⟨?_, ?_, ht.wf, ht.pageSize⟩, fun x hx => ?_, fun x hx => ?_, ?_,
    fun x => ?_⟩
  · rw [(hfields x).2.2]
    refine h.plain x ?_
    rw [append_assoc] at hx ⊢
    exact (mem_append.mp hx).elim (mem_append_left _)
      fun hx => mem_append_right _ (hperm.mem_iff.mp hx)
  · exact hcache.trans h.caching.cache
  · refine h.caching.paged.perm ?_
    rw [holders, holders]
    simp only [(hfields _).1]
    exact (hperm.map _).symm
  · obtain ⟨hx, hnot⟩ := mem_filter.mp hx
    have hnot : x ∉ ids := by simpa using hnot
    simpa [ServingState.advance, hnot] using h.admitted x hx
  · by_cases hmem : x ∈ ids
    · simpa [ServingState.advance, hmem] using htab x hmem
    · have hx := hof x hx hmem
      have hkeep : (s.heap x).Tabled cfg c m.rows (table x) :=
        (h.tabled x hx).keeps (fun _ _ => rfl) (hothers _ fun hrow => ?_)
      · simpa [ServingState.advance, hmem] using hkeep
      -- another live request has another row, and fresh rows were free
      obtain ⟨y, hy, hrow⟩ := mem_map.mp hrow
      by_cases hyl : y ∈ s.live
      · rw [hlive y hy hyl] at hrow
        have heq := (nodup_map_iff_inj_on h.base.queues.nodup_live).mp hrowsLive y hyl x hx hrow
        exact hmem (heq ▸ hy)
      · have hyc := (hids y hy).resolve_right hyl
        have hfree : (g y).row ∈ s.memory.rows.freeSlots := hfresh.mem_iff.mpr
          (mem_append_left _ (mem_map_of_mem (mem_filter.mpr ⟨hy, by simpa using hyc⟩)))
        exact (nodup_append.mp h.rows).2.2 _ hfree _ (mem_map_of_mem hx) hrow
  · have hold : s.live.map (fun x => ((s.advance ids g m).heap x).row) =
        s.live.map fun x => (s.heap x).row := by
      refine map_congr_left fun x hx => ?_
      by_cases hmem : x ∈ ids <;> simp [ServingState.advance, hmem, hlive, hx]
    have hnew : (ids.filter (· ∈ s.canRunList)).map (fun x => ((s.advance ids g m).heap x).row) =
        (ids.filter (· ∈ s.canRunList)).map fun x => (g x).row := by
      refine map_congr_left fun x hx => ?_
      simp [ServingState.advance, (mem_filter.mp hx).1]
    change (m.rows.freeSlots ++ (s.live ++ ids.filter (· ∈ s.canRunList)).map
      fun x => ((s.advance ids g m).heap x).row).Nodup
    rw [map_append, hold, hnew, ← append_assoc]
    refine (perm_append_comm.trans ?_).nodup_iff.mpr h.rows
    rw [← append_assoc]
    exact (hfresh.append_right _).symm
  · have hcount := h.pages x
    have hh := hheld x
    rw [h.count_privatePages_advance hids hnd fun y => (hfields y).2.1]
    rw [PagedMemory.pageUses] at hcount ⊢
    dsimp only [ServingState.advance]
    omega

theorem Owned.nodup_rows (row : ℕ → ℕ) {k : ℕ} (hkept : ∀ id ∈ ids, id ∈ s.live → row id = (s.heap id).row)
    (hfresh : (ids.filter (· ∈ s.canRunList)).map row = s.memory.rows.freeSlots.take k) :
    (ids.map row).Nodup := by
  obtain ⟨hfree, hlive, hdisj⟩ := nodup_append.mp h.rows
  have hnew : ∀ x ∈ ids, x ∈ s.canRunList → row x ∈ s.memory.rows.freeSlots := fun x hx hc =>
    mem_of_mem_take (hfresh ▸ mem_map_of_mem (mem_filter.mpr ⟨hx, by simpa using hc⟩))
  have hfnd : ((ids.filter (· ∈ s.canRunList)).map row).Nodup :=
    hfresh ▸ hfree.sublist (take_sublist _ _)
  refine Nodup.map_on (fun x hx y hy hxy => ?_) hnd
  rcases hids x hx with hxc | hxl <;> rcases hids y hy with hyc | hyl
  · exact inj_on_of_nodup_map hfnd (mem_filter.mpr ⟨hx, by simpa using hxc⟩)
      (mem_filter.mpr ⟨hy, by simpa using hyc⟩) hxy
  · exact absurd (hxy.trans (hkept y hy hyl)) (hdisj _ (hnew x hx hxc) _ (mem_map_of_mem hyl))
  · exact absurd (hxy.symm.trans (hkept x hx hxl)) (hdisj _ (hnew y hy hyc) _ (mem_map_of_mem hxl))
  · rw [hkept x hx hxl, hkept y hy hyl] at hxy
    exact (nodup_map_iff_inj_on h.base.queues.nodup_live).mp hlive x hxl y hyl hxy

end

theorem Owned.extend_prefix (hop : s.Allowed cfg (PageSafe cfg) (.extend ids pick))
    (hid : id ∈ ids) :
    (s.heap id).prefixIndices = laid cfg.pageSize (table id) (s.heap id).prefixIndices.length ∧
      (table id).length = pageCount cfg.pageSize (s.heap id).prefixIndices.length ∧
      (s.heap id).prefixIndices.length ≤ (s.heap id).fillIds.length ∧
      (s.heap id).cacheProtectedLen ≤ (s.heap id).prefixIndices.length ∧
      (s.heap id).fillIds <+: (s.heap id).tokens ∧
      (s.heap id).encoderLen ≤ (s.heap id).fillIds.length := by
  rcases hop.2 id hid with hc | ⟨hl, hlen⟩
  · have ha := h.admitted id hc
    exact ⟨ha.prefixIndices, ha.length, ha.fill, ha.cached.le, ha.tokens,
      (h.base.canRun id hc).2.2⟩
  · have hl' := h.tabled id hl
    refine ⟨?_, ?_, hl'.fill, hl'.cached, hl'.tokens, (h.base.live id hl).fill⟩
    · rw [hlen, ← hl'.table, ← hlen]
      exact hl'.prefixIndices
    · rw [hlen]
      exact hl'.length

theorem Owned.extend (hop : s.Allowed cfg (PageSafe cfg) (.extend ids pick)) (ht : t.Consistent cfg)
    (hstep : s.step cfg (.extend ids pick) = .ok t) : s.OwnedFrom cfg N t := by
  simp only [step] at hstep
  split at hstep
  · cases hstep
  next rs m hext =>
  cases hstep
  obtain ⟨row, out, hspec, rfl⟩ := prepareForExtend_ok hop.1 hext
  rw [setReqs_eq hop.1] at ht ⊢
  have hps := h.caching.pageSize_pos
  have hids : ∀ id ∈ ids, id ∈ s.canRunList ∨ id ∈ s.live :=
    fun id hid => (hop.2 id hid).imp_right And.left
  -- after the eviction
  obtain ⟨n, hcache, halloc⟩ := hspec.evicted
  obtain ⟨c', hm, hkeep, huses, hgroup⟩ := h.caching.evictFromTreeCache
    h.memory_uses_le pick n
  have hown := h.setMemory hm hkeep (rows_evictFromTreeCache n) huses
  obtain ⟨pages, hgrants⟩ := allocExtend_some (fun e he => by
      obtain ⟨id, hid, rfl⟩ := mem_map.mp he
      exact (h.extend_prefix hop hid).2.2.1)
    (by rw [extendNumTokens, map_map, map_map]; rfl) halloc
  have henough := hgrants.enough
  have hout := hgrants.out_eq
  have hheld := hgrants.held
  rw [hm.pageSize] at henough hout hheld
  have hkept : ∀ id ∈ ids, id ∈ s.live → row id = (s.heap id).row :=
    fun id hid hl => by
      obtain ⟨i, hi⟩ := Option.ne_none_iff_exists'.mp (h.base.live id hl).row
      rw [hspec.kept id hid i hi, row_of_reqPoolIdx hi]
  have hfresh := hspec.fresh
  rw [h.filter_noRow hids] at hfresh
  obtain ⟨got, hlaid⟩ := writeCacheIndices_laid hps hop.1
    (h.nodup_rows hids hop.1 row hkept hfresh) pages
    { s.memory.rows with freeSlots :=
        s.memory.rows.freeSlots.drop (needRows s.heap ids) }
    (fun id hid => ⟨(h.extend_prefix hop hid).1, (h.extend_prefix hop hid).2.1,
      (h.extend_prefix hop hid).2.2.1⟩) henough
  rw [← hout, ← hspec.rows] at hlaid
  refine ⟨⟨c', fun id => table id ++ if id ∈ ids then got id else [],
    hown.advance hids hop.1 ht (fun _ _ => rfl) (fun _ _ => rfl) (fun _ _ => rfl) hcache (fun x => ?_)
      (fun id hid => ?_) hkept ?_ (fun i hi j => ?_)⟩, hgrants.group.trans hgroup⟩
  · have := hheld.count_eq x
    rw [count_append] at this
    rw [hlaid.pages]
    dsimp only
    omega
  · obtain ⟨hpre, hlen, hfill, hcpl, htok, henc⟩ := h.extend_prefix hop hid
    have hshares : (s.heap id).Shares cfg c' (table id) := by
      rcases hids id hid with hc | hl
      · exact (hown.admitted id hc).shares
      · exact (hown.tabled id hl).shares
    have hle : (s.heap id).sharedPages cfg ≤ (table id).length := by
      rw [hlen, ← pageCount_mul hps ((s.heap id).sharedPages cfg), ← hshares.aligned]
      exact pageCount_mono hcpl
    have happ := hshares.append hle (got id)
    have htable := (hlaid.table id hid).1
    refine ⟨htable, (hlaid.table id hid).2, { happ with }, ?_,
      hcpl, hfill, hfill, htok, Nat.add_sub_cancel' henc⟩
    change (s.heap id).prefixIndices = m.rows.slice (row id) 0 (s.heap id).prefixIndices.length
    rw [(ReqToTokenPool.slice_of_slice hfill).1, htable, take_laid hfill,
      laid_append_left hps (hlen ▸ le_pageCount_mul hps _), ← hpre]
  · rw [rows_evictFromTreeCache]
    change s.memory.rows.freeSlots.Perm ((ids.filter (· ∈ s.canRunList)).map row ++ m.rows.freeSlots)
    rw [hfresh, hlaid.freeSlots, take_append_drop]
  · rw [rows_evictFromTreeCache]
    exact hlaid.others i hi j

theorem Owned.lastLoc (hid : id ∈ s.live) (hmod : (s.heap id).kvCommittedLen % cfg.pageSize ≠ 0) :
    s.memory.rows.reqToToken (s.heap id).row ((s.heap id).seqLen - 1) =
      laidAt cfg.pageSize (table id) ((s.heap id).kvCommittedLen - 1) := by
  have hl := h.tabled id hid
  have hps : cfg.pageSize ≠ 1 := fun h1 => hmod (by rw [h1, Nat.mod_one])
  have hlens := hl.lens
  have henc := (h.plain id (by simp [hid])).resolve_left hps
  rw [henc, Nat.zero_add] at hlens
  have hpos : 0 < (s.heap id).kvCommittedLen := Nat.pos_of_ne_zero fun h0 => hmod (by rw [h0, Nat.zero_mod])
  have hget := congrArg (·[(s.heap id).kvCommittedLen - 1]?) hl.table
  rw [hlens]
  simpa [ReqToTokenPool.slice, laid, hpos] using hget

theorem Owned.decode (hop : s.Allowed cfg (PageSafe cfg) (.decode ids pick)) (ht : t.Consistent cfg)
    (hstep : s.step cfg (.decode ids pick) = .ok t) : s.OwnedFrom cfg N t := by
  simp only [step] at hstep
  split at hstep
  · cases hstep
  next rs m hdec =>
  cases hstep
  obtain ⟨rfl, out, hspec⟩ := prepareForDecode_ok hdec
  have hps := h.caching.pageSize_pos
  have hids : ∀ id ∈ ids, id ∈ s.live := fun id hid => (hop.2 id hid).1
  have hnone : ids.filter (· ∈ s.canRunList) = [] := filter_eq_nil_iff.mpr fun id hid => by
    simpa using fun hc => h.base.queues.ne_canRun_live hc (hids id hid) rfl
  have hcan : s.canRunList.filter (· ∉ ids) = s.canRunList := filter_eq_self.mpr fun id hc => by
    simpa using fun hid => h.base.queues.ne_canRun_live hc (hids id hid) rfl
  have hadv : ({ s.setReqs ids (s.reqs ids |>.map MemReq.decoded) with memory := m } :
      ServingState η β) = s.advance ids (fun id => (s.heap id).decoded) m := by
    rw [reqs, map_map, setReqs_eq hop.1, ServingState.advance, hnone, hcan, append_nil]
    rfl
  rw [hadv] at ht ⊢
  -- after the eviction
  obtain ⟨n, hcache, halloc⟩ := hspec.evicted
  obtain ⟨c', hm, hkeep, huses, hgroup⟩ := h.caching.evictFromTreeCache
    h.memory_uses_le pick n
  have hown := h.setMemory hm hkeep (rows_evictFromTreeCache n) huses
  have hentries : s.memory.decodeRows (s.reqs ids) = ids.map fun id => ((s.heap id).seqLen + 1,
      s.memory.rows.reqToToken (s.heap id).row ((s.heap id).seqLen - 1)) := by
    rw [decodeRows, reqs, map_map]
    rfl
  rw [hentries] at halloc
  obtain ⟨pages, hgrants⟩ := allocDecode_some hm.wf (fun e he => by
    obtain ⟨id, -, rfl⟩ := mem_map.mp he
    exact Nat.succ_pos _) halloc
  have henough := hgrants.enough
  have hout := hgrants.out_eq
  have hheld := hgrants.held
  rw [hm.pageSize] at henough hout hheld
  have hrows := h.nodup_rows (fun id hid => .inr (hids id hid)) hop.1
    (fun id => (s.heap id).row) (k := 0) (fun _ _ _ => rfl) (by rw [hnone]; rfl)
  obtain ⟨got, hlaid⟩ := writeNext_laid hps hop.1 hrows pages s.memory.rows (fun id hid => by
      have hl := h.tabled id (hids id hid)
      exact ⟨hl.table, hl.length, hl.lens, rfl, h.plain id (by simp [hids id hid]),
        h.lastLoc (hids id hid)⟩) henough
  rw [← hout, ← reqs, ← hspec.rows] at hlaid
  refine ⟨⟨c', fun id => table id ++ if id ∈ ids then got id else [],
    hown.advance (fun id hid => .inr (hids id hid)) hop.1 ht (fun _ _ => rfl) (fun _ _ => rfl)
      (fun _ _ => rfl) hcache (fun x => ?_) (fun id hid => ?_) (fun _ _ _ => rfl) ?_
      (fun i hi j => ?_)⟩, hgrants.group.trans hgroup⟩
  · have := hheld.count_eq x
    rw [count_append] at this
    rw [hlaid.pages]
    dsimp only
    omega
  · have hl := hown.tabled id (hids id hid)
    have happ := hl.shares.append (sharedPages_le hl hps) (got id)
    have htable := (hlaid.table id hid).1
    refine ⟨htable, (hlaid.table id hid).2, { happ with }, ?_,
      hl.cached, Nat.le_succ_of_le hl.known, hl.fill, hl.tokens, ?_⟩
    · have hlen := (h.tabled id (hids id hid)).length
      change (s.heap id).prefixIndices =
        m.rows.slice (s.heap id).row 0 (s.heap id).prefixIndices.length
      rw [(ReqToTokenPool.slice_of_slice (Nat.le_succ_of_le hl.known)).1, htable,
        take_laid (Nat.le_succ_of_le hl.known), laid_append_left hps
          (hl.known.trans (hlen ▸ le_pageCount_mul hps _)), ← take_laid hl.known,
        ← (h.tabled id (hids id hid)).table, ← (ReqToTokenPool.slice_of_slice hl.known).1]
      exact (h.tabled id (hids id hid)).prefixIndices
    · have := (h.tabled id (hids id hid)).lens
      simp only [MemReq.decoded]
      omega
  · rw [rows_evictFromTreeCache, hnone, hlaid.freeSlots]
    exact .refl _
  · rw [rows_evictFromTreeCache]
    exact hlaid.others i hi j

end

end Batch

section Steps

variable {P Q : ServingState η β → ResultOp → Prop} {op : ServingOp} {ops : List ResultOp}

theorem ResultsAllowed.mono (hPQ : ∀ s op, P s op → Q s op) (h : ResultsAllowed cfg P s ops) :
    ResultsAllowed cfg Q s ops := by
  induction ops generalizing s with
  | nil => trivial
  | cons op ops ih =>
    refine ⟨hPQ _ _ h.1, ?_⟩
    have hrest := h.2
    cases hres : s.applyResult cfg op with
    | error e => trivial
    | ok u =>
      rw [hres] at hrest
      exact ih hrest

theorem Allowed.mono (hPQ : ∀ s op, P s op → Q s op) (h : s.Allowed cfg P op) :
    s.Allowed cfg Q op := by
  cases op with
  | results grouped ops => exact ResultsAllowed.mono hPQ h
  | _ => exact h

theorem PlainPages.encoderPages (h : PlainPages cfg op) : EncoderPages cfg op := by
  cases op with
  | receive r =>
    rcases h with h1 | h0
    · exact (congrArg (r.encoderLen % ·) h1).trans (Nat.mod_one _)
    · exact (congrArg (· % cfg.pageSize) h0).trans (Nat.zero_mod _)
  | _ => trivial

def Settled (cfg : RadixConfig η β) (N : ℕ) (s : ServingState η β) : Prop :=
  (∃ c table, s.Owned cfg N c table) ∧ s.memory.allocator.isNotInFreeGroup

theorem Owned.setAllocator (h : s.Owned cfg N c table) {a : KVAllocator} (hwf : a.Wf)
    (hps : a.pageSize = cfg.pageSize)
    (hheld : ∀ x, a.held.count x = s.memory.allocator.held.count x) :
    ({ s with memory := { s.memory with allocator := a } } : ServingState η β).Owned cfg N c table :=
  h.setMemory ⟨h.caching.cache, h.caching.paged, hwf, hps⟩ (fun _ _ _ _ => rfl) rfl
    fun x => congrArg (· + _) (hheld x)

theorem Settled.results {grouped : Bool} (h : s.Settled cfg N)
    (hop : s.Allowed cfg (PageSafe cfg) (.results grouped ops))
    (hstep : s.step cfg (.results grouped ops) = .ok t) : t.Settled cfg N := by
  have hrun : ∀ {u v : ServingState η β}, (∃ c table, u.Owned cfg N c table) →
      ResultsAllowed cfg (PageSafe cfg) u ops → u.applyResults cfg ops = .ok v →
      u.OwnedFrom cfg N v := by
    intro u v hu hallowed hres
    refine @applyResults_invariant η β cfg u v (PageSafe cfg) (u.OwnedFrom cfg N) ops ?_ hallowed
      ⟨hu, rfl⟩ hres
    rintro s op t ⟨⟨c, table, h⟩, hflag⟩ hsafe hstep
    obtain ⟨hown, hgroup⟩ := h.applyResult hsafe hstep
    exact ⟨hown, hgroup.trans hflag⟩
  obtain ⟨⟨c, table, hown⟩, hgroup⟩ := h
  simp only [step] at hstep
  cases grouped with
  | false =>
    obtain ⟨ht, hflag⟩ := hrun ⟨c, table, hown⟩ hop hstep
    exact ⟨ht, hflag.trans hgroup⟩
  | true =>
    cases hres : s.freeGroupBegin.applyResults cfg ops with
    | error e =>
      rw [hres] at hstep
      cases hstep
    | ok u =>
      rw [hres] at hstep
      cases hstep
      have hbegin := hown.setAllocator hown.caching.wf.freeGroupBegin
        ((pageSize_freeGroupBegin _).trans hown.caching.pageSize)
        (fun x => by rw [held_freeGroupBegin hgroup])
      obtain ⟨⟨c', table', hu⟩, hflag⟩ := hrun ⟨c, table, hbegin⟩ hop hres
      rw [isNotInFreeGroup_freeGroupBegin] at hflag
      have hnd : u.memory.allocator.held.Nodup := nodup_iff_count_le_one.mpr fun x => by
        have := hu.pageUses_le x
        rw [pageUses] at this
        omega
      exact ⟨⟨c', table', hu.setAllocator hu.caching.wf.freeGroupEnd
        ((pageSize_freeGroupEnd _).trans hu.caching.pageSize)
        fun x => (held_freeGroupEnd hflag hnd).count_eq x⟩,
        isNotInFreeGroup_freeGroupEnd _⟩

theorem Owned.receive (h : s.Owned cfg N c table) (hplain : PlainPages cfg (.receive r))
    (ht : t.Consistent cfg) (hstep : s.step cfg (.receive r) = .ok t) : t.Owned cfg N c table := by
  cases hstep
  have hheap : ∀ x ∈ s.waitingQueue ++ s.canRunList ++ s.live,
      update s.heap s.nextId r x = s.heap x :=
    fun x hx => update_of_ne (h.base.queues.lt x hx).ne _ _
  have hlive : ∀ x ∈ s.live, update s.heap s.nextId r x = s.heap x :=
    fun x hx => hheap x (by simp [hx])
  refine ⟨ht, fun x hx => ?_, ?_, fun x hx => ?_, fun x hx => ?_, ?_, fun x => ?_⟩
  · by_cases hxn : x = s.nextId
    · rw [hxn]
      dsimp only
      rw [update_self]
      exact hplain
    · have hx : x ∈ s.waitingQueue ++ s.canRunList ++ s.live := by
        simp only [mem_append, mem_singleton] at hx ⊢
        rcases hx with ((hx | hx) | hx) | hx
        · exact .inl (.inl hx)
        · exact absurd hx hxn
        · exact .inl (.inr hx)
        · exact .inr hx
      dsimp only
      rw [hheap x hx]
      exact h.plain x hx
  · refine h.caching.perm (.of_eq (map_congr_left fun x hx => ?_))
    dsimp only
    rw [hheap x (by rw [append_assoc]; exact mem_append_right _ hx)]
  · dsimp only
    rw [hheap x (by simp [hx])]
    exact h.admitted x hx
  · dsimp only
    rw [hlive x hx]
    exact h.tabled x hx
  · dsimp only
    rw [map_congr_left fun x hx => by rw [hlive x hx]]
    exact h.rows
  · rw [← h.pages x]
    congr 2
    refine flatMap_congr fun y hy => ?_
    dsimp only
    rw [hlive y hy]

theorem Owned.retract {numTokens : ℕ} {pick : List (List Page) → ℕ} (h : s.Owned cfg N c table)
    (hop : s.Allowed cfg (PageSafe cfg) (.retract id numTokens pick)) (ht : t.Consistent cfg)
    (hstep : s.step cfg (.retract id numTokens pick) = .ok t) : s.OwnedFrom cfg N t := by
  simp only [step, releaseReq] at hstep
  split at hstep
  · cases hstep
  next r m hok =>
  cases hstep
  obtain ⟨idx, hidx, rfl, rfl⟩ := releaseKvCache_ok hok
  rw [← row_of_reqPoolIdx hidx] at ht ⊢
  obtain ⟨c₁, hkeep₁, hm₁, huses₁, hrows, hgroup₁⟩ := h.released hop.1 hop.2 rfl
  rw [hrows] at ht ⊢
  obtain ⟨c₂, hm₂, hkeep₂, huses₂, hgroup₂⟩ := hm₁.evictFromTreeCache
    (fun x => (huses₁ x).trans_le (h.pageUses_live_le hop.1 x)) pick numTokens
  refine ⟨⟨c₂, table, h.dropLive hop.1 ht rfl rfl (fun x hx => ?_)
    (fun x hx => heap_setReq_of_ne hx _) ?_ hm₂ ?_ ?_ fun x => ?_⟩, hgroup₂.trans hgroup₁⟩
  · rcases mem_append.mp hx with hx | hx
    · exact .inl hx
    · exact .inr (mem_singleton.mp hx)
  · rw [heap_setReq_self]
    rfl
  · exact fun p hp q hq => (hkeep₂ p hp q hq).trans (hkeep₁ p (mem_of_mem_erase hp) q hq)
  · exact rows_evictFromTreeCache _
  · exact (huses₂ x).trans (huses₁ x)

theorem Settled.step (h : s.Settled cfg N) (hop : s.Allowed cfg (PageSafe cfg) op)
    (hplain : PlainPages cfg op) (hstep : s.step cfg op = .ok t) : t.Settled cfg N := by
  obtain ⟨⟨c, table, hown⟩, hgroup⟩ := id h
  have ht := hown.base.step (hop.mono fun _ _ h => h.1) hplain.encoderPages hstep
  cases op with
  | receive r =>
    exact ⟨⟨c, table, hown.receive hplain ht hstep⟩, by cases hstep; exact hgroup⟩
  | lookup key =>
    cases hstep
    obtain ⟨hpaged, htree, hcont, -⟩ := hown.caching.paged.matchPrefix key
    refine ⟨⟨_, table, hown.setMemory ⟨?_, hpaged, hown.caching.wf, hown.caching.pageSize⟩
      (fun _ _ q _ => hcont q) rfl fun x => ?_⟩, hgroup⟩
    · rw [hown.caching.cache]
      rfl
    · rw [pageUses, pageUses, htree.count_eq]
  | admitReq id truncLen =>
    obtain ⟨ho, hg⟩ := hown.admitReq hop.1 ht hstep
    exact ⟨ho, hg.trans hgroup⟩
  | nextChunk id truncLen =>
    cases hstep
    have hl := hown.tabled id hop.1
    have hle := hl.fill.trans hl.tokens.length_le
    refine ⟨⟨c, _, hown.setFields hop.1 ht rfl rfl rfl ?_ rfl⟩, hgroup⟩
    refine { hl with shares := { hl.shares with }, fill := ?_, tokens := take_prefix _ _ }
    simp only [nextChunk, length_take]
    omega
  | extend ids pick =>
    obtain ⟨ho, hg⟩ := hown.extend hop ht hstep
    exact ⟨ho, hg.trans hgroup⟩
  | decode ids pick =>
    obtain ⟨ho, hg⟩ := hown.decode hop ht hstep
    exact ⟨ho, hg.trans hgroup⟩
  | results grouped ops => exact h.results hop hstep
  | retract id numTokens pick =>
    obtain ⟨ho, hg⟩ := hown.retract hop ht hstep
    exact ⟨ho, hg.trans hgroup⟩
  | evict numTokens pick =>
    cases hstep
    obtain ⟨c', hm, hkeep, huses, hg⟩ := hown.caching.evict hown.memory_uses_le pick numTokens
    exact ⟨⟨c', table, hown.setMemory hm hkeep (rows_evict numTokens) huses⟩, hg.trans hgroup⟩

end Steps

end ServingState

end LLM42
