import LLM42.Serving.Lengths
import LLM42.Serving.Releases

/-! # Who owns which page

Every page of the pool is free, in the tree, or private to one live request; the requests find the
tree's pages in front of their own. -/

namespace LLM42

open Library List
open RadixCache (contents)
open RadixState (Keeps)

/-- An admitted request: its prefix is cached and locked, its row is still to come. -/
structure MemReq.Admitted {η β : Type*} (cfg : RadixConfig η β) (c : RadixCache η β) (r : MemReq)
    (P : List ℕ) : Prop where
  shares : r.Shares cfg c P
  prefixIndices : r.prefixIndices = laid cfg.pageSize P r.prefixIndices.length
  length : P.length = pageCount cfg.pageSize r.prefixIndices.length
  cached : r.cacheProtectedLen = r.prefixIndices.length
  fill : r.prefixIndices.length ≤ r.fillIds.length
  tokens : r.fillIds <+: r.tokens

theorem MemReq.Admitted.keeps {η β : Type*} {cfg : RadixConfig η β} {c c' : RadixCache η β}
    {r : MemReq} {P : List ℕ} (h : r.Admitted cfg c P)
    (hc : ∀ q, q <+: r.lastNode.getD [] → contents c'.nodes q = contents c.nodes q) :
    r.Admitted cfg c' P :=
  { h with shares := h.shares.keeps hc }

namespace ServingState

variable {η β : Type*} (cfg : RadixConfig η β) (s : ServingState η β)

def holders : List (List Page) :=
  (s.canRunList ++ s.live).map fun id => (s.heap id).lastNode.getD []

def privatePages (table : ℕ → List ℕ) : List ℕ :=
  s.live.flatMap fun id => (table id).drop ((s.heap id).sharedPages cfg)

/-- Pages of more than one token serve decoder-only models. -/
def PlainPages : ServingOp → Prop
  | .receive r => cfg.pageSize = 1 ∨ r.encoderLen = 0
  | _ => True

/-- A rollback keeps pages whole when it goes back to the start of a page, and not into what was
prefilled; the length that it sets for the batch counts no encoder part. -/
def PageSafe (s : ServingState η β) (op : ResultOp) : Prop :=
  s.ResultAllowed op ∧ match op with
    | .rollback id outputIds => (s.heap id).encoderLen = 0 ∧
      (s.heap id).fillIds.length ≤ (s.heap id).originInputIds.length + (outputIds.length - 1) ∧
      (((s.heap id).originInputIds.length + (outputIds.length - 1)) % cfg.pageSize = 0 ∨
        outputIds.length = (s.heap id).outputIds.length)
    | _ => True

/-- Every page `1 .. N` has one owner; `table` is the page table of each request. -/
structure Owned (N : ℕ) (c : RadixCache η β) (table : ℕ → List ℕ) : Prop where
  base : s.Consistent cfg
  plain : ∀ id ∈ s.waitingQueue ++ s.canRunList ++ s.live,
    cfg.pageSize = 1 ∨ (s.heap id).encoderLen = 0
  caching : s.memory.Caching cfg c s.holders
  admitted : ∀ id ∈ s.canRunList, (s.heap id).Admitted cfg c (table id)
  tabled : ∀ id ∈ s.live, (s.heap id).Tabled cfg c s.memory.rows (table id)
  rows : (s.memory.rows.freeSlots ++ s.live.map fun id => (s.heap id).row).Nodup
  pages : ∀ x, s.memory.pageUses cfg c x + (s.privatePages cfg table).count x =
    (range' 1 N).count x

def OwnedFrom (N : ℕ) (t : ServingState η β) : Prop :=
  (∃ c table, t.Owned cfg N c table) ∧
    t.memory.allocator.isNotInFreeGroup = s.memory.allocator.isNotInFreeGroup

variable {cfg s} {t : ServingState η β} {N : ℕ} {c c' : RadixCache η β} {table : ℕ → List ℕ}
  {id : ℕ} {r : MemReq} {m : PagedMemory η β} {P : List ℕ}

theorem Queues.nodup_canRun_live (h : s.Queues) : (s.canRunList ++ s.live).Nodup := by
  have hnd := h.nodup
  rw [append_assoc] at hnd
  exact (nodup_append.mp hnd).2.1

section

variable (hid : id ∈ s.canRunList ++ s.live)

include hid

theorem mem_holders : (s.heap id).lastNode.getD [] ∈ s.holders := mem_map_of_mem hid

theorem holders_erase_perm : (s.holders.erase ((s.heap id).lastNode.getD [])).Perm
      (((s.canRunList ++ s.live).erase id).map fun id => (s.heap id).lastNode.getD []) := by
  have hold := (perm_cons_erase hid).map fun id => (s.heap id).lastNode.getD []
  rw [map_cons] at hold
  exact (hold.erase _).trans (by rw [erase_cons_head])

theorem mem_holders_erase {x : ℕ} (hx : x ∈ s.canRunList ++ s.live) (hne : x ≠ id) :
    (s.heap x).lastNode.getD [] ∈ s.holders.erase ((s.heap id).lastNode.getD []) :=
  (holders_erase_perm hid).mem_iff.mpr (mem_map_of_mem ((mem_erase_of_ne hne).mpr hx))

end

theorem count_privatePages (hid : id ∈ s.live) (table : ℕ → List ℕ) (x : ℕ) :
    (s.privatePages cfg table).count x = ((table id).drop ((s.heap id).sharedPages cfg)).count x +
      ((s.live.erase id).flatMap fun id => (table id).drop ((s.heap id).sharedPages cfg)).count x := by
  have hperm := (perm_cons_erase hid).flatMap_right
    fun id => (table id).drop ((s.heap id).sharedPages cfg)
  rw [privatePages, hperm.count_eq, flatMap_cons, count_append]

section

variable (h : s.Owned cfg N c table)

include h

theorem Owned.pageUses_le (x : ℕ) :
    s.memory.pageUses cfg c x + (s.privatePages cfg table).count x ≤ 1 := by
  rw [h.pages]
  exact nodup_iff_count_le_one.mp (nodup_range') x

theorem Owned.memory_uses_le (x : ℕ) : s.memory.pageUses cfg c x ≤ 1 :=
  (Nat.le_add_right _ _).trans (h.pageUses_le x)

theorem Owned.pageUses_live_le (hid : id ∈ s.live) (x : ℕ) :
    s.memory.pageUses cfg c x + ((table id).drop ((s.heap id).sharedPages cfg)).count x ≤ 1 := by
  have h1 := h.pageUses_le x
  rw [count_privatePages hid] at h1
  omega

theorem Owned.setMemory (hm : m.Caching cfg c' s.holders) (hkeep : Keeps s.holders c c')
    (hrows : m.rows = s.memory.rows)
    (huses : ∀ x, m.pageUses cfg c' x = s.memory.pageUses cfg c x) :
    ({ s with memory := m } : ServingState η β).Owned cfg N c' table where
  base := h.base.setMemory ⟨hm.wf, hm.pageSize⟩
  plain := h.plain
  caching := hm
  admitted id hid := (h.admitted id hid).keeps (hkeep _ (mem_holders (mem_append_left _ hid)))
  tabled id hid := (h.tabled id hid).keeps (hkeep _ (mem_holders (mem_append_right _ hid)))
    fun j => congrArg (fun p : ReqToTokenPool => p.reqToToken (s.heap id).row j) hrows
  rows := by
    rw [hrows]
    exact h.rows
  pages x := (congrArg (· + _) (huses x)).trans (h.pages x)

theorem Owned.setLive (hid : id ∈ s.live)
    (ht : ({ s.setReq id r with memory := m } : ServingState η β).Consistent cfg)
    (henc : r.encoderLen = (s.heap id).encoderLen)
    (hm : m.Caching cfg c' (r.lastNode.getD [] :: s.holders.erase ((s.heap id).lastNode.getD [])))
    (hkeep : Keeps s.holders c c') (htab : r.Tabled cfg c' m.rows P)
    (hrow : r.row = (s.heap id).row)
    (huses : ∀ x, m.pageUses cfg c' x + (P.drop (r.sharedPages cfg)).count x =
      s.memory.pageUses cfg c x + ((table id).drop ((s.heap id).sharedPages cfg)).count x)
    (hothers : ∀ i ≠ (s.heap id).row, ∀ j, m.rows.reqToToken i j = s.memory.rows.reqToToken i j)
    (hfree : m.rows.freeSlots = s.memory.rows.freeSlots) :
    ({ s.setReq id r with memory := m } : ServingState η β).Owned cfg N c'
      (Function.update table id P) := by
  have hnd := h.base.queues.nodup_canRun_live
  have hmem : id ∈ s.canRunList ++ s.live := mem_append_right _ hid
  have hheap : ∀ x, x ≠ id → (s.setReq id r).heap x = s.heap x := fun x hx => heap_setReq_of_ne hx r
  have hrows : ∀ x ∈ s.live, ((s.setReq id r).heap x).row = (s.heap x).row := by
    intro x hx
    by_cases hxid : x = id
    · rw [hxid, heap_setReq_self, hrow]
    · rw [hheap x hxid]
  refine ⟨ht, fun x hx => ?_, hm.perm ?_, fun x hx => ?_, fun x hx => ?_, ?_, fun x => ?_⟩
  · by_cases hxid : x = id
    · have := h.plain x hx
      rw [hxid] at this ⊢
      rwa [heap_setReq_self, henc]
    · rw [hheap x hxid]
      exact h.plain x hx
  · -- the lock of `id` moved
    have hnew := (perm_cons_erase hmem).map fun x => ((s.setReq id r).heap x).lastNode.getD []
    refine Perm.trans (.cons _ (holders_erase_perm hmem)) (.trans (.of_eq ?_) hnew.symm)
    rw [map_cons, heap_setReq_self]
    exact congrArg _ (map_congr_left fun x hx => by
      rw [hheap x ((Nodup.mem_erase_iff hnd).mp hx).1])
  · have hxid : x ≠ id := h.base.queues.ne_canRun_live hx hid
    have hadm := (h.admitted x hx).keeps (hkeep _ (mem_holders (mem_append_left _ hx)))
    rwa [hheap x hxid, Function.update_of_ne hxid]
  · by_cases hxid : x = id
    · rw [hxid, heap_setReq_self, Function.update_self]
      exact htab
    · rw [hheap x hxid, Function.update_of_ne hxid]
      refine (h.tabled x hx).keeps (hkeep _ (mem_holders (mem_append_right _ hx)))
        (hothers _ fun heq => hxid ?_)
      have hlive := (nodup_append.mp h.rows).2.1
      exact (nodup_map_iff_inj_on h.base.queues.nodup_live).mp hlive x hx id hid heq
  · change (m.rows.freeSlots ++ s.live.map fun x => ((s.setReq id r).heap x).row).Nodup
    rw [hfree, map_congr_left hrows]
    exact h.rows
  · have hcount := h.pages x
    rw [count_privatePages hid] at hcount
    have hu := huses x
    rw [count_privatePages (s := { s.setReq id r with memory := m }) hid]
    have hrest : ((s.live.erase id).flatMap fun x => (Function.update table id P x).drop
        (((s.setReq id r).heap x).sharedPages cfg)) =
        (s.live.erase id).flatMap fun x => (table x).drop ((s.heap x).sharedPages cfg) := by
      refine flatMap_congr fun y hy => ?_
      have hne := ((Nodup.mem_erase_iff h.base.queues.nodup_live).mp hy).1
      rw [hheap y hne, Function.update_of_ne hne]
    change m.pageUses cfg c' x + (((Function.update table id P id).drop
      (((s.setReq id r).heap id).sharedPages cfg)).count x + count x ((s.live.erase id).flatMap
        fun x => (Function.update table id P x).drop (((s.setReq id r).heap x).sharedPages cfg))) = _
    rw [hrest, heap_setReq_self, Function.update_self]
    omega

/-- A live request left with its row, and its own pages went to the tree or the allocator. -/
theorem Owned.dropLive (hid : id ∈ s.live) (ht : t.Consistent cfg)
    (hlive : t.live = s.live.erase id) (hcan : t.canRunList = s.canRunList)
    (hwait : ∀ x ∈ t.waitingQueue, x ∈ s.waitingQueue ∨ x = id)
    (hheap : ∀ x, x ≠ id → t.heap x = s.heap x)
    (henc : (t.heap id).encoderLen = (s.heap id).encoderLen)
    (hm : t.memory.Caching cfg c' (s.holders.erase ((s.heap id).lastNode.getD [])))
    (hkeep : Keeps (s.holders.erase ((s.heap id).lastNode.getD [])) c c')
    (hrows : t.memory.rows = s.memory.rows.freeRow (s.heap id).row)
    (huses : ∀ x, t.memory.pageUses cfg c' x =
      s.memory.pageUses cfg c x + ((table id).drop ((s.heap id).sharedPages cfg)).count x) :
    t.Owned cfg N c' table := by
  have hndl := h.base.queues.nodup_live
  have hmem : id ∈ s.canRunList ++ s.live := mem_append_right _ hid
  have hnot : id ∉ s.canRunList := fun hc => h.base.queues.ne_canRun_live hc hid rfl
  have hof : ∀ x ∈ t.live, x ∈ s.live ∧ x ≠ id := fun x hx => by
    rw [hlive] at hx
    exact ⟨mem_of_mem_erase hx, ((Nodup.mem_erase_iff hndl).mp hx).1⟩
  refine ⟨ht, fun x hx => ?_, hm.perm ?_, fun x hx => ?_, fun x hx => ?_, ?_, fun x => ?_⟩
  · by_cases hxid : x = id
    · rw [hxid, henc]
      exact h.plain id (by simp [hid])
    · rw [hheap x hxid]
      refine h.plain x ?_
      simp only [mem_append] at hx ⊢
      rcases hx with (hx | hx) | hx
      · exact .inl (.inl ((hwait x hx).resolve_right hxid))
      · exact .inl (.inr (hcan ▸ hx))
      · exact .inr (hof x hx).1
  · refine (holders_erase_perm hmem).trans (.of_eq ?_)
    rw [holders, hcan, hlive, erase_append_right _ hnot]
    refine map_congr_left fun x hx => ?_
    rw [hheap x]
    rintro rfl
    rcases mem_append.mp hx with hx | hx
    · exact hnot hx
    · exact ((Nodup.mem_erase_iff hndl).mp hx).1 rfl
  · rw [hcan] at hx
    rw [hheap x (h.base.queues.ne_canRun_live hx hid)]
    exact (h.admitted x hx).keeps (hkeep _ (mem_holders_erase hmem (mem_append_left _ hx)
      (h.base.queues.ne_canRun_live hx hid)))
  · obtain ⟨hxl, hxid⟩ := hof x hx
    rw [hheap x hxid, hrows]
    exact (h.tabled x hxl).keeps
      (hkeep _ (mem_holders_erase hmem (mem_append_right _ hxl) hxid)) fun _ => rfl
  · rw [hrows, hlive]
    have hmap : (s.live.erase id).map (fun x => (t.heap x).row) =
        (s.live.erase id).map fun x => (s.heap x).row :=
      map_congr_left fun x hx => by rw [hheap x ((Nodup.mem_erase_iff hndl).mp hx).1]
    have hperm := ((perm_cons_erase hid).map fun id => (s.heap id).row).append_left
      s.memory.rows.freeSlots
    rw [hmap, ReqToTokenPool.freeRow, append_assoc]
    exact (hperm.nodup_iff).mp h.rows
  · have hcount := h.pages x
    rw [count_privatePages hid] at hcount
    have hu := huses x
    have hrest : t.privatePages cfg table =
        (s.live.erase id).flatMap fun x => (table x).drop ((s.heap x).sharedPages cfg) := by
      rw [privatePages, hlive]
      refine flatMap_congr fun y hy => ?_
      rw [hheap y ((Nodup.mem_erase_iff hndl).mp hy).1]
    rw [hrest]
    omega

theorem Owned.setFields (hid : id ∈ s.live) (ht : (s.setReq id r).Consistent cfg)
    (henc : r.encoderLen = (s.heap id).encoderLen) (hnode : r.lastNode = (s.heap id).lastNode)
    (hcpl : r.cacheProtectedLen = (s.heap id).cacheProtectedLen)
    (htab : r.Tabled cfg c s.memory.rows (table id)) (hrow : r.row = (s.heap id).row) :
    (s.setReq id r).Owned cfg N c (Function.update table id (table id)) := by
  refine h.setLive hid ht henc (h.caching.perm ?_) (fun _ _ _ _ => rfl) htab hrow (fun x => ?_)
    (fun _ _ _ => rfl) rfl
  · rw [hnode]
    exact perm_cons_erase (mem_holders (mem_append_right _ hid))
  · rw [MemReq.sharedPages, hcpl, MemReq.sharedPages]

end

theorem rollback_slots (hps : 0 < cfg.pageSize) (h : s.Owned cfg N c table) (hid : id ∈ s.live)
    {a : ℕ} (hka : (s.heap id).sharedPages cfg ≤ a)
    (hkv : a * cfg.pageSize ≤ (s.heap id).kvCommittedLen) :
    ((s.memory.rows.slice (s.heap id).row (a * cfg.pageSize) (s.heap id).kvCommittedLen).filter
      (· ≠ 0)) = laid cfg.pageSize ((table id).drop a)
        ((s.heap id).kvCommittedLen - a * cfg.pageSize) := by
  have hl := h.tabled id hid
  rw [(ReqToTokenPool.slice_of_slice hkv).2, hl.table, drop_laid hps, filter_eq_self]
  intro x hx
  -- page zero belongs to nobody
  obtain ⟨i, hi, rfl⟩ := mem_map.mp hx
  have hlen := length_drop_laid hps hl.length hkv
  have hlt : i / cfg.pageSize < ((table id).drop a).length := by
    rw [hlen]
    exact div_lt_pageCount hps (mem_range.mp hi)
  have hmem : ((table id).drop a)[i / cfg.pageSize] ∈ (table id).drop a := getElem_mem _
  have hown : 0 < (s.privatePages cfg table).count ((table id).drop a)[i / cfg.pageSize] := by
    rw [count_privatePages hid, count_drop hka]
    have := count_pos_iff.mpr hmem
    omega
  have hrange : 0 < (range' 1 N).count ((table id).drop a)[i / cfg.pageSize] := by
    rw [← h.pages]
    omega
  have hpos := (mem_range'_1.mp (count_pos_iff.mp hrange)).1
  rw [laidAt, getD_eq_getElem _ _ hlt]
  have := Nat.mul_pos hpos hps
  exact decide_eq_true (by omega)

section

variable (h : s.Owned cfg N c table)

include h

theorem rollback_pages (hid : id ∈ s.live) {kept : ℕ} (hcpl : (s.heap id).cacheProtectedLen ≤ kept)
    (hle : kept ≤ (s.heap id).kvCommittedLen)
    (haligned : kept % cfg.pageSize = 0 ∨ kept = (s.heap id).kvCommittedLen) :
    ∃ P Q n, (s.memory.rows.slice (s.heap id).row kept (s.heap id).kvCommittedLen).filter (· ≠ 0) =
        laid cfg.pageSize Q n ∧
      Q.length = pageCount cfg.pageSize n ∧ P.length = pageCount cfg.pageSize kept ∧
      laid cfg.pageSize P kept = laid cfg.pageSize (table id) kept ∧
      (∀ i < (s.heap id).sharedPages cfg, P.getD i 0 = (table id).getD i 0) ∧
      ∀ x, (P.drop ((s.heap id).sharedPages cfg)).count x + Q.count x =
        ((table id).drop ((s.heap id).sharedPages cfg)).count x := by
  have hps := h.caching.pageSize_pos
  have hl := h.tabled id hid
  rcases haligned with hmod | hsame
  · obtain ⟨a, rfl⟩ : ∃ a, kept = a * cfg.pageSize :=
      ⟨kept / cfg.pageSize, (Nat.div_mul_cancel (Nat.dvd_of_mod_eq_zero hmod)).symm⟩
    have hka : (s.heap id).sharedPages cfg ≤ a := by
      rw [MemReq.sharedPages, ← Nat.mul_div_cancel a hps]
      exact Nat.div_le_div_right hcpl
    have haP : a ≤ (table id).length := by
      rw [hl.length, ← pageCount_mul hps a]
      exact pageCount_mono hle
    refine ⟨(table id).take a, (table id).drop a, (s.heap id).kvCommittedLen - a * cfg.pageSize,
      rollback_slots hps h hid hka hle, length_drop_laid hps hl.length hle, ?_,
      laid_take hps le_rfl, fun i hi => ?_, fun x => ?_⟩
    · rw [pageCount_mul hps, length_take, Nat.min_eq_left haP]
    · rw [getD_eq_getElem?_getD, getElem?_take_of_lt (by omega), ← getD_eq_getElem?_getD]
    · rw [drop_take, count_drop hka]
      rfl
  · subst hsame
    refine ⟨table id, [], 0, ?_, (pageCount_zero hps).symm, hl.length, rfl,
      fun _ _ => rfl, fun x => by simp⟩
    rw [ReqToTokenPool.slice_of_le _ le_rfl]
    rfl

theorem Owned.rollback {outputIds : List Token} (hop : s.PageSafe cfg (.rollback id outputIds))
    (heq : t = { s.setReq id (s.memory.rollback (s.heap id) (s.heap id).row outputIds).1 with
      memory := (s.memory.rollback (s.heap id) (s.heap id).row outputIds).2 })
    (ht : t.Consistent cfg) : ∃ P, t.Owned cfg N c (Function.update table id P) := by
  subst heq
  obtain ⟨⟨hid, hkv, hne, hle, hpre⟩, henc, hfill, haligned⟩ := hop
  have hl := h.tabled id hid
  have hpos := length_pos_of_ne_nil hne
  simp only [MemReq.tokens, length_append] at hkv
  set kept := (s.heap id).originInputIds.length + (outputIds.length - 1) with hkept
  have hkv' : (s.heap id).kvCommittedLen - ((s.heap id).outputIds.length - outputIds.length) =
      kept := by omega
  have hstop : kept + ((s.heap id).outputIds.length - outputIds.length) =
      (s.heap id).kvCommittedLen := by omega
  have hcpl : (s.heap id).cacheProtectedLen ≤ kept := (hl.cached.trans hl.fill).trans hfill
  -- the tokens below the cut stay
  have htake : ((s.heap id).originInputIds ++ outputIds).take kept = (s.heap id).tokens.take kept := by
    rw [MemReq.tokens, hkept, take_length_add_append, take_length_add_append,
      ← dropLast_eq_take, prefix_iff_eq_take.mp hpre, length_dropLast]
  have htake' : ∀ n ≤ kept, ((s.heap id).originInputIds ++ outputIds).take n = (s.heap id).tokens.take n := by
    intro n hn
    have := congrArg (take n) htake
    rwa [take_take, take_take, Nat.min_eq_left hn] at this
  obtain ⟨P, Q, n, hslots, hQ, hPlen, hP, hget, hcount⟩ :=
    rollback_pages h hid hcpl (by omega) (haligned.imp_right fun _ => by omega)
  have hone := h.pageUses_live_le hid
  simp only [PagedMemory.pageUses] at hone
  obtain ⟨hm, hheld⟩ := h.caching.free hQ fun x => by
    have := hone x
    have := hcount x
    omega
  refine ⟨P, ?_⟩
  simp only [PagedMemory.rollback, ← hkept, hkv', hstop, hslots] at ht ⊢
  refine h.setLive hid ht rfl (hm.perm ?_) (fun _ _ _ _ => rfl) ?_ rfl (fun x => ?_)
    (fun _ _ _ => rfl) rfl
  · exact perm_cons_erase (mem_holders (mem_append_right _ hid))
  · constructor
    · rw [hP, ← take_laid (by omega : kept ≤ (s.heap id).kvCommittedLen), ← hl.table]
      exact (ReqToTokenPool.slice_of_slice (by omega : kept ≤ (s.heap id).kvCommittedLen)).1
    · exact hPlen
    · refine (hl.shares.table hget).congr rfl rfl rfl ?_ (htake' _ hcpl)
      simp only [MemReq.tokens, length_append]
      omega
    · exact hl.prefixIndices
    · exact hl.cached
    · exact hl.fill.trans hfill
    · exact hl.fill
    · dsimp only [MemReq.tokens]
      rw [prefix_iff_eq_take, htake' _ hfill]
      exact prefix_iff_eq_take.mp hl.tokens
    · dsimp only
      omega
  · have := hheld x
    have := hcount x
    simp only [PagedMemory.pageUses]
    dsimp only [MemReq.sharedPages] at *
    omega

theorem Owned.released (hid : id ∈ s.live)
    (hkv : (s.heap id).kvCommittedLen ≤ (s.heap id).tokens.length) {isInsert : Bool}
    (hm : m = s.memory.cacheFinishedReq cfg (s.heap id) (s.heap id).row isInsert) :
    ∃ c', Keeps s.holders c c' ∧ ({ m with rows := s.memory.rows.freeRow (s.heap id).row } :
        PagedMemory η β).Caching cfg c' (s.holders.erase ((s.heap id).lastNode.getD [])) ∧
      (∀ x, m.pageUses cfg c' x =
        s.memory.pageUses cfg c x + ((table id).drop ((s.heap id).sharedPages cfg)).count x) ∧
      m.rows = s.memory.rows ∧
      m.allocator.isNotInFreeGroup = s.memory.allocator.isNotInFreeGroup := by
  subst hm
  obtain ⟨c', hm, hkeep, huses, hrows, hgroup⟩ := h.caching.cacheFinishedReq (h.tabled id hid) hkv
    (mem_holders (mem_append_right _ hid)) (h.pageUses_live_le hid) isInsert
  exact ⟨c', hkeep, { hm with }, huses, hrows, hgroup⟩

end

theorem row_of_reqPoolIdx {idx : ℕ} (hidx : r.reqPoolIdx = some idx) : r.row = idx := by
  rw [MemReq.row, hidx]
  rfl

theorem Owned.applyResult {op : ResultOp} (h : s.Owned cfg N c table) (hop : s.PageSafe cfg op)
    (hstep : s.applyResult cfg op = .ok t) : s.OwnedFrom cfg N t := by
  have ht := h.base.applyResult hop.1 hstep
  cases op with
  | sample id token =>
    cases hstep
    have hl := h.tabled id hop.1
    have htokens : (s.heap id).tokens <+:
        MemReq.tokens { s.heap id with outputIds := (s.heap id).outputIds ++ [token] } := by
      simp [MemReq.tokens]
    refine ⟨⟨_, _, h.setFields hop.1 ht rfl rfl rfl ?_ rfl⟩, rfl⟩
    refine { hl with
      shares := hl.shares.congr rfl rfl rfl (hl.shares.le.trans htokens.length_le) ?_
      tokens := hl.tokens.trans htokens }
    obtain ⟨rest, hrest⟩ := htokens
    rw [← hrest, take_append_of_le_length hl.shares.le]
  | cacheUnfinished id =>
    simp only [ServingState.applyResult] at hstep
    split at hstep
    · cases hstep
    next idx hidx =>
    split at hstep
    · cases hstep
    next r m hok =>
    cases hstep
    rw [← row_of_reqPoolIdx hidx] at hok
    obtain ⟨-, _, _, _, hr⟩ := serves_cacheUnfinishedReq h.base.serves hok
    obtain ⟨c', P, hm, hkeep, htab, hrow, huses, hothers, hfree, hgroup⟩ :=
      h.caching.cacheUnfinishedReq (h.tabled id hop.1.1) hop.1.2
        (mem_holders (mem_append_right _ hop.1.1)) (h.pageUses_live_le hop.1.1) hok
    exact ⟨⟨c', _, h.setLive hop.1.1 ht (by rw [hr]) hm hkeep htab hrow huses hothers hfree⟩, hgroup⟩
  | finish id isInsert =>
    simp only [ServingState.applyResult] at hstep
    split at hstep
    · cases hstep
    next r m hok =>
    cases hstep
    obtain ⟨idx, hidx, rfl, rfl⟩ := PagedMemory.releaseKvCache_ok hok
    rw [← row_of_reqPoolIdx hidx] at ht ⊢
    obtain ⟨c', hkeep, hm, huses, hrows, hgroup⟩ := h.released hop.1.1 hop.1.2 rfl
    rw [hrows] at ht ⊢
    refine ⟨⟨c', table, h.dropLive hop.1.1 ht rfl rfl (fun _ => .inl)
      (fun x hx => heap_setReq_of_ne hx _) ?_ hm (fun p hp => hkeep p (mem_of_mem_erase hp))
      rfl huses⟩, hgroup⟩
    rw [heap_setReq_self]
  | rollback id outputIds =>
    simp only [ServingState.applyResult] at hstep
    split at hstep
    · cases hstep
    next idx hidx =>
    cases hstep
    rw [← row_of_reqPoolIdx hidx] at ht ⊢
    obtain ⟨P, hown⟩ := h.rollback hop rfl ht
    exact ⟨⟨c, _, hown⟩, by simp [PagedMemory.rollback]⟩

end ServingState

end LLM42
