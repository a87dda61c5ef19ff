import LLM42.Serving.PageBatches

/-! # Page ownership over whole runs

From an empty pool on, whatever the order of admissions, chunks, decode steps, results, retractions
and evictions, every page has one owner, and the rows of the requests agree with the tree. -/

namespace LLM42

open Library List
open RadixCache (treePages nodePages)
open RadixState (chainConfig)

namespace ServingState

variable {η β : Type*} (cfg : RadixConfig η β)

/-- A server with prefix caching that has not served anything yet. -/
def createCaching (size numRows : ℕ) (needSort : Bool) : ServingState η β :=
  create cfg size numRows needSort (.radixCache false (RadixCache.reset cfg {}))

def ResultForward (s : ServingState η β) : ResultOp → Prop
  | .rollback _ _ => False
  | op => s.ResultAllowed op

instance (s : ServingState η β) (op : ResultOp) : Decidable (s.ResultForward op) := by
  delta ResultForward
  induction op using ResultOp.casesOn <;> infer_instance

instance (op : ServingOp) : Decidable (PlainPages cfg op) := by
  delta PlainPages
  induction op using ServingOp.casesOn <;> infer_instance

def privateSlots (s : ServingState η β) (id : ℕ) : List ℕ :=
  s.memory.rows.slice (s.heap id).row (s.heap id).cacheProtectedLen (s.heap id).kvAllocatedLen

variable {cfg} {s t : ServingState η β} {N : ℕ} {c : RadixCache η β} {table : ℕ → List ℕ} {id : ℕ}

theorem settled_createCaching (hps : 0 < cfg.pageSize) (size numRows : ℕ) (needSort : Bool) :
    (createCaching cfg size numRows needSort).Settled cfg (size / cfg.pageSize) := by
  have hstart : Started cfg (createCaching cfg size numRows needSort) :=
    ⟨hps, size, numRows, needSort, _, by simp [startCaches], rfl⟩
  have hbase := started_consistent hstart
  refine ⟨⟨RadixCache.reset cfg {}, fun _ => [], ⟨hbase, by simp [createCaching, create],
    ⟨rfl, ⟨RadixState.sound_reset _, ?_⟩, hbase.wf, hbase.pageSize⟩, by simp [createCaching, create],
    by simp [createCaching, create], ?_, fun x => ?_⟩⟩, ?_⟩
  · simp [RadixCache.WholePages, RadixCache.reset]
  · simp [createCaching, create, ReqToTokenPool.create, nodup_range]
  · have hheld : (createCaching cfg size numRows needSort).memory.allocator.held =
        range' 1 (size / cfg.pageSize) := KVAllocator.held_create size cfg.pageSize needSort
    rw [PagedMemory.pageUses, hheld]
    simp [treePages, RadixCache.reset, privatePages, createCaching, create]
  · exact KVAllocator.isNotInFreeGroup_create

theorem Owned.privateSlots (h : s.Owned cfg N c table) (hid : id ∈ s.live) :
    (pagesOf cfg.pageSize (s.privateSlots id)).Perm
      ((table id).drop ((s.heap id).sharedPages cfg)) := by
  have hps := h.caching.pageSize_pos
  have hl := h.tabled id hid
  have hle : (s.heap id).sharedPages cfg * cfg.pageSize ≤ (s.heap id).kvCommittedLen := by
    rw [← hl.shares.aligned]
    exact hl.cached.trans hl.known
  have hnd : ((table id).drop ((s.heap id).sharedPages cfg)).Nodup :=
    nodup_iff_count_le_one.mpr fun x => (Nat.le_add_left _ _).trans (h.pageUses_live_le hid x)
  rw [ServingState.privateSlots, ← (h.base.live id hid).allocated, hl.shares.aligned,
    (ReqToTokenPool.slice_of_slice hle).2, hl.table, drop_laid hps]
  exact pagesOf_laid hps (length_drop_laid hps hl.length hle) hnd

theorem Owned.sharedNode (h : s.Owned cfg N c table) (hid : id ∈ s.live) {j : ℕ}
    (hj : j < (s.heap id).cacheProtectedLen) :
    ∃ e ∈ c.nodes, e.start ≤ j / cfg.pageSize ∧ j / cfg.pageSize < e.path.length ∧
      e.path <+: (s.heap id).lastNode.getD [] ∧
      e.path <+: (s.heap id).path cfg (s.heap id).cacheProtectedLen ∧
      e.data.lockRef = s.holders.countP (e.path <+: ·) ∧
      ((e.data.value[j / cfg.pageSize - e.start]?).bind (·[j % cfg.pageSize]?)) =
        some (s.memory.rows.reqToToken (s.heap id).row j) := by
  have hps := h.caching.pageSize_pos
  have hl := h.tabled id hid
  have hT := h.caching.paged.accounts.shaped
  have hlast : (s.heap id).lastNode.getD [] = (s.heap id).path cfg (s.heap id).cacheProtectedLen := by
    rw [hl.shares.node]
    rfl
  have hi : j / cfg.pageSize < (s.heap id).sharedPages cfg :=
    (Nat.div_lt_iff_lt_mul hps).mpr (hl.shares.aligned ▸ hj)
  have hstored := hl.shares.stored _ hi
  have hqlen : (((s.heap id).path cfg (s.heap id).cacheProtectedLen).take
      (j / cfg.pageSize + 1)).length = j / cfg.pageSize + 1 := by
    rw [length_take, hl.shares.aligned, MemReq.length_path hps (hl.shares.aligned ▸ hl.shares.le)]
    omega
  rw [RadixCache.contents, PathTree.valueAt, Option.join_eq_some_iff] at hstored
  obtain ⟨e, he, hcov, hv⟩ := PathTree.exists_of_cell hstored
  rw [hqlen, Nat.add_sub_cancel] at hv
  have hpath : e.path <+: (s.heap id).lastNode.getD [] := by
    have hq : ((s.heap id).path cfg (s.heap id).cacheProtectedLen).take (j / cfg.pageSize + 1) <+:
        (s.heap id).lastNode.getD [] := hlast ▸ take_prefix _ _
    rcases h.caching.paged.locked.holds _ (mem_holders (mem_append_right _ hid)) with
      hnil | ⟨f, hf, hfp⟩
    · rw [hnil, prefix_nil] at hq
      rw [hq] at hqlen
      cases hqlen
    · rw [← hfp] at hq ⊢
      exact hT.prefix_of_covers he hcov hf hq
  refine ⟨e, he, ?_, ?_, hpath, hlast ▸ hpath, h.caching.paged.locked.count e he, ?_⟩
  · have := hcov.1
    omega
  · have := hcov.2.length_le
    omega
  · have hrow := congrArg (·[j]?) hl.table
    have hjkv : j < (s.heap id).kvCommittedLen := hj.trans_le (hl.cached.trans hl.known)
    simp only [ReqToTokenPool.slice, laid, getElem?_map, Nat.sub_zero,
      getElem?_range' hjkv, getElem?_range hjkv, Option.map_some, Nat.zero_add,
      Nat.one_mul] at hrow
    rw [hv, Option.bind_some, hrow]
    simp [pageSlots, laidAt, getElem?_range (Nat.mod_lt j hps)]

theorem ResultForward.pageSafe {op : ResultOp} (h : s.ResultForward op) : s.PageSafe cfg op := by
  cases op with
  | rollback id outputIds => exact h.elim
  | _ => exact ⟨h, trivial⟩

/-- In every run of a server with prefix caching, every page is free, in one node of the tree, or
behind the shared part of one live request; the shared positions of a live request hold the slots
that locked nodes store for its tokens; and the prefix kept for the next chunk is the row. -/
theorem kv_pages_owned {size numRows : ℕ} {needSort : Bool} (hps : 0 < cfg.pageSize)
    (h : Reachable (step cfg) (· = createCaching cfg size numRows needSort)
      (fun s op => s.Allowed cfg ResultForward op ∧ PlainPages cfg op) s) :
    ∃ c, s.memory.cache = .radixCache false c ∧
      (∀ e ∈ c.nodes, e.data.value = (nodePages cfg.pageSize e).map (pageSlots cfg.pageSize)) ∧
      (s.memory.allocator.held ++ c.nodes.flatMap (nodePages cfg.pageSize) ++
        s.live.flatMap fun id => pagesOf cfg.pageSize (s.privateSlots id)).Perm
          (range' 1 (size / cfg.pageSize)) ∧
      (∀ id ∈ s.live, ∀ j < (s.heap id).cacheProtectedLen,
        ∃ e ∈ c.nodes, e.start ≤ j / cfg.pageSize ∧ j / cfg.pageSize < e.path.length ∧
          e.path <+: (s.heap id).lastNode.getD [] ∧
          e.path <+: (s.heap id).path cfg (s.heap id).cacheProtectedLen ∧
          e.data.lockRef = s.holders.countP (e.path <+: ·) ∧
          ((e.data.value[j / cfg.pageSize - e.start]?).bind (·[j % cfg.pageSize]?)) =
            some (s.memory.rows.reqToToken (s.heap id).row j)) ∧
      ∀ id ∈ s.live, (s.heap id).prefixIndices =
          s.memory.rows.slice (s.heap id).row 0 (s.heap id).prefixIndices.length ∧
        (s.heap id).prefixIndices.length ≤ (s.heap id).kvAllocatedLen := by
  have hsettled : s.Settled cfg (size / cfg.pageSize) := by
    refine h.invariant ?_ fun s op t hs hop hstep =>
      hs.step (hop.1.mono fun _ _ h => h.pageSafe) hop.2 hstep
    rintro s rfl
    exact settled_createCaching hps size numRows needSort
  obtain ⟨⟨c, table, hown⟩, -⟩ := hsettled
  refine ⟨c, hown.caching.cache, hown.caching.paged.whole, ?_, fun id hid j hj =>
    hown.sharedNode hid hj, fun id hid => ⟨(hown.tabled id hid).prefixIndices, ?_⟩⟩
  · have hprivate : (s.live.flatMap fun id => pagesOf cfg.pageSize (s.privateSlots id)).Perm
        (s.privatePages cfg table) :=
      Perm.flatMap_left _ fun id hid => hown.privateSlots hid
    rw [perm_iff_count]
    intro x
    rw [← hown.pages x, count_append, count_append, hprivate.count_eq]
    rfl
  · rw [← (hown.base.live id hid).allocated]
    exact (hown.tabled id hid).known

/-- A request of ten tokens in two chunks, and another one with the same prompt. -/
def sharedPromptEvents : List ServingOp :=
  [.receive { originInputIds := [1, 2, 3, 4, 5, 6, 7, 8, 9, 10] },
    .receive { originInputIds := [1, 2, 3, 4, 5, 6, 7, 8, 9, 10] },
    .admitReq 0 (some 6), .extend [0] fun _ => 0, .results false [.cacheUnfinished 0],
    .nextChunk 0 none, .admitReq 1 none, .extend [0, 1] fun _ => 0,
    .results false [.sample 0 11, .cacheUnfinished 0, .sample 1 11, .cacheUnfinished 1],
    .decode [0, 1] fun _ => 0]

/-- Two requests that prefill one prompt: both share the pages of the first. -/
theorem kv_pages_owned_sharedPrompt :
    ∃ s, Reachable (step (chainConfig 4)) (· = createCaching (chainConfig 4) 40 2 false)
        (fun s op => s.Allowed (chainConfig 4) ResultForward op ∧ PlainPages (chainConfig 4) op) s ∧
      (s.heap 0).cacheProtectedLen = 8 ∧ (s.heap 1).cacheProtectedLen = 8 ∧
      ∃ c, s.memory.cache = .radixCache false c ∧
        (s.memory.allocator.held ++ c.nodes.flatMap (nodePages 4) ++
          s.live.flatMap fun id => pagesOf 4 (s.privateSlots id)).Perm (range' 1 10) :=
  exists_reachable_imp (p := fun _ => _ ∧ _) rfl sharedPromptEvents (by decide +kernel)
    fun _ hs ⟨h0, h1⟩ =>
      have ⟨c, hc, _, hpages, _⟩ := kv_pages_owned (by decide) hs
      ⟨h0, h1, c, hc, hpages⟩

def ownedTwice (s : ServingState η β) (m x : ℕ) : Bool :=
  match s.memory.cache with
  | .radixCache false c => x ∈ c.nodes.flatMap (nodePages m) ∧ 0 ∈ s.live ∧
      x ∈ pagesOf m (s.privateSlots 0)
  | _ => false

/-- An image that fills a page: the page is cached, then the first decode step writes into it. -/
theorem kv_page_owned_twice :
    ∃ s, Reachable (step (chainConfig 4)) (· = createCaching (chainConfig 4) 8 1 false)
        (fun s op => s.Allowed (chainConfig 4) ResultForward op) s ∧
      s.ownedTwice 4 1 = true :=
  exists_reachable rfl
    [.receive { originInputIds := [1, 2, 3, 4, 5, 6, 7], encoderLen := 4 }, .admitReq 0 none,
      .extend [0] fun _ => 0, .results false [.sample 0 8, .cacheUnfinished 0],
      .decode [0] fun _ => 0] (by decide +kernel)

end ServingState

end LLM42
