import LLM42.Library.Holdings
import LLM42.Memory.Ownership

/-! # The memory ledger

Every slot is in the pool, owned by one request, or set aside; every row is free, assigned to one
request, or set aside; every locked path is counted in the tree. Each operation exchanges the
entries of one request. -/

namespace LLM42

open Library List ReqToTokenPool

/-- The books of the first `n` requests. `slotsAside` and `rowsAside` are held by nobody here:
the verification pool's share, and what an operation under way has taken already. -/
structure Ledger (slotsAside rowsAside : List ℕ) (n : ℕ) (kv : ReqId → KvFields) (m : Memory) :
    Prop where
  slots : (m.pooled ++ holdings n (fun i => m.owned (kv i)) ++ slotsAside).Perm
    (range' 1 m.allocator.size)
  rows : (m.rows.freeSlots ++ holdings n (fun i => (kv i).reqPoolIdx.toList) ++ rowsAside).Nodup
  locks : ∀ q ≠ [], passing q (holdings n fun i => (kv i).lockPaths) ≤ m.tree.lockAt q

namespace Ledger

variable {slotsAside slotsAside' rowsAside rowsAside' : List ℕ} {n i : ℕ}
  {kv kv' : ReqId → KvFields} {m m' : Memory} {row : ℕ} {extraKey : Option String}

section

variable (h : Ledger slotsAside rowsAside n kv m)

include h

theorem pos (hi : i < n) {x : ℕ} (hx : x ∈ m.owned (kv i)) : 0 < x := by
  have hmem : x ∈ range' 1 m.allocator.size := by
    rw [← h.slots.mem_iff]
    simp only [mem_append]
    exact .inl (.inr (mem_holdings.mpr ⟨i, hi, hx⟩))
  rw [mem_range'_1] at hmem
  omega

theorem length_le_depth (hi : i < n) {p key : List (Option String × Token)}
    (hp : p ∈ (kv i).lockPaths) (hkey : p <+: key) : p.length ≤ m.tree.depth key := by
  by_cases hne : p = []
  · simp [hne]
  · refine m.tree.length_le_depth p ?_ hkey
    refine lt_of_lt_of_le ?_ (h.locks p hne)
    rw [passing, countP_pos_iff]
    exact ⟨p, mem_holdings.mpr ⟨i, hi, hp⟩, by simp⟩

theorem nodup_rows : (holdings n fun i => (kv i).reqPoolIdx.toList).Nodup :=
  (nodup_append.mp (nodup_append.mp h.rows).1).2.1

theorem row_ne (hi : i < n) {j row : ℕ} (hj : j < n) (hne : j ≠ i)
    (hrow : (kv i).reqPoolIdx = some row) : (kv j).reqPoolIdx ≠ some row := by
  intro hrow'
  refine not_mem_of_nodup h.nodup_rows hi hj hne (x := row) ?_ ?_
  · simp [hrow]
  · simp [hrow']

theorem row_ne_aside (hi : i < n) (hrow : row ∈ rowsAside) : (kv i).reqPoolIdx ≠ some row := by
  intro hrow'
  refine (nodup_append.mp h.rows).2.2 row ?_ row hrow rfl
  refine mem_append_right _ (mem_holdings.mpr ⟨i, hi, ?_⟩)
  simp [hrow']

end

/-- Rewriting the row of one request does not move the slots of another. -/
theorem owned_eq {k : KvFields} (hk : k.reqPoolIdx ≠ some row)
    (hrows : ∀ r, r ≠ row → m'.rows.reqToToken r = m.rows.reqToToken r) :
    m'.owned k = m.owned k := by
  unfold Memory.owned
  split
  · rfl
  next r hr =>
  have hne : r ≠ row := by
    rintro rfl
    exact hk hr
  exact slice_congr fun j _ _ => by rw [hrows r hne]

section

variable (h : Ledger slotsAside rowsAside n kv m)

include h

/-- The entries of request `i` are exchanged for others of the same total. -/
theorem exchange (hi : i < n) (hkv : ∀ j < n, j ≠ i → kv' j = kv j)
    (howned : ∀ j < n, j ≠ i → m'.owned (kv j) = m.owned (kv j))
    (hsize : m'.allocator.size = m.allocator.size)
    (hslots : (m'.owned (kv' i) ++ m'.pooled ++ slotsAside').Perm
      (m.owned (kv i) ++ m.pooled ++ slotsAside))
    (hrows : (m'.rows.freeSlots ++ (kv' i).reqPoolIdx.toList ++ rowsAside').Perm
      (m.rows.freeSlots ++ (kv i).reqPoolIdx.toList ++ rowsAside))
    (hlocks : ∀ q ≠ [], m.tree.lockAt q + passing q (kv' i).lockPaths ≤
      m'.tree.lockAt q + passing q (kv i).lockPaths) : Ledger slotsAside' rowsAside' n kv' m' := by
  constructor
  · have hx := holdings_exchange (f := fun j => m.owned (kv j))
      (g := fun j => m'.owned (kv' j)) hi fun j hj hne => by
        rw [hkv j hj hne, howned j hj hne]
    have h0 := h.slots
    rw [hsize]
    rw [perm_iff_count] at hx hslots h0 ⊢
    intro x
    have h1 := hx x
    have h2 := hslots x
    have h3 := h0 x
    simp only [count_append] at h1 h2 h3 ⊢
    omega
  · have hx := holdings_exchange (f := fun j => (kv j).reqPoolIdx.toList)
      (g := fun j => (kv' j).reqPoolIdx.toList) hi fun j hj hne => by rw [hkv j hj hne]
    refine Perm.nodup ?_ h.rows
    rw [perm_iff_count] at hx hrows ⊢
    intro x
    have h1 := hx x
    have h2 := hrows x
    simp only [count_append] at h1 h2 ⊢
    omega
  · intro q hq
    have hx := Perm.countP_eq (fun p => decide (q <+: p)) (holdings_exchange (f := fun j => (kv j).lockPaths)
      (g := fun j => (kv' j).lockPaths) hi fun j hj hne => by rw [hkv j hj hne])
    have h1 := h.locks q hq
    have h2 := hlocks q hq
    simp only [countP_append] at hx
    unfold passing at h1 h2 ⊢
    omega

theorem of_pool (hsize : m'.allocator.size = m.allocator.size)
    (hcells : m'.rows.reqToToken = m.rows.reqToToken)
    (hslots : (m'.pooled ++ slotsAside').Perm (m.pooled ++ slotsAside))
    (hrows : (m'.rows.freeSlots ++ rowsAside').Perm (m.rows.freeSlots ++ rowsAside))
    (hlocks : ∀ q, m.tree.lockAt q ≤ m'.tree.lockAt q) : Ledger slotsAside' rowsAside' n kv m' := by
  have howned : ∀ k, m'.owned k = m.owned k := by
    intro k
    unfold Memory.owned slice
    rw [hcells]
  constructor
  · have h0 := h.slots
    simp only [howned, hsize]
    rw [perm_iff_count] at hslots h0 ⊢
    intro x
    have h2 := hslots x
    have h3 := h0 x
    simp only [count_append] at h2 h3 ⊢
    omega
  · refine Perm.nodup ?_ h.rows
    rw [perm_iff_count] at hrows ⊢
    intro x
    have h2 := hrows x
    simp only [count_append] at h2 ⊢
    omega
  · exact fun q hq => (h.locks q hq).trans (hlocks q)

theorem congr
    (hkv : ∀ j < n, m.owned (kv' j) = m.owned (kv j) ∧ (kv' j).reqPoolIdx = (kv j).reqPoolIdx ∧
      (kv' j).lockPaths = (kv j).lockPaths) : Ledger slotsAside rowsAside n kv' m := by
  refine ⟨?_, ?_, ?_⟩
  · rw [holdings_congr fun j hj => (hkv j hj).1]
    exact h.slots
  · rw [holdings_congr fun j hj => congrArg Option.toList (hkv j hj).2.1]
    exact h.rows
  · intro q hq
    rw [holdings_congr fun j hj => (hkv j hj).2.2]
    exact h.locks q hq

theorem keeps (hm : m.Keeps m') : Ledger slotsAside rowsAside n kv m' :=
  h.of_pool hm.size (by rw [hm.rows]) (hm.pooled.append_right _) (by rw [hm.rows]) hm.lockAt

/-- Allocated slots are set aside until they are written to a row. -/
theorem allocated {numTokens : ℕ} {locs : List ℕ} (hm : m.Allocated numTokens locs m') :
    Ledger (locs ++ slotsAside) rowsAside n kv m' := by
  refine h.of_pool hm.size (by rw [hm.rows]) ?_ (by rw [hm.rows]) hm.lockAt
  have hp := hm.pooled
  rw [perm_iff_count] at hp ⊢
  intro x
  have := hp x
  simp only [count_append] at this ⊢
  omega

end

/-- The last node of a request ends its shared prefix on the key of `tokenIds`. -/
def OnKey (k : KvFields) (extraKey : Option String) (tokenIds : List Token) : Prop :=
  match k.lastNode with
  | none => k.cacheProtectedLen = 0
  | some node => node = ⟨extraKey, tokenIds.take k.cacheProtectedLen⟩ ∧
      k.cacheProtectedLen ≤ tokenIds.length

theorem OnKey.mono {k : KvFields} {ids ids' : List Token} (h : OnKey k extraKey ids)
    (htake : ids'.take k.cacheProtectedLen = ids.take k.cacheProtectedLen)
    (hlen : k.cacheProtectedLen ≤ ids'.length) : OnKey k extraKey ids' := by
  unfold OnKey at h ⊢
  split
  next hn => simpa [hn] using h
  next node hn =>
    rw [hn] at h
    exact ⟨htake ▸ h.1, hlen⟩

section

variable (h : Ledger slotsAside rowsAside n kv m)

include h

theorem covered {r : Req} {tokenIds : List Token} (hi : i < n) (hr : r.kv = kv i)
    (hfreed : r.kv.kvCommittedFreed = false) (hlen : tokenIds.length = r.kv.kvCommittedLen)
    (hkey : OnKey r.kv r.extraKey tokenIds) : m.Covered r tokenIds := by
  refine ⟨hlen, ?_, fun h0 => absurd (h.pos hi (hr ▸ h0)) (lt_irrefl 0)⟩
  unfold OnKey at hkey
  split at hkey
  · omega
  next node hnode =>
  have hpath : node.key ∈ (kv i).lockPaths := by
    rw [← hr]
    simp [KvFields.lockPaths, hfreed, hnode]
  have hbegins : node.key <+: radixKey r.extraKey tokenIds := by
    rw [hkey.1, NodeRef.key, radixKey, radixKey, map_take]
    exact take_prefix _ _
  have hdepth := h.length_le_depth hi hpath hbegins
  have hnlen : node.key.length = r.kv.cacheProtectedLen := by
    rw [hkey.1, NodeRef.key, radixKey, length_map, length_take]
    omega
  omega

theorem released {r r' : Req} (hi : i < n) (hr : r.kv = kv i) (hrel : m.Released r row r' m')
    (hcov : m.Covered r ((r.originInputIds ++ r.outputIds).take r.kv.kvCommittedLen))
    (hkv : ∀ j < n, j ≠ i → kv' j = kv j) (hkv' : kv' i = Memory.releasedKv (kv i)) :
    Ledger slotsAside rowsAside n kv' m' := by
  have hrow : (kv i).reqPoolIdx = some row := hr ▸ hrel.row_eq
  refine h.exchange hi hkv ?_ hrel.size ?_ ?_ ?_
  · intro j hj hne
    refine owned_eq (h.row_ne hi hj hne hrow) fun k _ => ?_
    rw [hrel.rows]
    rfl
  · have hp := hrel.pooled hcov
    rw [hkv', ← hr]
    exact hp.append_right _
  · rw [hkv', hrow, hrel.rows]
    simp [freeRow, Memory.releasedKv]
  · intro q _
    have hl := hrel.lockAt q
    rw [hkv', ← hr]
    simpa [KvFields.lockPaths, Memory.releasedKv, passing] using hl

/-- `cache_unfinished_req` moves the prefill of one request to the tree. -/
theorem cached {r r' : Req} (hi : i < n) (hr : r.kv = kv i) (hrow : r.kv.reqPoolIdx = some row)
    (hfreed : r.kv.kvCommittedFreed = false) (hc : m.Cached r row r' m')
    (hcov : m.Covered r r.kv.fillIds) (hkv : ∀ j < n, j ≠ i → kv' j = kv j) (hkv' : kv' i = r'.kv) :
    Ledger slotsAside rowsAside n kv' m' := by
  refine h.exchange hi hkv ?_ hc.size ?_ ?_ ?_
  · intro j hj hne
    exact owned_eq (h.row_ne hi hj hne (hr ▸ hrow)) hc.other_rows
  · have hp := hc.pooled hrow hcov
    rw [hkv', ← hr]
    exact hp.append_right _
  · obtain ⟨_, _, _, heq⟩ := hc.req_eq
    rw [hkv', heq, hc.freeSlots, ← hr]
  · intro q hq
    have hl := hc.lockAt hfreed q hq
    rwa [hkv', ← hr]

end

/-- The slot of the next token, written right behind the committed ones. -/
theorem extended {row loc : ℕ} (h : Ledger (loc :: slotsAside) rowsAside n kv m) (hi : i < n)
    (hrow : (kv i).reqPoolIdx = some row)
    (hle : (kv i).cacheProtectedLen ≤ (kv i).kvCommittedLen)
    (hkv : ∀ j < n, j ≠ i → kv' j = kv j) {alloc : ℕ} {idx : ℤ}
    (hkv' : kv' i = { kv i with
      kvCommittedLen := (kv i).kvCommittedLen + 1, kvAllocatedLen := alloc, decodeBatchIdx := idx }) :
    Ledger slotsAside rowsAside n kv'
      { m with rows := m.rows.write row (kv i).kvCommittedLen [loc] } := by
  refine h.exchange hi hkv ?_ rfl ?_ ?_ ?_
  · intro j hj hne
    refine owned_eq (h.row_ne hi hj hne hrow) fun k hk => ?_
    funext c
    simp [write, hk]
  · have hslice : Memory.owned { m with rows := m.rows.write row (kv i).kvCommittedLen [loc] }
        (kv' i) = m.owned (kv i) ++ [loc] := by
      simp only [Memory.owned, hkv', hrow]
      rw [slice_succ _ hle, slice_write_of_le _ (le_refl _)]
      simp [write]
    rw [hslice]
    simp only [Memory.pooled, append_assoc, singleton_append]
    refine Perm.append_left _ ?_
    rw [← append_assoc]
    exact perm_middle.symm
  · rw [hkv']
    simp [write]
  · intro q _
    rw [hkv']
    rfl

/-- A request gets a row; behind the shared prefix it holds the slots allocated for it. -/
theorem assigned {locs indices : List ℕ} (h : Ledger (locs ++ slotsAside) (row :: rowsAside) n kv m)
    (hi : i < n) (hrow : (kv i).reqPoolIdx = none) (hkv : ∀ j < n, j ≠ i → kv' j = kv j)
    (hidx : (kv' i).reqPoolIdx = some row) (hstart : (kv' i).cacheProtectedLen = indices.length)
    (hstop : (kv' i).kvCommittedLen = indices.length + locs.length)
    (hpaths : (kv' i).lockPaths = (kv i).lockPaths) :
    Ledger slotsAside rowsAside n kv'
      { m with rows := (m.rows.write row 0 indices).write row indices.length locs } := by
  refine h.exchange hi hkv ?_ rfl ?_ ?_ ?_
  · intro j hj hne
    refine owned_eq (h.row_ne_aside hj (mem_cons_self (a := row))) fun k hk => ?_
    funext c
    simp [write, hk]
  · have hnone : m.owned (kv i) = [] := by simp [Memory.owned, hrow]
    have hlocs : Memory.owned
        { m with rows := (m.rows.write row 0 indices).write row indices.length locs } (kv' i) =
          locs := by
      simp only [Memory.owned, hidx, hstart, hstop]
      exact slice_write_self _ _ _ _
    rw [hnone, hlocs]
    simp only [Memory.pooled, nil_append]
    rw [perm_iff_count]
    intro x
    simp only [count_append]
    omega
  · rw [hidx, hrow]
    simp [write]
  · intro q _
    rw [hpaths]

section

variable (h : Ledger slotsAside rowsAside n kv m)

include h

/-- Rolled-back slots at the end of the committed ones return to the pool. -/
theorem rolledBack {row start stop : ℕ} (hi : i < n) (hrow : (kv i).reqPoolIdx = some row)
    (hstop : (kv i).kvCommittedLen = stop) (hstart : (kv i).cacheProtectedLen ≤ start)
    (hle : start ≤ stop) (hkv : ∀ j < n, j ≠ i → kv' j = kv j) {alloc : ℕ} {idx : ℤ}
    (hkv' : kv' i = { kv i with
      kvCommittedLen := start, kvAllocatedLen := alloc, decodeBatchIdx := idx }) :
    Ledger slotsAside rowsAside n kv' (m.free ((m.rows.slice row start stop).filter (· ≠ 0))) := by
  have hsplit : m.owned (kv i) = m.rows.slice row (kv i).cacheProtectedLen start ++
      m.rows.slice row start stop := by
    simp only [Memory.owned, hrow, hstop]
    exact (m.rows.slice_append hstart hle).symm
  have hfilter : (m.rows.slice row start stop).filter (· ≠ 0) = m.rows.slice row start stop := by
    rw [filter_eq_self]
    intro x hx
    have hpos := h.pos hi (x := x) (by rw [hsplit]; exact mem_append_right _ hx)
    simpa using hpos.ne'
  rw [hfilter]
  refine h.exchange hi hkv (fun _ _ _ => rfl) (by simp [Memory.free]) ?_ ?_ ?_
  · have hown : (m.free (m.rows.slice row start stop)).owned (kv' i) =
        m.rows.slice row (kv i).cacheProtectedLen start := by
      simp only [Memory.owned, hkv', hrow, Memory.free]
    have hp := m.pooled_free (m.rows.slice row start stop)
    rw [hown, hsplit]
    rw [perm_iff_count] at hp ⊢
    intro x
    have := hp x
    simp only [count_append] at this ⊢
    omega
  · rw [hkv']
    exact Perm.refl _
  · intro q _
    rw [hkv']
    exact le_rfl

theorem matched {ids : List Token} (hi : i < n) (hrow : (kv i).reqPoolIdx = none)
    (hpaths : (kv i).lockPaths = []) (hkv : ∀ j < n, j ≠ i → kv' j = kv j)
    (hrow' : (kv' i).reqPoolIdx = none)
    (hnode : (kv' i).lastNode = (m.tree.matchPrefix extraKey ids).2.1) :
    Ledger slotsAside rowsAside n kv' { m with
        tree := (m.tree.matchPrefix extraKey ids).2.2.incLockRef
          (m.tree.matchPrefix extraKey ids).2.1 } := by
  refine h.exchange hi hkv (fun _ _ _ => rfl) rfl ?_ ?_ ?_
  · simp [Memory.owned, hrow, hrow', Memory.pooled]
  · rw [hrow, hrow']
  · intro q hq
    have hinc := (m.tree.matchPrefix extraKey ids).2.2.lockAt_incLockRef _
      (m.tree.hasNode_matchPrefix extraKey ids) hq
    rw [TreeCache.lockAt_matchPrefix] at hinc
    have hle : passing q (kv' i).lockPaths ≤ passing q
        ((m.tree.matchPrefix extraKey ids).2.1.map NodeRef.key).toList := by
      unfold KvFields.lockPaths
      rw [hnode]
      split
      · exact Nat.zero_le _
      · exact le_rfl
    rw [hpaths]
    dsimp only
    omega

theorem received (hkv : ∀ j < n, kv' j = kv j) (hrow : (kv' n).reqPoolIdx = none)
    (hnode : (kv' n).lastNode = none) : Ledger slotsAside rowsAside (n + 1) kv' m := by
  have h' : Ledger slotsAside rowsAside n kv' m := h.congr fun j hj => by simp [hkv j hj]
  have hpaths : (kv' n).lockPaths = [] := by simp [KvFields.lockPaths, hnode]
  refine ⟨?_, ?_, ?_⟩
  · rw [holdings_succ]
    simpa [Memory.owned, hrow] using h'.slots
  · rw [holdings_succ]
    simpa [hrow] using h'.rows
  · rw [holdings_succ, hpaths, append_nil]
    exact h'.locks

end

end Ledger

end LLM42
