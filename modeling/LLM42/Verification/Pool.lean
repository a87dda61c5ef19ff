import LLM42.Verification.Info

/-! # Verification pool

`FixedSizeVerificationPool` of `llm42/llm42_worker.py`: KV slots and page-table rows taken out of
the allocators once, so that every verification pass has the same shape. -/

namespace LLM42

/-- Pre-allocated dummy rows and padding slots, in the sizes the constructor gives them. -/
structure FixedSizeVerificationPool where
  fixedSize : ℕ
  windowSize : ℕ
  dummyInputIds : List Token
  dummyCacheLocs : List ℕ
  dummyReqPoolIndices : List ℕ
  paddingCachePool : Option (List ℕ)
  fixedSize_pos : 0 < fixedSize
  windowSize_pos : 0 < windowSize
  length_dummyInputIds : dummyInputIds.length = fixedSize * windowSize
  length_dummyCacheLocs : dummyCacheLocs.length = fixedSize * windowSize
  length_dummyReqPoolIndices : dummyReqPoolIndices.length = fixedSize
  length_paddingCachePool : ∀ l, paddingCachePool = some l → l.length = fixedSize * (windowSize - 1)
  paddingCachePool_none : paddingCachePool = none → fixedSize * (windowSize - 1) = 0

namespace FixedSizeVerificationPool

def slots (p : FixedSizeVerificationPool) : List ℕ :=
  p.dummyCacheLocs ++ p.paddingCachePool.getD []

def writeDummyRows (windowSize : ℕ) (locs : List ℕ) : ℕ → List ℕ → ReqToTokenPool → ReqToTokenPool
  | _, [], rows => rows
  | i, row :: rest, rows =>
    writeDummyRows windowSize locs (i + 1) rest
      (rows.write row 0 ((locs.drop (i * windowSize)).take windowSize))

/-- The constructor, with the worker's handler around it: a failure leaves no pool, but what was
allocated before it is not given back. -/
def create (fixedSize windowSize : ℕ) (rows : ReqToTokenPool) (a : TokenToKVPoolAllocator) :
    Option FixedSizeVerificationPool × ReqToTokenPool × TokenToKVPoolAllocator :=
  match ha : a.alloc (fixedSize * windowSize) with
  | (b, none) => (none, rows, b)
  | (b, some locs) =>
    if hpos : locs = [] then (none, rows, b)
    else if hrows : rows.freeSlots.length < fixedSize then (none, rows, b)
    else
      let indices := rows.freeSlots.take fixedSize
      let rows' := writeDummyRows windowSize locs 0 indices
        { rows with freeSlots := rows.freeSlots.drop fixedSize }
      have hlocs : locs.length = fixedSize * windowSize := (TokenToKVPoolAllocator.alloc_some ha).2
      have hmul : fixedSize * windowSize ≠ 0 := by
        rw [← hlocs]
        simpa using hpos
      have hfixed : 0 < fixedSize := Nat.pos_of_ne_zero fun h => hmul (by simp [h])
      have hwindow : 0 < windowSize := Nat.pos_of_ne_zero fun h => hmul (by simp [h])
      have hindices : indices.length = fixedSize := by
        simp only [indices, List.length_take]
        omega
      let pool (padding : Option (List ℕ))
          (hsome : ∀ l, padding = some l → l.length = fixedSize * (windowSize - 1))
          (hnone : padding = none → fixedSize * (windowSize - 1) = 0) : FixedSizeVerificationPool :=
        { fixedSize, windowSize
          dummyInputIds := List.replicate (fixedSize * windowSize) dummyTokenId
          dummyCacheLocs := locs
          dummyReqPoolIndices := indices
          paddingCachePool := padding
          fixedSize_pos := hfixed
          windowSize_pos := hwindow
          length_dummyInputIds := by simp
          length_dummyCacheLocs := hlocs
          length_dummyReqPoolIndices := hindices
          length_paddingCachePool := hsome
          paddingCachePool_none := hnone }
      if hpad : 0 < fixedSize * (windowSize - 1) then
        match hc : b.alloc (fixedSize * (windowSize - 1)) with
        | (c, none) => (none, rows', c)
        | (c, some padding) =>
          (some (pool padding (fun _ hl => Option.some.inj hl ▸
            (TokenToKVPoolAllocator.alloc_some hc).2) nofun), rows', c)
      else (some (pool none nofun fun _ => by omega), rows', b)

def getDummyData (p : FixedSizeVerificationPool) (numDummies : ℕ) : Except VerifyError DummyData :=
  if p.fixedSize < numDummies then .error (.dummyPoolExhausted numDummies p.fixedSize)
  else .ok
    { inputIds := p.dummyInputIds.take (numDummies * p.windowSize)
      cacheLocs := p.dummyCacheLocs.take (numDummies * p.windowSize)
      reqPoolIndices := p.dummyReqPoolIndices.take numDummies }

def getPaddingCacheLocs (p : FixedSizeVerificationPool) (numSlots : ℕ) :
    Except VerifyError (List ℕ) :=
  match p.paddingCachePool with
  | none => .error (.paddingPoolMissing numSlots)
  | some pool =>
    if pool.length < numSlots then .error (.paddingPoolExhausted numSlots pool.length)
    else .ok (pool.take numSlots)

theorem writeDummyRows_freeSlots (windowSize : ℕ) (locs : List ℕ) (i : ℕ) (indices : List ℕ)
    (rows : ReqToTokenPool) :
    (writeDummyRows windowSize locs i indices rows).freeSlots = rows.freeSlots := by
  induction indices generalizing i rows with
  | nil => rfl
  | cons row rest ih => exact ih (i + 1) _

theorem writeDummyRows_other (windowSize : ℕ) (locs : List ℕ) (i : ℕ) (indices : List ℕ)
    (rows : ReqToTokenPool) {row : ℕ} (h : row ∉ indices) :
    (writeDummyRows windowSize locs i indices rows).reqToToken row = rows.reqToToken row := by
  induction indices generalizing i rows with
  | nil => rfl
  | cons r rest ih =>
    obtain ⟨hne, hrest⟩ := not_or.mp (List.mem_cons.not.mp h)
    rw [writeDummyRows, ih (i + 1) _ hrest]
    funext j
    simp [ReqToTokenPool.write, hne]

variable {pool : FixedSizeVerificationPool} {fixedSize windowSize : ℕ}
  {a a' : TokenToKVPoolAllocator} {rows rows' : ReqToTokenPool}

section

variable (h : create fixedSize windowSize rows a = (some pool, rows', a'))

include h

/-- The pool's slots and rows come out of the free ones. -/
theorem create_some : (pool.slots ++ a'.held).Perm a.held ∧
      pool.dummyReqPoolIndices ++ rows'.freeSlots = rows.freeSlots ∧ a'.size = a.size ∧
      a'.isNotInFreeGroup = a.isNotInFreeGroup := by
  unfold create at h
  split at h
  · simp at h
  next b locs ha =>
  obtain ⟨hperm, _⟩ := TokenToKVPoolAllocator.alloc_some ha
  have hsize := a.alloc_size (fixedSize * windowSize)
  have hgroup := a.alloc_isNotInFreeGroup (fixedSize * windowSize)
  rw [ha] at hsize hgroup
  split at h
  · simp at h
  split at h
  · simp at h
  dsimp only at h
  split at h
  · split at h
    · simp at h
    next c padding hc =>
    obtain ⟨hperm', _⟩ := TokenToKVPoolAllocator.alloc_some hc
    have hsize' := b.alloc_size (fixedSize * (windowSize - 1))
    have hgroup' := b.alloc_isNotInFreeGroup (fixedSize * (windowSize - 1))
    rw [hc] at hsize' hgroup'
    cases h
    refine ⟨?_, ?_, hsize'.trans hsize, hgroup'.trans hgroup⟩
    · simp only [slots, Option.getD_some]
      rw [List.append_assoc]
      exact (hperm'.append_left _).trans hperm
    · rw [writeDummyRows_freeSlots]
      exact List.take_append_drop _ _
  · cases h
    refine ⟨?_, ?_, hsize, hgroup⟩
    · simpa [slots] using hperm
    · rw [writeDummyRows_freeSlots]
      exact List.take_append_drop _ _

theorem create_reqToToken {row : ℕ} (hrow : row ∉ pool.dummyReqPoolIndices) :
    rows'.reqToToken row = rows.reqToToken row := by
  unfold create at h
  split at h
  · simp at h
  split at h
  · simp at h
  split at h
  · simp at h
  dsimp only at h
  split at h
  · split at h
    · simp at h
    · cases h
      exact writeDummyRows_other _ _ _ _ _ hrow
  · cases h
    exact writeDummyRows_other _ _ _ _ _ hrow

end

theorem create_sizes {rows : ReqToTokenPool} {a : TokenToKVPoolAllocator}
    (h : (create fixedSize windowSize rows a).1 = some pool) :
    pool.fixedSize = fixedSize ∧ pool.windowSize = windowSize := by
  unfold create at h
  split at h
  · cases h
  split at h
  · cases h
  split at h
  · cases h
  dsimp only at h
  split at h
  · split at h
    · cases h
    · cases h
      exact ⟨rfl, rfl⟩
  · cases h
    exact ⟨rfl, rfl⟩

end FixedSizeVerificationPool

end LLM42
