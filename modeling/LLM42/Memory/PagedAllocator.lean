import LLM42.Library.PagedLayout
import LLM42.Memory.Allocator

/-! # Paged KV allocator

`PagedTokenToKVPoolAllocator` of `mem_cache/allocator.py`. Page `p` is the block of slots
`p * page_size, …, p * page_size + page_size - 1`; page `0` is never handed out. Requests grow by
filling their last page and taking new pages from the front of the free list. -/

namespace LLM42

open Library List

/-- One request of an extend batch; `last_loc` is `-1` when nothing is cached. -/
structure ExtendEntry where
  prefixLen : ℕ
  seqLen : ℕ
  lastLoc : Option ℕ
deriving DecidableEq

namespace ExtendEntry

def numNewPages (pageSize : ℕ) (e : ExtendEntry) : ℕ :=
  pageCount pageSize e.seqLen - pageCount pageSize e.prefixLen

def nextLoc (e : ExtendEntry) : ℕ := e.lastLoc.elim 0 (· + 1)

/-- `alloc_extend_kernel` for one program; `pages` are the free pages from its
`new_page_start_loc` on. -/
def indices (pageSize : ℕ) (pages : List ℕ) (e : ExtendEntry) : List ℕ :=
  let numPart1 := min e.seqLen (pageCount pageSize e.prefixLen * pageSize) - e.prefixLen
  let part1 := (range numPart1).map (e.nextLoc + ·)
  if e.prefixLen + numPart1 = e.seqLen then part1
  else
    let numPart2 := e.seqLen / pageSize * pageSize - pageCount pageSize e.prefixLen * pageSize
    let part2 := (range numPart2).map fun i =>
      pages.getD (i / pageSize) 0 * pageSize + i % pageSize
    if e.prefixLen + numPart1 + numPart2 = e.seqLen then part1 ++ part2
    else
      let numPart3 := e.seqLen - e.seqLen / pageSize * pageSize
      let startLoc := pages.getD (e.numNewPages pageSize - 1) 0
      part1 ++ part2 ++ (range numPart3).map (startLoc * pageSize + ·)

def batchIndices (pageSize : ℕ) : List ℕ → List ExtendEntry → List ℕ
  | _, [] => []
  | pages, e :: es =>
    e.indices pageSize pages ++ batchIndices pageSize (pages.drop (e.numNewPages pageSize)) es

variable {pageSize : ℕ} {P pages : List ℕ} {e : ExtendEntry}

theorem part1_eq (pages : List ℕ) (hps : 0 < pageSize) (hP : P.length = pageCount pageSize e.prefixLen)
    (hlast : e.lastLoc = (laid pageSize P e.prefixLen).getLast?) {n : ℕ}
    (hn : e.prefixLen + n ≤ pageCount pageSize e.prefixLen * pageSize) :
    (range n).map (e.nextLoc + ·) =
      (range n).map fun i => laidAt pageSize (P ++ pages) (e.prefixLen + i) := by
  refine map_congr_left fun i hi => ?_
  have hi := mem_range.mp hi
  have hlt := pageCount_mul_lt hps e.prefixLen
  obtain ⟨j, hj⟩ : ∃ j, e.prefixLen = j + 1 := by
    refine ⟨e.prefixLen - 1, ?_⟩
    rcases Nat.eq_zero_or_pos e.prefixLen with h0 | h0
    · rw [h0, pageCount_zero hps] at hn
      omega
    · omega
  have hnext : e.nextLoc = laidAt pageSize P j + 1 := by
    rw [nextLoc, hlast, hj, laid, range_succ]
    simp
  obtain ⟨c, hc⟩ : ∃ c, pageCount pageSize e.prefixLen = c + 1 :=
    ⟨j / pageSize, by rw [hj, pageCount_add_one hps]⟩
  rw [hc, Nat.add_mul, Nat.one_mul] at hn hlt
  have hmod : j % pageSize = j - c * pageSize := by
    rw [show j = pageSize * c + (j - c * pageSize) by rw [Nat.mul_comm]; omega, Nat.mul_add_mod,
      Nat.mod_eq_of_lt (by omega), Nat.mul_comm]
    omega
  have hbound : e.prefixLen + i < P.length * pageSize := by
    rw [hP, hc, Nat.add_mul, Nat.one_mul]
    omega
  have hstep := laidAt_add P (by omega : j % pageSize + (1 + i) < pageSize)
  rw [hnext, laidAt_append_left hps hbound, hj, show j + 1 + i = j + (1 + i) by omega, hstep]
  omega

theorem parts_eq (pages : List ℕ) (hps : 0 < pageSize)
    (hlt : pageCount pageSize e.prefixLen * pageSize < e.seqLen) :
    laid pageSize (pages.take (e.numNewPages pageSize))
        (e.seqLen - pageCount pageSize e.prefixLen * pageSize) =
      ((range (e.seqLen / pageSize * pageSize -
        pageCount pageSize e.prefixLen * pageSize)).map fun i =>
          pages.getD (i / pageSize) 0 * pageSize + i % pageSize) ++
      (range (e.seqLen - e.seqLen / pageSize * pageSize)).map
        (pages.getD (e.numNewPages pageSize - 1) 0 * pageSize + ·) := by
  have hdm := Nat.div_add_mod e.seqLen pageSize
  have hmod := Nat.mod_lt e.seqLen hps
  rw [Nat.mul_comm] at hdm
  have hc : pageCount pageSize e.prefixLen ≤ e.seqLen / pageSize :=
    (Nat.le_div_iff_mul_le hps).mpr hlt.le
  have hmul : (e.seqLen / pageSize - pageCount pageSize e.prefixLen) * pageSize =
      e.seqLen / pageSize * pageSize - pageCount pageSize e.prefixLen * pageSize :=
    Nat.sub_mul _ _ _
  have hle := Nat.mul_le_mul_right pageSize hc
  have hbound : e.seqLen - pageCount pageSize e.prefixLen * pageSize ≤
      e.numNewPages pageSize * pageSize := by
    have := le_pageCount_mul hps e.seqLen
    rw [numNewPages, Nat.sub_mul]
    omega
  rw [laid_take hps hbound, show e.seqLen - pageCount pageSize e.prefixLen * pageSize =
      (e.seqLen / pageSize * pageSize - pageCount pageSize e.prefixLen * pageSize) +
        (e.seqLen - e.seqLen / pageSize * pageSize) by omega, laid_add]
  congr 1
  refine map_congr_left fun i hi => ?_
  have hi : i < e.seqLen % pageSize := by
    have := mem_range.mp hi
    omega
  have hnew : e.numNewPages pageSize - 1 =
      e.seqLen / pageSize - pageCount pageSize e.prefixLen := by
    rw [numNewPages, pageCount_of_mod_pos hps (by omega)]
    omega
  rw [← hmul, laidAt_add_mul hps, laidAt, Nat.div_eq_of_lt (by omega : i < pageSize),
    Nat.mod_eq_of_lt (by omega : i < pageSize), hnew]
  simp [getD_eq_getElem?_getD]

/-- An extension fills the last page before it takes new ones. -/
theorem laid_append_indices (hps : 0 < pageSize) (hP : P.length = pageCount pageSize e.prefixLen)
    (hle : e.prefixLen ≤ e.seqLen)
    (hlast : e.lastLoc = (laid pageSize P e.prefixLen).getLast?) :
    laid pageSize P e.prefixLen ++ e.indices pageSize pages =
      laid pageSize (P ++ pages.take (e.numNewPages pageSize)) e.seqLen := by
  have hcover := le_pageCount_mul hps e.prefixLen
  have hpre : laid pageSize (P ++ pages.take (e.numNewPages pageSize)) e.prefixLen =
      laid pageSize P e.prefixLen := laid_append_left hps (hP ▸ hcover)
  rcases Nat.lt_or_ge (pageCount pageSize e.prefixLen * pageSize) e.seqLen with hlt | hge
  · -- the last page is filled, then new ones
    have hpart1 := part1_eq (pages.take (e.numNewPages pageSize)) hps hP hlast
      (n := pageCount pageSize e.prefixLen * pageSize - e.prefixLen) (by omega)
    have hfull : laid pageSize P e.prefixLen ++
        ((range (pageCount pageSize e.prefixLen * pageSize - e.prefixLen)).map
          (e.nextLoc + ·)) = laid pageSize P (P.length * pageSize) := by
      rw [hpart1, ← hpre, ← laid_add, laid_append_left hps (by rw [hP]; omega), hP]
      congr 1
      omega
    have hparts := parts_eq pages hps hlt
    rw [laid_append hps (by rw [hP]; omega), ← hfull, hP, hparts, append_assoc]
    congr 1
    have hmin : min e.seqLen (pageCount pageSize e.prefixLen * pageSize) =
        pageCount pageSize e.prefixLen * pageSize := Nat.min_eq_right hlt.le
    have hnot : e.prefixLen + (pageCount pageSize e.prefixLen * pageSize - e.prefixLen) ≠
        e.seqLen := by omega
    simp only [indices, hmin, if_neg hnot]
    split
    next heq =>
      rw [show e.seqLen - e.seqLen / pageSize * pageSize = 0 by omega]
      simp
    next => rw [append_assoc]
  · -- the last page is enough
    have hmin : min e.seqLen (pageCount pageSize e.prefixLen * pageSize) = e.seqLen :=
      Nat.min_eq_left hge
    have hpart1 := part1_eq (pages.take (e.numNewPages pageSize)) hps hP hlast
      (n := e.seqLen - e.prefixLen) (by omega)
    rw [indices, hmin, if_pos (by omega), hpart1, ← hpre, ← laid_add]
    congr 1
    omega

end ExtendEntry

structure PagedTokenToKVPoolAllocator where
  size : ℕ
  pageSize : ℕ
  needSort : Bool
  freePages : List ℕ
  releasePages : List ℕ
  isNotInFreeGroup : Bool
  freeGroup : List (List ℕ)
deriving DecidableEq

namespace PagedTokenToKVPoolAllocator

def numPages (a : PagedTokenToKVPoolAllocator) : ℕ := a.size / a.pageSize

def clear (a : PagedTokenToKVPoolAllocator) : PagedTokenToKVPoolAllocator :=
  { a with
    freePages := range' 1 a.numPages
    isNotInFreeGroup := true
    freeGroup := []
    releasePages := [] }

def create (size pageSize : ℕ) (needSort : Bool) : PagedTokenToKVPoolAllocator :=
  clear ⟨size, pageSize, needSort, [], [], true, []⟩

def availableSize (a : PagedTokenToKVPoolAllocator) : ℕ :=
  (a.freePages.length + a.releasePages.length) * a.pageSize

def mergeAndSortFree (a : PagedTokenToKVPoolAllocator) : PagedTokenToKVPoolAllocator :=
  if 0 < a.releasePages.length then
    { a with freePages := (a.freePages ++ a.releasePages).insertionSort (· ≤ ·), releasePages := [] }
  else a

/-- The allocator when it looks at its free pages, expecting to need `numPages` of them. -/
def beforeTake (a : PagedTokenToKVPoolAllocator) (numPages : ℕ) : PagedTokenToKVPoolAllocator :=
  if a.needSort && decide (a.freePages.length < numPages) then a.mergeAndSortFree else a

def take (a : PagedTokenToKVPoolAllocator) (numNewPages : ℕ) (outIndices : List ℕ) :
    PagedTokenToKVPoolAllocator × Option (List ℕ) :=
  if a.freePages.length < numNewPages then (a, none)
  else ({ a with freePages := a.freePages.drop numNewPages }, some outIndices)

def allocExtend (a : PagedTokenToKVPoolAllocator) (entries : List ExtendEntry)
    (extendNumTokens : ℕ) : PagedTokenToKVPoolAllocator × Option (List ℕ) :=
  let b := a.beforeTake (extendNumTokens / a.pageSize + entries.length + 1)
  b.take (entries.map (·.numNewPages a.pageSize)).sum
    (ExtendEntry.batchIndices a.pageSize b.freePages entries)

def decodeIndices (pageSize : ℕ) : List ℕ → List (ℕ × ℕ) → List ℕ
  | _, [] => []
  | pages, (seqLen, lastLoc) :: es =>
    let numNewPages := pageCount pageSize seqLen - pageCount pageSize (seqLen - 1)
    (if numNewPages = 0 then lastLoc + 1 else pages.getD 0 0 * pageSize) ::
      decodeIndices pageSize (pages.drop numNewPages) es

/-- `alloc_decode`; `get_num_new_pages` counts the lengths that start a page. -/
def allocDecode (a : PagedTokenToKVPoolAllocator) (seqLens : List (ℕ × ℕ)) :
    PagedTokenToKVPoolAllocator × Option (List ℕ) :=
  let b := a.beforeTake seqLens.length
  b.take (seqLens.countP fun e => e.1 % a.pageSize = 1)
    (decodeIndices a.pageSize b.freePages seqLens)

def free (a : PagedTokenToKVPoolAllocator) (freeIndex : List ℕ) : PagedTokenToKVPoolAllocator :=
  if freeIndex = [] then a
  else if a.isNotInFreeGroup then
    -- `torch.unique` sorts
    let freePageIndices := (pagesOf a.pageSize freeIndex).insertionSort (· ≤ ·)
    if a.needSort then { a with releasePages := freePageIndices ++ a.releasePages }
    else { a with freePages := freePageIndices ++ a.freePages }
  else { a with freeGroup := a.freeGroup ++ [freeIndex] }

def freeGroupBegin (a : PagedTokenToKVPoolAllocator) : PagedTokenToKVPoolAllocator :=
  { a with isNotInFreeGroup := false, freeGroup := [] }

def freeGroupEnd (a : PagedTokenToKVPoolAllocator) : PagedTokenToKVPoolAllocator :=
  let b := { a with isNotInFreeGroup := true }
  if a.freeGroup = [] then b else b.free a.freeGroup.flatten

/-- Pages the allocator holds: both lists and, inside a free group, the pending frees. -/
def held (a : PagedTokenToKVPoolAllocator) : List ℕ :=
  a.freePages ++ a.releasePages ++
    if a.isNotInFreeGroup then [] else pagesOf a.pageSize a.freeGroup.flatten

section

variable (a : PagedTokenToKVPoolAllocator)

include a

theorem held_mergeAndSortFree : a.mergeAndSortFree.held.Perm a.held := by
  unfold mergeAndSortFree
  split
  · simp only [held, append_nil]
    exact (perm_insertionSort _ _).append_right _
  · rfl

theorem held_beforeTake (n : ℕ) : (a.beforeTake n).held.Perm a.held := by
  unfold beforeTake
  split
  · exact a.held_mergeAndSortFree
  · rfl

@[simp] theorem beforeTake_pageSize (n : ℕ) : (a.beforeTake n).pageSize = a.pageSize := by
  unfold beforeTake mergeAndSortFree
  split_ifs <;> rfl

@[simp] theorem beforeTake_isNotInFreeGroup (n : ℕ) :
    (a.beforeTake n).isNotInFreeGroup = a.isNotInFreeGroup := by
  unfold beforeTake mergeAndSortFree
  split_ifs <;> rfl

@[simp] theorem take_pageSize (n : ℕ) (out : List ℕ) : (a.take n out).1.pageSize = a.pageSize := by
  unfold take
  split_ifs <;> rfl

@[simp] theorem take_isNotInFreeGroup (n : ℕ) (out : List ℕ) :
    (a.take n out).1.isNotInFreeGroup = a.isNotInFreeGroup := by
  unfold take
  split_ifs <;> rfl

end

variable {a : PagedTokenToKVPoolAllocator}

theorem take_tidy {n : ℕ} (need : ℕ) (out : List ℕ)
    (h : 1 < a.pageSize ∧ (a.needSort = false → a.releasePages = [])) :
    1 < ((a.beforeTake n).take need out).1.pageSize ∧
      (((a.beforeTake n).take need out).1.needSort = false →
        ((a.beforeTake n).take need out).1.releasePages = []) := by
  refine ⟨by simpa using h.1, ?_⟩
  unfold take beforeTake mergeAndSortFree
  split_ifs <;> simp_all

theorem held_free (a : PagedTokenToKVPoolAllocator) {slots P : List ℕ}
    (hpages : (pagesOf a.pageSize slots).Perm P) (hnd : (P ++ a.held).Nodup) :
    (a.free slots).held.Perm (P ++ a.held) := by
  have hsort : ∀ x, ((pagesOf a.pageSize slots).insertionSort (· ≤ ·)).count x = P.count x :=
    fun x => ((perm_insertionSort _ _).trans hpages).count_eq x
  unfold free
  split_ifs with hs hg hn
  · subst hs
    rw [pagesOf_nil, nil_perm] at hpages
    rw [hpages]
    rfl
  · rw [perm_iff_count]
    intro x
    simp only [held, hg, if_true, count_append, hsort]
    omega
  · rw [perm_iff_count]
    intro x
    simp only [held, hg, if_true, count_append, hsort]
    omega
  · -- pending frees are merged when the group ends
    have hgroup : (pagesOf a.pageSize (a.freeGroup ++ [slots]).flatten).Perm
        (P ++ pagesOf a.pageSize a.freeGroup.flatten) := by
      refine (perm_ext_iff_of_nodup (nodup_pagesOf _) ?_).mpr fun x => ?_
      · refine hnd.sublist ?_
        simp [held, hg]
      · rw [mem_append, ← hpages.mem_iff]
        simp only [mem_pagesOf, flatten_append, flatten_singleton,
          mem_append, or_and_right, exists_or]
        exact or_comm
    rw [perm_iff_count]
    intro x
    have hx := hgroup.count_eq x
    simp only [held, hg, Bool.false_eq_true, if_false, count_append] at hx ⊢
    omega

theorem mem_held_free (a : PagedTokenToKVPoolAllocator) {slots : List ℕ} {p : ℕ} :
    p ∈ (a.free slots).held ↔ p ∈ a.held ∨ ∃ x ∈ slots, x / a.pageSize = p := by
  have hsort : p ∈ (pagesOf a.pageSize slots).insertionSort (· ≤ ·) ↔
      ∃ x ∈ slots, x / a.pageSize = p := by
    rw [(perm_insertionSort _ _).mem_iff, mem_pagesOf]
  unfold free
  split_ifs with hs hg hn
  · simp [hs]
  · simp only [held, hg, if_true, append_nil, mem_append, hsort]
    simp only [or_assoc, or_comm]
  · simp only [held, hg, if_true, append_nil, mem_append, hsort]
    simp only [or_assoc, or_comm, or_left_comm]
  · simp only [held, hg, Bool.false_eq_true, if_false, mem_append, mem_pagesOf,
      flatten_append, flatten_singleton, or_and_right, exists_or]
    exact or_assoc.symm

@[simp] theorem free_pageSize (a : PagedTokenToKVPoolAllocator) (slots : List ℕ) :
    (a.free slots).pageSize = a.pageSize := by
  unfold free
  split_ifs <;> rfl

@[simp] theorem free_isNotInFreeGroup (a : PagedTokenToKVPoolAllocator) (slots : List ℕ) :
    (a.free slots).isNotInFreeGroup = a.isNotInFreeGroup := by
  unfold free
  split_ifs <;> rfl

theorem held_freeGroupEnd (h : a.isNotInFreeGroup = false) (hnd : a.held.Nodup) :
    a.freeGroupEnd.held.Perm a.held := by
  unfold freeGroupEnd
  split
  next he => simp [held, h, he]
  next =>
  simp only [held, h, Bool.false_eq_true, if_false] at hnd
  refine (held_free _ (Perm.refl _) ?_).trans ?_
  · simp only [held, if_true, append_nil]
    exact (perm_append_comm.nodup_iff).mpr hnd
  · simp only [held, h, if_true, append_nil, Bool.false_eq_true, if_false]
    exact perm_append_comm

section

variable (htidy : a.needSort = false → a.releasePages = []) {expected need : ℕ}
  (hle : need ≤ expected) (hfit : need ≤ a.freePages.length + a.releasePages.length)

include htidy hle hfit

theorem le_length_beforeTake : need ≤ (a.beforeTake expected).freePages.length := by
  unfold beforeTake mergeAndSortFree
  cases hsort : a.needSort with
  | false => simpa [htidy hsort] using hfit
  | true =>
    simp only [Bool.true_and, decide_eq_true_eq]
    split_ifs with h1 h2
    · simpa using hfit
    · omega
    · omega

theorem take_isSome (out : List ℕ) : ∃ b, (a.beforeTake expected).take need out = (b, some out) :=
  ⟨_, by rw [take, if_neg (le_length_beforeTake htidy hle hfit).not_gt]⟩

end

theorem take_some {a b : PagedTokenToKVPoolAllocator} {n : ℕ} {out out' : List ℕ}
    (h : a.take n out = (b, some out')) :
    out' = out ∧ n ≤ a.freePages.length ∧ (a.freePages.take n ++ b.held).Perm a.held := by
  unfold take at h
  split at h
  · simp at h
  next hn =>
  cases h
  refine ⟨rfl, by omega, Perm.of_eq ?_⟩
  simp [held, ← append_assoc]

end PagedTokenToKVPoolAllocator

end LLM42
