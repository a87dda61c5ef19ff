import Mathlib.Algebra.GroupWithZero.Nat
import Mathlib.Data.List.Sort

/-! # KV slot allocator

`TokenToKVPoolAllocator` of `mem_cache/allocator.py`, page size one. Slot `0` is never handed
out: it absorbs the writes of padded rows. -/

namespace LLM42

open List

structure TokenToKVPoolAllocator where
  size : ℕ
  needSort : Bool
  freePages : List ℕ
  releasePages : List ℕ
  isNotInFreeGroup : Bool
  freeGroup : List (List ℕ)
deriving DecidableEq

namespace TokenToKVPoolAllocator

def clear (a : TokenToKVPoolAllocator) : TokenToKVPoolAllocator :=
  { a with
    freePages := range' 1 a.size
    isNotInFreeGroup := true
    freeGroup := []
    releasePages := [] }

def create (size : ℕ) (needSort : Bool) : TokenToKVPoolAllocator :=
  clear ⟨size, needSort, [], [], true, []⟩

def availableSize (a : TokenToKVPoolAllocator) : ℕ := a.freePages.length + a.releasePages.length

def mergeAndSortFree (a : TokenToKVPoolAllocator) : TokenToKVPoolAllocator :=
  if 0 < a.releasePages.length then
    { a with freePages := (a.freePages ++ a.releasePages).insertionSort (· ≤ ·), releasePages := [] }
  else a

def beforeTake (a : TokenToKVPoolAllocator) (needSize : ℕ) : TokenToKVPoolAllocator :=
  if a.needSort && decide (a.freePages.length < needSize) then a.mergeAndSortFree else a

/-- `alloc`; the pages are merged before the request is refused, so a refusal may reorder them. -/
def alloc (a : TokenToKVPoolAllocator) (needSize : ℕ) :
    TokenToKVPoolAllocator × Option (List ℕ) :=
  if (a.beforeTake needSize).freePages.length < needSize then (a.beforeTake needSize, none)
  else
    ({ a.beforeTake needSize with freePages := (a.beforeTake needSize).freePages.drop needSize },
      some ((a.beforeTake needSize).freePages.take needSize))

def free (a : TokenToKVPoolAllocator) (freeIndex : List ℕ) : TokenToKVPoolAllocator :=
  if freeIndex = [] then a
  else if a.isNotInFreeGroup then
    if a.needSort then { a with releasePages := a.releasePages ++ freeIndex }
    else { a with freePages := a.freePages ++ freeIndex }
  else { a with freeGroup := a.freeGroup ++ [freeIndex] }

def freeGroupBegin (a : TokenToKVPoolAllocator) : TokenToKVPoolAllocator :=
  { a with isNotInFreeGroup := false, freeGroup := [] }

/-- `free_group_end` leaves the old group in place; `freeGroupBegin` empties it. -/
def freeGroupEnd (a : TokenToKVPoolAllocator) : TokenToKVPoolAllocator :=
  let b := { a with isNotInFreeGroup := true }
  if a.freeGroup = [] then b else b.free a.freeGroup.flatten

/-- Slots the allocator holds: both page lists and, inside a free group, the pending frees. -/
def held (a : TokenToKVPoolAllocator) : List ℕ :=
  a.freePages ++ a.releasePages ++ if a.isNotInFreeGroup then [] else a.freeGroup.flatten

section

variable (a : TokenToKVPoolAllocator)

include a

@[simp] theorem held_clear : a.clear.held = range' 1 a.size := by
  simp [held, clear]

theorem held_mergeAndSortFree : a.mergeAndSortFree.held.Perm a.held := by
  unfold mergeAndSortFree
  split
  · simp only [held, append_nil]
    exact (perm_insertionSort _ _).append_right _
  · exact Perm.refl _

theorem held_beforeTake (n : ℕ) : (a.beforeTake n).held.Perm a.held := by
  unfold beforeTake
  split
  · exact a.held_mergeAndSortFree
  · exact Perm.refl _

end

/-- What is allocated leaves the free slots. -/
theorem alloc_some {a b : TokenToKVPoolAllocator} {n : ℕ} {slots : List ℕ}
    (h : a.alloc n = (b, some slots)) : (slots ++ b.held).Perm a.held ∧ slots.length = n := by
  unfold alloc at h
  split at h
  · simp at h
  next hn =>
  cases h
  constructor
  · refine Perm.trans (Perm.of_eq ?_) (a.held_beforeTake n)
    simp [held, ← append_assoc]
  · simp only [length_take]
    omega

variable {a : TokenToKVPoolAllocator}

theorem alloc_isSome (htidy : a.needSort = false → a.releasePages = []) {n : ℕ}
    (hfit : n ≤ a.availableSize) :
    ∃ b, a.alloc n = (b, some ((a.beforeTake n).freePages.take n)) := by
  have henough : n ≤ (a.beforeTake n).freePages.length := by
    unfold availableSize at hfit
    unfold beforeTake mergeAndSortFree
    cases hsort : a.needSort with
    | false => simpa [htidy hsort] using hfit
    | true =>
      simp only [Bool.true_and, decide_eq_true_eq]
      split_ifs with h1 h2
      · simpa using hfit
      · omega
      · omega
  exact ⟨_, by rw [alloc, if_neg (by omega)]⟩

theorem alloc_tidy (a : TokenToKVPoolAllocator) (n : ℕ)
    (h : a.needSort = false → a.releasePages = []) :
    (a.alloc n).1.needSort = false → (a.alloc n).1.releasePages = [] := by
  unfold alloc beforeTake mergeAndSortFree
  split_ifs <;> simp_all

theorem held_free (a : TokenToKVPoolAllocator) (slots : List ℕ) :
    (a.free slots).held.Perm (slots ++ a.held) := by
  rw [perm_iff_count]
  intro x
  unfold free
  split_ifs with hs hg hn
  · simp [hs]
  · simp only [held, hg, if_true, count_append]
    omega
  · simp only [held, hg, if_true, count_append]
    omega
  · simp only [held, hg, Bool.false_eq_true, if_false, flatten_append, flatten_singleton, count_append]
    omega

theorem held_freeGroupBegin (h : a.isNotInFreeGroup) : a.freeGroupBegin.held = a.held := by
  simp [held, freeGroupBegin, h]

theorem held_freeGroupEnd (h : a.isNotInFreeGroup = false) : a.freeGroupEnd.held.Perm a.held := by
  unfold freeGroupEnd
  split
  next he => simp [held, h, he]
  · refine (held_free _ _).trans ?_
    simp only [held, h, if_true, append_nil, Bool.false_eq_true, if_false]
    exact perm_append_comm

section Frame

variable (a : TokenToKVPoolAllocator)

@[simp] theorem free_isNotInFreeGroup (slots : List ℕ) :
    (a.free slots).isNotInFreeGroup = a.isNotInFreeGroup := by
  unfold free
  split_ifs <;> rfl

@[simp] theorem free_size (slots : List ℕ) : (a.free slots).size = a.size := by
  unfold free
  split_ifs <;> rfl

@[simp] theorem freeGroupEnd_isNotInFreeGroup : a.freeGroupEnd.isNotInFreeGroup = true := by
  unfold freeGroupEnd
  split <;> simp

@[simp] theorem freeGroupEnd_size : a.freeGroupEnd.size = a.size := by
  unfold freeGroupEnd
  split <;> simp

@[simp] theorem alloc_isNotInFreeGroup (n : ℕ) :
    (a.alloc n).1.isNotInFreeGroup = a.isNotInFreeGroup := by
  unfold alloc beforeTake mergeAndSortFree
  split_ifs <;> rfl

@[simp] theorem alloc_size (n : ℕ) : (a.alloc n).1.size = a.size := by
  unfold alloc beforeTake mergeAndSortFree
  split_ifs <;> rfl

end Frame

end TokenToKVPoolAllocator

end LLM42
