import LLM42.Memory.PagedAllocator

/-! # The allocator of a server

Both allocators of `mem_cache/allocator.py` in terms of pages: what they hold, what a successful
allocation hands out, and when it succeeds. -/

namespace LLM42

open Library List PagedTokenToKVPoolAllocator

/-- The allocator of a server: one class for page size one, another for larger pages. -/
inductive KVAllocator where
  | token (a : TokenToKVPoolAllocator)
  | paged (a : PagedTokenToKVPoolAllocator)
deriving DecidableEq

namespace KVAllocator

def create (size pageSize : ℕ) (needSort : Bool) : KVAllocator :=
  if pageSize = 1 then .token (.create size needSort)
  else .paged (.create size pageSize needSort)

def pageSize : KVAllocator → ℕ
  | token _ => 1
  | paged a => a.pageSize

def availableSize : KVAllocator → ℕ
  | token a => a.availableSize
  | paged a => a.availableSize

def free : KVAllocator → List ℕ → KVAllocator
  | token a, freeIndex => .token (a.free freeIndex)
  | paged a, freeIndex => .paged (a.free freeIndex)

def freeGroupBegin : KVAllocator → KVAllocator
  | token a => .token a.freeGroupBegin
  | paged a => .paged a.freeGroupBegin

def freeGroupEnd : KVAllocator → KVAllocator
  | token a => .token a.freeGroupEnd
  | paged a => .paged a.freeGroupEnd

def allocExtend : KVAllocator → List ExtendEntry → ℕ → KVAllocator × Option (List ℕ)
  | token a, _, extendNumTokens =>
    let (a, out) := a.alloc extendNumTokens
    (.token a, out)
  | paged a, entries, extendNumTokens =>
    let (a, out) := a.allocExtend entries extendNumTokens
    (.paged a, out)

def allocDecode : KVAllocator → List (ℕ × ℕ) → KVAllocator × Option (List ℕ)
  | token a, seqLens =>
    let (a, out) := a.alloc seqLens.length
    (.token a, out)
  | paged a, seqLens =>
    let (a, out) := a.allocDecode seqLens
    (.paged a, out)

def held : KVAllocator → List ℕ
  | token a => a.held
  | paged a => a.held

theorem held_create (size pageSize : ℕ) (needSort : Bool) :
    (create size pageSize needSort).held = List.range' 1 (size / pageSize) := by
  unfold create
  split
  next h1 => simp [held, TokenToKVPoolAllocator.create, h1]
  next h1 => simp [held, PagedTokenToKVPoolAllocator.create, PagedTokenToKVPoolAllocator.clear,
      PagedTokenToKVPoolAllocator.held, PagedTokenToKVPoolAllocator.numPages]

/-- The paged class serves pages of several slots, and released pages wait only to be sorted. -/
def Wf : KVAllocator → Prop
  | token a => a.needSort = false → a.releasePages = []
  | paged a => 1 < a.pageSize ∧ (a.needSort = false → a.releasePages = [])

def isNotInFreeGroup : KVAllocator → Bool
  | token a => a.isNotInFreeGroup
  | paged a => a.isNotInFreeGroup

section Create

variable {size pageSize : ℕ} {needSort : Bool}

theorem wf_create (hps : 0 < pageSize) : (create size pageSize needSort).Wf := by
  unfold create
  split
  next h1 => exact fun _ => rfl
  next h1 => exact ⟨show 1 < pageSize by omega, fun _ => rfl⟩

theorem isNotInFreeGroup_create : (create size pageSize needSort).isNotInFreeGroup = true := by
  unfold create
  split <;> rfl

theorem pageSize_create : (create size pageSize needSort).pageSize = pageSize := by
  unfold create
  split
  next h1 => exact h1.symm
  next h1 => rfl

end Create

def newPages (pageSize : ℕ) (entries : List ExtendEntry) : ℕ :=
  (entries.map (·.numNewPages pageSize)).sum

@[simp] theorem newPages_nil (pageSize : ℕ) : newPages pageSize [] = 0 := rfl

@[simp] theorem newPages_cons (pageSize : ℕ) (e : ExtendEntry) (es : List ExtendEntry) :
    newPages pageSize (e :: es) = e.numNewPages pageSize + newPages pageSize es := by
  simp [newPages]

/-- What a successful allocation hands out: the first of `pages`, laid out for the batch. -/
structure Grants (a b : KVAllocator) (entries : List ExtendEntry) (out pages : List ℕ) : Prop where
  enough : newPages a.pageSize entries ≤ pages.length
  out_eq : out = ExtendEntry.batchIndices a.pageSize pages entries
  held : (pages.take (newPages a.pageSize entries) ++ b.held).Perm a.held
  pageSize : b.pageSize = a.pageSize
  group : b.isNotInFreeGroup = a.isNotInFreeGroup
  wf : a.Wf → b.Wf

section PageSizeOne

theorem numNewPages_one (e : ExtendEntry) : e.numNewPages 1 = e.seqLen - e.prefixLen := by
  simp [ExtendEntry.numNewPages, pageCount_one]

theorem indices_one {e : ExtendEntry} (hle : e.prefixLen ≤ e.seqLen) {pages : List ℕ}
    (h : e.seqLen - e.prefixLen ≤ pages.length) :
    e.indices 1 pages = pages.take (e.seqLen - e.prefixLen) := by
  have hmin : min e.seqLen e.prefixLen - e.prefixLen = 0 := by omega
  have htake : (range (e.seqLen - e.prefixLen)).map (fun i => pages.getD i 0) =
      pages.take (e.seqLen - e.prefixLen) := by
    apply ext_getElem
    · simpa using h
    · intro i h1 h2
      have hi : i < pages.length := by
        rw [length_take] at h2
        omega
      simp [getD_eq_getElem?_getD, hi]
  simp only [ExtendEntry.indices, pageCount_one, Nat.mul_one, hmin, Nat.add_zero,
    Nat.div_one, Nat.mod_one]
  split
  next heq => simp [heq]
  next hne =>
    rw [if_pos (by omega)]
    simpa using htake

theorem batchIndices_one {entries : List ExtendEntry}
    (hle : ∀ e ∈ entries, e.prefixLen ≤ e.seqLen) {pages : List ℕ}
    (h : newPages 1 entries = pages.length) :
    ExtendEntry.batchIndices 1 pages entries = pages := by
  induction entries generalizing pages with
  | nil => simpa [ExtendEntry.batchIndices] using h.symm
  | cons e es ih =>
    rw [newPages_cons, numNewPages_one] at h
    have hrest : newPages 1 es = (pages.drop (e.seqLen - e.prefixLen)).length := by
      rw [length_drop]
      omega
    rw [ExtendEntry.batchIndices, numNewPages_one,
      ih (fun x hx => hle x (mem_cons_of_mem _ hx)) hrest,
      indices_one (hle e mem_cons_self) (by omega), take_append_drop]

end PageSizeOne

theorem allocExtend_some {a b : KVAllocator} {entries : List ExtendEntry} {n : ℕ} {out : List ℕ}
    (hle : ∀ e ∈ entries, e.prefixLen ≤ e.seqLen)
    (hn : n = (entries.map fun e => e.seqLen - e.prefixLen).sum)
    (h : a.allocExtend entries n = (b, some out)) : ∃ pages, Grants a b entries out pages := by
  cases a with
  | token a =>
    simp only [allocExtend, Prod.mk.injEq] at h
    obtain ⟨rfl, hout⟩ := h
    obtain ⟨hperm, hlen⟩ := TokenToKVPoolAllocator.alloc_some (Prod.ext rfl hout)
    have hnew : newPages 1 entries = out.length := by
      rw [hlen, hn, newPages]
      congr 1
      exact map_congr_left fun e _ => numNewPages_one e
    refine ⟨out, hnew.le, (batchIndices_one hle hnew).symm, ?_, rfl, ?_, ?_⟩
    · change (out.take (newPages 1 entries) ++ _).Perm _
      rw [hnew, take_length]
      exact hperm
    · simp [isNotInFreeGroup]
    · exact a.alloc_tidy _
  | paged a =>
    simp only [allocExtend, PagedTokenToKVPoolAllocator.allocExtend, Prod.mk.injEq] at h
    obtain ⟨rfl, hout⟩ := h
    obtain ⟨rfl, hlen, hperm⟩ := take_some (Prod.ext rfl hout)
    refine ⟨_, hlen, rfl, ?_, ?_, ?_, ?_⟩
    · exact hperm.trans (held_beforeTake _ _)
    · simp [pageSize]
    · simp [isNotInFreeGroup]
    · exact take_tidy _ _

/-- One decode step extends a request by one position. -/
def decodeEntry (e : ℕ × ℕ) : ExtendEntry := ⟨e.1 - 1, e.1, some e.2⟩

variable {seqLens : List (ℕ × ℕ)} {pageSize : ℕ} {a : KVAllocator}

/-- A length starts a page when the one before it fills the last. -/
theorem numNewPages_decodeEntry (hps : 0 < pageSize) (e : ℕ × ℕ) (hpos : 0 < e.1) :
    (decodeEntry e).numNewPages pageSize = if (e.1 - 1) % pageSize = 0 then 1 else 0 := by
  obtain ⟨n, hn⟩ : ∃ n, e.1 = n + 1 := ⟨e.1 - 1, by omega⟩
  simp only [ExtendEntry.numNewPages, decodeEntry, hn, Nat.add_sub_cancel]
  rw [pageCount_succ hps, Nat.add_sub_cancel_left]

theorem countP_eq_newPages (hps : 1 < pageSize) (hpos : ∀ e ∈ seqLens, 0 < e.1) :
    seqLens.countP (fun e => e.1 % pageSize = 1) = newPages pageSize (seqLens.map decodeEntry) := by
  induction seqLens with
  | nil => rfl
  | cons e es ih =>
    have he := hpos e mem_cons_self
    have hiff : e.1 % pageSize = 1 ↔ (e.1 - 1) % pageSize = 0 := by
      obtain ⟨n, hn⟩ : ∃ n, e.1 = n + 1 := ⟨e.1 - 1, by omega⟩
      rw [hn, Nat.add_sub_cancel]
      have hlt := Nat.mod_lt n (by omega : 0 < pageSize)
      rw [Nat.add_mod, Nat.mod_eq_of_lt hps]
      rcases Nat.lt_or_ge (n % pageSize + 1) pageSize with h | h
      · rw [Nat.mod_eq_of_lt h]
        omega
      · rw [show n % pageSize + 1 = pageSize by omega, Nat.mod_self]
        omega
    rw [countP_cons, ih fun x hx => hpos x (mem_cons_of_mem _ hx), map_cons,
      newPages_cons, numNewPages_decodeEntry (by omega) e he, Nat.add_comm]
    simp [hiff]

theorem indices_decodeEntry (hps : 0 < pageSize) (e : ℕ × ℕ) (hpos : 0 < e.1) (pages : List ℕ) :
    (decodeEntry e).indices pageSize pages =
      [if (decodeEntry e).numNewPages pageSize = 0 then e.2 + 1
        else pages.getD 0 0 * pageSize] := by
  have hnew := numNewPages_decodeEntry hps e hpos
  obtain ⟨n, hn⟩ : ∃ n, e.1 = n + 1 := ⟨e.1 - 1, by omega⟩
  have hdm := Nat.div_add_mod n pageSize
  have hlt := Nat.mod_lt n hps
  rw [Nat.mul_comm] at hdm
  rw [hn, Nat.add_sub_cancel] at hnew
  by_cases hmod : n % pageSize = 0
  · -- the page before is full
    rw [if_pos hmod] at hnew
    rw [hnew, if_neg one_ne_zero]
    have hcount : pageCount pageSize n * pageSize = n := by
      rw [pageCount_of_mod_zero hps hmod]
      omega
    have hmin : min (n + 1) n - n = 0 := by omega
    simp only [ExtendEntry.indices, decodeEntry, hn, Nat.add_sub_cancel, hcount, hmin,
      Nat.add_zero, Nat.left_eq_add, one_ne_zero, if_false, range_zero, map_nil,
      nil_append]
    rcases Nat.lt_or_ge 1 pageSize with h1 | h1
    · have hdiv : (n + 1) / pageSize * pageSize = n := by
        rw [show n + 1 = pageSize * (n / pageSize) + 1 by rw [Nat.mul_comm]; omega,
          Nat.mul_add_div hps, Nat.div_eq_of_lt h1, Nat.add_zero]
        omega
      rw [hdiv]
      simp only [decodeEntry, hn, Nat.add_sub_cancel] at hnew
      simp [hnew]
    · have h1 : pageSize = 1 := by omega
      subst h1
      simp
  · rw [if_neg hmod] at hnew
    rw [hnew, if_pos rfl]
    have hcount : pageCount pageSize n * pageSize = n / pageSize * pageSize + pageSize := by
      rw [pageCount_of_mod_pos hps (by omega), Nat.add_mul, Nat.one_mul]
    have hmin : min (n + 1) (n / pageSize * pageSize + pageSize) - n = 1 := by omega
    simp [ExtendEntry.indices, decodeEntry, hn, hcount, hmin, ExtendEntry.nextLoc]

theorem decodeIndices_eq (hps : 0 < pageSize) (hpos : ∀ e ∈ seqLens, 0 < e.1) (pages : List ℕ) :
    decodeIndices pageSize pages seqLens =
      ExtendEntry.batchIndices pageSize pages (seqLens.map decodeEntry) := by
  induction seqLens generalizing pages with
  | nil => rfl
  | cons e es ih =>
    rw [map_cons, ExtendEntry.batchIndices, ← ih fun x hx => hpos x (mem_cons_of_mem _ hx),
      indices_decodeEntry hps e (hpos e mem_cons_self)]
    rfl

theorem Wf.pageSize_pos (h : a.Wf) : 0 < a.pageSize := by
  cases a with
  | token a => exact Nat.one_pos
  | paged a => exact Nat.lt_trans Nat.one_pos h.1

theorem allocDecode_some {a b : KVAllocator} {out : List ℕ} (hwf : a.Wf)
    (hpos : ∀ e ∈ seqLens, 0 < e.1) (h : a.allocDecode seqLens = (b, some out)) :
    ∃ pages, Grants a b (seqLens.map decodeEntry) out pages := by
  cases a with
  | token a =>
    have hle : ∀ e ∈ seqLens.map decodeEntry, e.prefixLen ≤ e.seqLen := by
      intro e he
      obtain ⟨x, -, rfl⟩ := mem_map.mp he
      exact Nat.sub_le _ _
    have hn : seqLens.length =
        ((seqLens.map decodeEntry).map fun e => e.seqLen - e.prefixLen).sum := by
      rw [map_map, map_congr_left (g := fun _ => 1)]
      · simp
      · intro e he
        have := hpos e he
        simp only [Function.comp_apply, decodeEntry]
        omega
    exact allocExtend_some (a := .token a) hle hn h
  | paged a =>
    simp only [allocDecode, PagedTokenToKVPoolAllocator.allocDecode, Prod.mk.injEq] at h
    obtain ⟨rfl, hout⟩ := h
    obtain ⟨rfl, hlen, hperm⟩ := take_some (Prod.ext rfl hout)
    rw [countP_eq_newPages hwf.1 hpos] at hlen hperm
    refine ⟨_, hlen, decodeIndices_eq hwf.pageSize_pos hpos _, ?_, ?_, ?_, ?_⟩
    · rw [countP_eq_newPages hwf.1 hpos]
      exact hperm.trans (held_beforeTake _ _)
    · simp [pageSize]
    · simp [isNotInFreeGroup]
    · exact take_tidy _ _

theorem Wf.allocExtend (h : a.Wf) (entries : List ExtendEntry) (n : ℕ) :
    (a.allocExtend entries n).1.Wf ∧ (a.allocExtend entries n).1.pageSize = a.pageSize := by
  cases a with
  | token a => exact ⟨a.alloc_tidy n h, rfl⟩
  | paged a =>
    refine ⟨take_tidy _ _ h, ?_⟩
    simp [KVAllocator.allocExtend, pageSize, PagedTokenToKVPoolAllocator.allocExtend]

theorem Wf.allocDecode (h : a.Wf) (seqLens : List (ℕ × ℕ)) :
    (a.allocDecode seqLens).1.Wf ∧ (a.allocDecode seqLens).1.pageSize = a.pageSize := by
  cases a with
  | token a => exact ⟨a.alloc_tidy _ h, rfl⟩
  | paged a =>
    refine ⟨take_tidy _ _ h, ?_⟩
    simp [KVAllocator.allocDecode, pageSize, PagedTokenToKVPoolAllocator.allocDecode]

@[simp] theorem isNotInFreeGroup_allocExtend (a : KVAllocator) (entries : List ExtendEntry) (n : ℕ) :
    (a.allocExtend entries n).1.isNotInFreeGroup = a.isNotInFreeGroup := by
  cases a <;> simp [allocExtend, isNotInFreeGroup, PagedTokenToKVPoolAllocator.allocExtend]

@[simp] theorem isNotInFreeGroup_allocDecode (a : KVAllocator) (seqLens : List (ℕ × ℕ)) :
    (a.allocDecode seqLens).1.isNotInFreeGroup = a.isNotInFreeGroup := by
  cases a <;> simp [allocDecode, isNotInFreeGroup, PagedTokenToKVPoolAllocator.allocDecode]

section Free

variable {a : KVAllocator} {P : List ℕ} {n : ℕ}

theorem laid_one (P : List ℕ) : laid 1 P P.length = P := by
  have h := laid_length_mul Nat.one_pos P
  have hslots : pageSlots 1 = fun p => [p] := by
    funext p
    simp [pageSlots]
  rw [Nat.mul_one, hslots] at h
  rw [h]
  exact flatMap_singleton' P

/-- Slots laid over pages that the allocator does not hold: it holds the pages afterwards. -/
theorem held_free (hwf : a.Wf) (hP : P.length = pageCount a.pageSize n)
    (hnd : (P ++ a.held).Nodup) : (a.free (laid a.pageSize P n)).held.Perm (P ++ a.held) := by
  cases a with
  | token a =>
    have hn : n = P.length := by rw [hP]; exact (pageCount_one n).symm
    subst hn
    change (a.free (laid 1 P P.length)).held.Perm _
    rw [laid_one]
    exact a.held_free P
  | paged a =>
    have hPnd := (nodup_append.mp hnd).1
    exact a.held_free (pagesOf_laid hwf.pageSize_pos hP hPnd) hnd

variable (a) in
theorem mem_held_free {slots : List ℕ} {p : ℕ} :
    p ∈ (a.free slots).held ↔ p ∈ a.held ∨ ∃ x ∈ slots, x / a.pageSize = p := by
  cases a with
  | token a =>
    rw [free, held, held, (a.held_free slots).mem_iff, mem_append]
    simp [pageSize, or_comm]
  | paged a => exact a.mem_held_free

variable (a) in
@[simp] theorem pageSize_free (slots : List ℕ) : (a.free slots).pageSize = a.pageSize := by
  cases a with
  | token a => rfl
  | paged a => exact a.free_pageSize slots

variable (a) in
@[simp] theorem isNotInFreeGroup_free (slots : List ℕ) :
    (a.free slots).isNotInFreeGroup = a.isNotInFreeGroup := by
  cases a with
  | token a => exact a.free_isNotInFreeGroup slots
  | paged a => exact a.free_isNotInFreeGroup slots

theorem Wf.free (hwf : a.Wf) (slots : List ℕ) : (a.free slots).Wf := by
  cases a with
  | token a =>
    simp only [Wf, KVAllocator.free, TokenToKVPoolAllocator.free] at hwf ⊢
    split_ifs with hs hg hn
    · exact hwf
    · exact fun h => by simp [hn] at h
    · exact hwf
    · exact hwf
  | paged a =>
    simp only [Wf, KVAllocator.free, PagedTokenToKVPoolAllocator.free] at hwf ⊢
    split_ifs with hs hg hn
    · exact hwf
    · exact ⟨hwf.1, fun h => by simp [hn] at h⟩
    · exact hwf
    · exact hwf

variable (a) in
@[simp] theorem pageSize_freeGroupBegin : a.freeGroupBegin.pageSize = a.pageSize := by
  cases a <;> rfl

variable (a) in
@[simp] theorem pageSize_freeGroupEnd : a.freeGroupEnd.pageSize = a.pageSize := by
  cases a with
  | token a => rfl
  | paged a =>
    simp only [freeGroupEnd, pageSize, PagedTokenToKVPoolAllocator.freeGroupEnd]
    split <;> simp

theorem Wf.freeGroupBegin (hwf : a.Wf) : a.freeGroupBegin.Wf := by
  cases a <;> exact hwf

theorem Wf.freeGroupEnd (hwf : a.Wf) : a.freeGroupEnd.Wf := by
  cases a with
  | token a =>
    simp only [KVAllocator.freeGroupEnd, TokenToKVPoolAllocator.freeGroupEnd]
    split
    · exact hwf
    · exact Wf.free (a := .token { a with isNotInFreeGroup := true }) hwf _
  | paged a =>
    simp only [KVAllocator.freeGroupEnd, PagedTokenToKVPoolAllocator.freeGroupEnd]
    split
    · exact hwf
    · exact Wf.free (a := .paged { a with isNotInFreeGroup := true }) hwf _

theorem held_freeGroupBegin (h : a.isNotInFreeGroup) : a.freeGroupBegin.held = a.held := by
  cases a with
  | token a => exact TokenToKVPoolAllocator.held_freeGroupBegin h
  | paged a =>
    simp only [isNotInFreeGroup] at h
    simp [freeGroupBegin, held, PagedTokenToKVPoolAllocator.held,
      PagedTokenToKVPoolAllocator.freeGroupBegin, h]

theorem held_freeGroupEnd (h : a.isNotInFreeGroup = false) (hnd : a.held.Nodup) :
    a.freeGroupEnd.held.Perm a.held := by
  cases a with
  | token a => exact TokenToKVPoolAllocator.held_freeGroupEnd h
  | paged a => exact held_freeGroupEnd h hnd

variable (a) in
@[simp] theorem isNotInFreeGroup_freeGroupBegin : a.freeGroupBegin.isNotInFreeGroup = false := by
  cases a <;> rfl

variable (a) in
@[simp] theorem isNotInFreeGroup_freeGroupEnd : a.freeGroupEnd.isNotInFreeGroup = true := by
  cases a with
  | token a => exact a.freeGroupEnd_isNotInFreeGroup
  | paged a =>
    simp only [freeGroupEnd, isNotInFreeGroup, PagedTokenToKVPoolAllocator.freeGroupEnd]
    split <;> simp

end Free

section Available

variable {a : KVAllocator}

theorem availableSize_eq (h : a.isNotInFreeGroup) :
    a.availableSize = a.held.length * a.pageSize := by
  cases a with
  | token a =>
    simp only [isNotInFreeGroup] at h
    simp [availableSize, held, pageSize, TokenToKVPoolAllocator.availableSize,
      TokenToKVPoolAllocator.held, h]
  | paged a =>
    simp only [isNotInFreeGroup] at h
    simp [availableSize, held, pageSize, PagedTokenToKVPoolAllocator.availableSize,
      PagedTokenToKVPoolAllocator.held, h]

theorem availableSize_le_free (slots : List ℕ) :
    a.availableSize ≤ (a.free slots).availableSize := by
  cases a with
  | token a =>
    simp only [availableSize, free, TokenToKVPoolAllocator.free,
      TokenToKVPoolAllocator.availableSize]
    split_ifs <;> simp
  | paged a =>
    simp only [availableSize, free, PagedTokenToKVPoolAllocator.free,
      PagedTokenToKVPoolAllocator.availableSize]
    split_ifs
    · exact le_rfl
    all_goals exact Nat.mul_le_mul_right _ (by simp)

theorem newPages_le {pageSize : ℕ} (hps : 0 < pageSize) {entries : List ExtendEntry}
    (hle : ∀ e ∈ entries, e.prefixLen ≤ e.seqLen) :
    newPages pageSize entries ≤
      (entries.map fun e => e.seqLen - e.prefixLen).sum / pageSize + entries.length := by
  have hmul : newPages pageSize entries * pageSize ≤
      (entries.map fun e => e.seqLen - e.prefixLen).sum + pageSize * entries.length := by
    induction entries with
    | nil => simp
    | cons e es ih =>
      have ih := ih fun x hx => hle x (mem_cons_of_mem _ hx)
      have h1 := pageCount_mul_lt hps e.seqLen
      have h2 := le_pageCount_mul hps e.prefixLen
      simp only [newPages_cons, ExtendEntry.numNewPages, Nat.add_mul, Nat.sub_mul, map_cons,
        sum_cons, length_cons, Nat.mul_add, Nat.mul_one]
      omega
  rw [← Nat.add_mul_div_left _ _ hps]
  exact (Nat.le_div_iff_mul_le hps).mpr hmul

theorem allocExtend_isSome (hwf : a.Wf) {entries : List ExtendEntry} {n : ℕ}
    (hle : ∀ e ∈ entries, e.prefixLen ≤ e.seqLen)
    (hn : n = (entries.map fun e => e.seqLen - e.prefixLen).sum)
    (hfit : newPages a.pageSize entries * a.pageSize ≤ a.availableSize) :
    ∃ b out, a.allocExtend entries n = (b, some out) := by
  cases a with
  | token a =>
    have hnew : newPages 1 entries = n := by
      rw [hn, newPages]
      congr 1
      exact map_congr_left fun e _ => numNewPages_one e
    have hfit : n ≤ a.availableSize := by
      rw [← hnew]
      simpa [pageSize, availableSize] using hfit
    obtain ⟨b, hb⟩ := a.alloc_isSome hwf hfit
    exact ⟨.token b, _, by rw [allocExtend, hb]⟩
  | paged a =>
    have hbound := newPages_le hwf.pageSize_pos hle
    rw [← hn] at hbound
    have hfit : newPages a.pageSize entries ≤ a.freePages.length + a.releasePages.length :=
      Nat.le_of_mul_le_mul_right hfit hwf.pageSize_pos
    obtain ⟨b, hb⟩ := take_isSome (a := a) hwf.2
      (hbound.trans (Nat.le_succ _)) hfit (ExtendEntry.batchIndices a.pageSize
        (a.beforeTake (n / a.pageSize + entries.length + 1)).freePages entries)
    exact ⟨.paged b, _, congrArg (fun r => (paged r.1, r.2)) hb⟩

theorem newPages_decode_le {pageSize : ℕ} (hps : 0 < pageSize) {seqLens : List (ℕ × ℕ)}
    (hpos : ∀ e ∈ seqLens, 0 < e.1) :
    newPages pageSize (seqLens.map decodeEntry) ≤ seqLens.length := by
  induction seqLens with
  | nil => simp
  | cons e es ih =>
    have ih := ih fun x hx => hpos x (mem_cons_of_mem _ hx)
    rw [map_cons, newPages_cons, numNewPages_decodeEntry hps e (hpos e mem_cons_self), length_cons]
    split <;> omega

theorem allocDecode_isSome (hwf : a.Wf) {seqLens : List (ℕ × ℕ)} (hpos : ∀ e ∈ seqLens, 0 < e.1)
    (hfit : newPages a.pageSize (seqLens.map decodeEntry) * a.pageSize ≤ a.availableSize) :
    ∃ b out, a.allocDecode seqLens = (b, some out) := by
  cases a with
  | token a =>
    have hnew : newPages 1 (seqLens.map decodeEntry) = seqLens.length := by
      clear hfit
      induction seqLens with
      | nil => rfl
      | cons e es ih =>
        rw [map_cons, newPages_cons, ih fun x hx => hpos x (mem_cons_of_mem _ hx),
          numNewPages_decodeEntry Nat.one_pos e (hpos e mem_cons_self), Nat.mod_one]
        simp [Nat.add_comm]
    have hfit : seqLens.length ≤ a.availableSize := by
      rw [← hnew]
      simpa [pageSize, availableSize] using hfit
    obtain ⟨b, hb⟩ := a.alloc_isSome hwf hfit
    exact ⟨.token b, _, by rw [allocDecode, hb]⟩
  | paged a =>
    have hfit : newPages a.pageSize (seqLens.map decodeEntry) ≤
        a.freePages.length + a.releasePages.length :=
      Nat.le_of_mul_le_mul_right hfit hwf.pageSize_pos
    have hle := newPages_decode_le hwf.pageSize_pos hpos
    obtain ⟨b, hb⟩ := take_isSome (a := a) hwf.2 hle hfit
      (decodeIndices a.pageSize
        (a.beforeTake seqLens.length).freePages seqLens)
    refine ⟨.paged b, decodeIndices a.pageSize
      (a.beforeTake seqLens.length).freePages seqLens, ?_⟩
    have hcount : seqLens.countP (fun e => e.1 % a.pageSize = 1) =
        newPages a.pageSize (seqLens.map decodeEntry) := countP_eq_newPages hwf.1 hpos
    simp only [allocDecode, PagedTokenToKVPoolAllocator.allocDecode, hcount]
    exact congrArg (fun r => (KVAllocator.paged r.1, r.2)) hb

end Available

end KVAllocator

end LLM42
