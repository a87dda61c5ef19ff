import LLM42.Serving.Requests

/-! # Page tables

A request that owns a row has its KV laid over a list of pages. An extend step and a decode step
hand every request of the batch the pages that it lacks, each page once, and lay the new positions
behind the old ones. -/

namespace LLM42

open Library List ReqToTokenPool KVAllocator

def MemReq.row (r : MemReq) : ℕ := r.reqPoolIdx.getD 0

section Layout

variable {m n k : ℕ} {P : List ℕ}

theorem laid_succ (m : ℕ) (P : List ℕ) (n : ℕ) : laid m P (n + 1) = laid m P n ++ [laidAt m P n] := by
  simp [laid_add]

theorem laid_congr {Q : List ℕ} (hm : 0 < m) (h : ∀ i < k, P.getD i 0 = Q.getD i 0) :
    laid m P (k * m) = laid m Q (k * m) := by
  refine map_congr_left fun i hi => ?_
  have hi : i / m < k := (Nat.div_lt_iff_lt_mul hm).mpr (mem_range.mp hi)
  rw [laidAt, laidAt, h _ hi]

theorem pageSlots_injective (hm : 0 < m) {p q : ℕ} (h : pageSlots m p = pageSlots m q) : p = q := by
  obtain ⟨j, rfl⟩ : ∃ j, m = j + 1 := ⟨m - 1, by omega⟩
  simp only [pageSlots, range_succ_eq_map, map_cons, cons.injEq] at h
  exact Nat.eq_of_mul_eq_mul_right (Nat.succ_pos j) h.1

theorem laid_append_next (last : ℕ) {pages : List ℕ} (hm : 0 < m) (hP : P.length = pageCount m n)
    (hlast : n % m ≠ 0 → last = laidAt m P (n - 1))
    (hfit : (if n % m = 0 then 1 else 0) ≤ pages.length) :
    laid m P n ++ [if n % m = 0 then pages.getD 0 0 * m else last + 1] =
      laid m (P ++ pages.take (if n % m = 0 then 1 else 0)) (n + 1) := by
  have hold : ∀ N, laid m (P ++ N) n = laid m P n := fun N =>
    laid_append_left hm (hP ▸ le_pageCount_mul hm n)
  rw [laid_succ, hold]
  congr 2
  have hdm := Nat.div_add_mod n m
  split
  next h0 =>
    rw [if_pos h0] at hfit
    have hlen : P.length = n / m := hP.trans (pageCount_of_mod_zero hm h0)
    cases pages with
    | nil => simp at hfit
    | cons p pages =>
      simp [laidAt, h0, ← hlen, getD_eq_getElem?_getD]
  next h0 =>
  rw [hlast h0, take_zero, append_nil]
  have hlt := Nat.mod_lt n hm
  have hmod : (n - 1) % m = n % m - 1 := by
    have hsub : n - 1 = m * (n / m) + (n % m - 1) := by omega
    rw [hsub, Nat.mul_add_mod, Nat.mod_eq_of_lt (by omega)]
  have hn : n - 1 + 1 = n := by
    omega
  rw [← laidAt_add P (by omega : (n - 1) % m + 1 < m), hn]

end Layout

namespace ReqToTokenPool

variable {p q : ReqToTokenPool} {values : List ℕ}

theorem slice_eq_of_row {i a b : ℕ} (h : ∀ j, p.reqToToken i j = q.reqToToken i j) :
    p.slice i a b = q.slice i a b := slice_congr fun j _ _ => h j

theorem write_reqToToken_of_ne {row i start : ℕ} (h : i ≠ row) (j : ℕ) :
    (p.write row start values).reqToToken i j = p.reqToToken i j := by
  simp [write, h]

theorem slice_write_append {row n : ℕ} :
    (p.write row n values).slice row 0 (n + values.length) = p.slice row 0 n ++ values := by
  rw [← slice_append _ (Nat.zero_le n) (Nat.le_add_right n _), slice_write_self,
    slice_write_of_le p le_rfl]

theorem slice_write_of_ge {row start a b : ℕ} (h : start + values.length ≤ a) :
    (p.write row start values).slice row a b = p.slice row a b := by
  refine slice_congr fun j hj _ => ?_
  simp only [write]
  rw [if_neg]
  omega

theorem slice_of_slice {row n k : ℕ} (h : k ≤ n) :
    p.slice row 0 k = (p.slice row 0 n).take k ∧ p.slice row k n = (p.slice row 0 n).drop k := by
  rw [← p.slice_append (Nat.zero_le k) h]
  have hlen : (p.slice row 0 k).length = k := by simp
  exact ⟨(take_left' hlen).symm, (drop_left' hlen).symm⟩

end ReqToTokenPool

namespace PagedMemory

variable {pageSize : ℕ} {heap : ℕ → MemReq} {row : ℕ → ℕ} {P : ℕ → List ℕ} {ids pages : List ℕ}

/-- The pages that a batch of requests gets, and their page tables after the step. -/
structure Laid (pageSize : ℕ) (ids pages : List ℕ) (row : ℕ → ℕ) (P : ℕ → List ℕ)
    (len : ℕ → ℕ) (rows rows' : ReqToTokenPool) (got : ℕ → List ℕ) : Prop where
  pages : ids.flatMap got = pages
  table : ∀ id ∈ ids, rows'.slice (row id) 0 (len id) = laid pageSize (P id ++ got id) (len id) ∧
    (P id ++ got id).length = pageCount pageSize (len id)
  others : ∀ i ∉ ids.map row, ∀ j, rows'.reqToToken i j = rows.reqToToken i j
  freeSlots : rows'.freeSlots = rows.freeSlots

theorem Laid.cons {id : ℕ} {N : List ℕ} {len : ℕ → ℕ} {rows rows₁ rows' : ReqToTokenPool}
    {got : ℕ → List ℕ} (hid : id ∉ ids) (hrow : row id ∉ ids.map row)
    (h : Laid pageSize ids pages row P len rows₁ rows' got)
    (htable : rows₁.slice (row id) 0 (len id) = laid pageSize (P id ++ N) (len id))
    (hlen : (P id ++ N).length = pageCount pageSize (len id))
    (hothers : ∀ i, i ≠ row id → ∀ j, rows₁.reqToToken i j = rows.reqToToken i j)
    (hfree : rows₁.freeSlots = rows.freeSlots) :
    Laid pageSize (id :: ids) (N ++ pages) row P len rows rows'
      (fun x => if x = id then N else got x) := by
  have hgot : ∀ x ∈ ids, (if x = id then N else got x) = got x := by
    intro x hx
    rw [if_neg]
    rintro rfl
    exact hid hx
  refine ⟨?_, ?_, ?_, h.freeSlots.trans hfree⟩
  · rw [flatMap_cons, if_pos rfl, flatMap_congr hgot, h.pages]
  · intro x hx
    rcases mem_cons.mp hx with rfl | hx
    · rw [if_pos rfl, slice_eq_of_row (h.others _ hrow)]
      exact ⟨htable, hlen⟩
    · rw [hgot x hx]
      exact h.table x hx
  · intro i hi j
    rw [map_cons, mem_cons, not_or] at hi
    rw [h.others i hi.2, hothers i hi.1]

/-- `write_cache_indices` lays the new tokens of each request behind its prefix. -/
theorem writeCacheIndices_laid (hps : 0 < pageSize) (hnd : ids.Nodup) (hrows : (ids.map row).Nodup)
    (pages : List ℕ) (rows : ReqToTokenPool)
    (hP : ∀ id ∈ ids, (heap id).prefixIndices = laid pageSize (P id) (heap id).prefixIndices.length ∧
      (P id).length = pageCount pageSize (heap id).prefixIndices.length ∧
      (heap id).prefixIndices.length ≤ (heap id).fillIds.length)
    (hfit : newPages pageSize (ids.map fun id => (heap id).extendEntry) ≤
      pages.length) :
    ∃ got, Laid pageSize ids
      (pages.take (newPages pageSize (ids.map fun id => (heap id).extendEntry))) row P
      (fun id => (heap id).fillIds.length) rows
      (writeCacheIndices rows (ExtendEntry.batchIndices pageSize pages
        (ids.map fun id => (heap id).extendEntry)) (ids.map fun id => (row id, heap id))) got := by
  induction ids generalizing pages rows with
  | nil => exact ⟨fun _ => [], ⟨by simp, by simp, by simp [writeCacheIndices], rfl⟩⟩
  | cons id ids ih =>
    obtain ⟨hid, hnd⟩ := nodup_cons.mp hnd
    obtain ⟨hrow, hrows⟩ := nodup_cons.mp (map_cons ▸ hrows)
    obtain ⟨hpre, hlen, hle⟩ := hP id mem_cons_self
    rw [map_cons, newPages_cons] at hfit
    have hk : ((heap id).extendEntry.numNewPages pageSize) ≤ pages.length := by omega
    -- the new slots of the first request
    have hindices : laid pageSize (P id) (heap id).prefixIndices.length ++
        (heap id).extendEntry.indices pageSize pages =
        laid pageSize (P id ++ pages.take ((heap id).extendEntry.numNewPages pageSize))
          (heap id).fillIds.length :=
      ExtendEntry.laid_append_indices (e := (heap id).extendEntry) hps hlen hle
        (congrArg getLast? hpre)
    have hnew : ((heap id).extendEntry.indices pageSize pages).length =
        (heap id).fillIds.length - (heap id).prefixIndices.length := by
      have := congrArg length hindices
      simp only [length_append, length_laid, MemReq.extendEntry] at this ⊢
      omega
    have hcount : (P id ++ pages.take ((heap id).extendEntry.numNewPages pageSize)).length =
        pageCount pageSize (heap id).fillIds.length := by
      rw [length_append, hlen, length_take, Nat.min_eq_left hk, ExtendEntry.numNewPages]
      exact Nat.add_sub_cancel' (pageCount_mono hle)
    set rows₁ := (rows.write (row id) 0 (heap id).prefixIndices).write (row id)
      (heap id).prefixIndices.length ((heap id).extendEntry.indices pageSize pages) with hrows₁
    obtain ⟨got, hgot⟩ := ih hnd hrows (pages.drop ((heap id).extendEntry.numNewPages pageSize)) rows₁
      (fun x hx => hP x (mem_cons_of_mem _ hx)) (by rw [length_drop]; omega)
    refine ⟨fun x => if x = id then pages.take ((heap id).extendEntry.numNewPages pageSize)
      else got x, ?_⟩
    rw [map_cons, map_cons, newPages_cons, take_add, ExtendEntry.batchIndices, writeCacheIndices]
    rw [take_left' hnew, drop_left' hnew, ← hrows₁]
    refine Laid.cons hid hrow hgot ?_ hcount ?_ rfl
    · have hsum : (heap id).fillIds.length = (heap id).prefixIndices.length +
          ((heap id).extendEntry.indices pageSize pages).length := by omega
      rw [hsum, hrows₁, slice_write_append, ← hsum, ← hindices]
      congr 1
      have hself := slice_write_self rows (row id) 0 (heap id).prefixIndices
      rw [Nat.zero_add] at hself
      exact hself.trans hpre
    · intro i hi j
      rw [hrows₁, write_reqToToken_of_ne hi, write_reqToToken_of_ne hi]

/-- `alloc_for_decode` lays the next token of each request behind its KV. -/
theorem writeNext_laid (hps : 0 < pageSize) (hnd : ids.Nodup)
    (hrows : (ids.map fun id => (heap id).row).Nodup) (pages : List ℕ) (rows : ReqToTokenPool)
    {entry : ℕ → ℕ × ℕ}
    (hP : ∀ id ∈ ids, rows.slice (heap id).row 0 (heap id).kvCommittedLen =
        laid pageSize (P id) (heap id).kvCommittedLen ∧
      (P id).length = pageCount pageSize (heap id).kvCommittedLen ∧
      (heap id).encoderLen + (heap id).seqLen = (heap id).kvCommittedLen ∧
      (entry id).1 = (heap id).seqLen + 1 ∧
      (pageSize = 1 ∨ (heap id).encoderLen = 0) ∧
      ((heap id).kvCommittedLen % pageSize ≠ 0 →
        (entry id).2 = laidAt pageSize (P id) ((heap id).kvCommittedLen - 1)))
    (hfit : newPages pageSize ((ids.map entry).map decodeEntry) ≤
      pages.length) :
    ∃ got, Laid pageSize ids
      (pages.take (newPages pageSize ((ids.map entry).map decodeEntry)))
      (fun id => (heap id).row) P (fun id => (heap id).kvCommittedLen + 1) rows
      (writeNext rows (ExtendEntry.batchIndices pageSize pages
        ((ids.map entry).map decodeEntry)) (ids.map heap)) got := by
  induction ids generalizing pages rows with
  | nil => exact ⟨fun _ => [], ⟨by simp, by simp, by simp [writeNext], rfl⟩⟩
  | cons id ids ih =>
    obtain ⟨hid, hnd⟩ := nodup_cons.mp hnd
    obtain ⟨hrow, hrows⟩ := nodup_cons.mp (map_cons ▸ hrows)
    obtain ⟨htable, hlen, hlens, hentry, hplain, hlast⟩ := hP id mem_cons_self
    have hpos : 0 < (entry id).1 := by rw [hentry]; exact Nat.succ_pos _
    have hnum : (decodeEntry (entry id)).numNewPages pageSize =
        if (heap id).kvCommittedLen % pageSize = 0 then 1 else 0 := by
      rw [numNewPages_decodeEntry hps _ hpos, hentry, Nat.add_sub_cancel]
      rcases hplain with rfl | h0
      · rw [Nat.mod_one, Nat.mod_one]
      · rw [h0, Nat.zero_add] at hlens
        rw [hlens]
    simp only [map_cons, newPages_cons] at hfit
    have hslot := indices_decodeEntry hps (entry id) hpos pages
    set slot := if (decodeEntry (entry id)).numNewPages pageSize = 0 then (entry id).2 + 1
      else pages.getD 0 0 * pageSize with hslotdef
    have hnext : laid pageSize (P id) (heap id).kvCommittedLen ++ [slot] =
        laid pageSize (P id ++ pages.take ((decodeEntry (entry id)).numNewPages pageSize))
          ((heap id).kvCommittedLen + 1) := by
      have := laid_append_next (entry id).2 hps hlen hlast
        (by omega : (if (heap id).kvCommittedLen % pageSize = 0 then 1 else 0) ≤ pages.length)
      rw [hnum, ← this, hslotdef, hnum]
      congr 2
      by_cases h0 : (heap id).kvCommittedLen % pageSize = 0 <;> simp [h0]
    have hcount : (P id ++ pages.take
        ((decodeEntry (entry id)).numNewPages pageSize)).length =
        pageCount pageSize ((heap id).kvCommittedLen + 1) := by
      rw [length_append, length_take, Nat.min_eq_left (by omega), hlen, hnum]
      exact (pageCount_succ hps _).symm
    set rows₁ := rows.write (heap id).row ((heap id).encoderLen + (heap id).seqLen) [slot] with hrows₁
    have hothers : ∀ i, i ≠ (heap id).row → ∀ j, rows₁.reqToToken i j = rows.reqToToken i j :=
      fun i hi j => write_reqToToken_of_ne hi j
    obtain ⟨got, hgot⟩ := ih hnd hrows
      (pages.drop ((decodeEntry (entry id)).numNewPages pageSize)) rows₁
      (fun x hx => by
        obtain ⟨hx1, hx2⟩ := hP x (mem_cons_of_mem _ hx)
        refine ⟨?_, hx2⟩
        rw [slice_eq_of_row (hothers _ fun heq => hrow ?_)]
        · exact hx1
        · rw [← heq]
          exact mem_map_of_mem hx) (by rw [length_drop]; omega)
    refine ⟨fun x => if x = id then
      pages.take ((decodeEntry (entry id)).numNewPages pageSize) else got x, ?_⟩
    rw [map_cons, map_cons, map_cons, newPages_cons, take_add,
      ExtendEntry.batchIndices, hslot, singleton_append, writeNext]
    refine Laid.cons hid hrow hgot ?_ hcount hothers rfl
    rw [hrows₁, hlens]
    exact slice_write_append.trans (by rw [htable, hnext])

end PagedMemory

end LLM42
