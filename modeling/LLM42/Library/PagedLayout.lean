import Mathlib.Data.List.Dedup
import Mathlib.Data.List.GetD
import Mathlib.Data.List.Range
import Mathlib.Tactic.Ring

/-! # Sequences laid over pages

A page of size `m` is a block of `m` consecutive locations. A sequence is laid over a list of
pages when its positions fill the pages one after the other. -/

namespace LLM42.Library

open List

variable {m n k : ℕ} {P N : List ℕ}

def pageCount (m n : ℕ) : ℕ := (n + m - 1) / m

theorem pageCount_mul (hm : 0 < m) (k : ℕ) : pageCount m (k * m) = k := by
  rw [pageCount, Nat.add_sub_assoc hm, Nat.mul_comm, Nat.mul_add_div hm,
    Nat.div_eq_of_lt (by omega), Nat.add_zero]

@[simp] theorem pageCount_zero (hm : 0 < m) : pageCount m 0 = 0 := by
  simpa using pageCount_mul hm 0

theorem pageCount_one (n : ℕ) : pageCount 1 n = n := by simp [pageCount]

theorem pageCount_mono (h : n ≤ k) : pageCount m n ≤ pageCount m k :=
  Nat.div_le_div_right (by omega)

section

variable (hm : 0 < m)

include hm

theorem pageCount_add_mul (n k : ℕ) : pageCount m (n + k * m) = pageCount m n + k := by
  rw [pageCount, pageCount, show n + k * m + m - 1 = n + m - 1 + m * k by
    rw [Nat.mul_comm k m]; omega, Nat.add_mul_div_left _ _ hm]

theorem le_pageCount_mul (n : ℕ) : n ≤ pageCount m n * m := by
  have := Nat.div_add_mod (n + m - 1) m
  have := Nat.mod_lt (n + m - 1) hm
  rw [pageCount, Nat.mul_comm]
  omega

theorem pageCount_mul_lt (n : ℕ) : pageCount m n * m < n + m := by
  have := Nat.div_add_mod (n + m - 1) m
  rw [pageCount, Nat.mul_comm]
  omega

theorem pageCount_of_mod_pos (h : 0 < n % m) : pageCount m n = n / m + 1 := by
  have hn := Nat.div_add_mod n m
  have hlt := Nat.mod_lt n hm
  have heq : n + m - 1 = m * (n / m + 1) + (n % m - 1) := by
    have : m * (n / m + 1) = m * (n / m) + m := Nat.mul_succ _ _
    omega
  rw [pageCount, heq, Nat.mul_add_div hm, Nat.div_eq_of_lt (by omega : n % m - 1 < m), Nat.add_zero]

theorem pageCount_of_mod_zero (h : n % m = 0) : pageCount m n = n / m := by
  have hn : n = n / m * m := (Nat.div_mul_cancel (Nat.dvd_of_mod_eq_zero h)).symm
  conv_lhs => rw [hn]
  exact pageCount_mul hm _

theorem pageCount_add_one (n : ℕ) : pageCount m (n + 1) = n / m + 1 := by
  rw [pageCount, show n + 1 + m - 1 = n + m by omega, Nat.add_div_right _ hm]

theorem pageCount_succ (n : ℕ) :
    pageCount m (n + 1) = pageCount m n + if n % m = 0 then 1 else 0 := by
  rw [pageCount_add_one hm]
  split
  next h => rw [pageCount_of_mod_zero hm h]
  next h => rw [pageCount_of_mod_pos hm (by omega)]

theorem div_lt_pageCount {i : ℕ} (h : i < n) : i / m < pageCount m n :=
  (Nat.div_lt_iff_lt_mul hm).mpr (h.trans_le (le_pageCount_mul hm n))

end

def pageSlots (m p : ℕ) : List ℕ := (List.range m).map (p * m + ·)

/-- Where position `i` is when the sequence is laid over the pages `P`. -/
def laidAt (m : ℕ) (P : List ℕ) (i : ℕ) : ℕ := P.getD (i / m) 0 * m + i % m

def laid (m : ℕ) (P : List ℕ) (n : ℕ) : List ℕ := (List.range n).map (laidAt m P)

@[simp] theorem length_laid : (laid m P n).length = n := by simp [laid]

@[simp] theorem laid_zero : laid m P 0 = [] := rfl

theorem laidAt_div (hm : 0 < m) (i : ℕ) : laidAt m P i / m = P.getD (i / m) 0 := by
  rw [laidAt, Nat.mul_comm, Nat.mul_add_div hm, Nat.div_eq_of_lt (Nat.mod_lt _ hm), Nat.add_zero]

theorem laid_add (m : ℕ) (P : List ℕ) (n k : ℕ) :
    laid m P (n + k) = laid m P n ++ (List.range k).map fun i => laidAt m P (n + i) := by
  simp [laid, range_add, Function.comp_def]

theorem take_laid (h : k ≤ n) : (laid m P n).take k = laid m P k := by
  rw [laid, ← map_take, take_range, Nat.min_eq_left h, laid]

theorem laidAt_add_mul (hm : 0 < m) (P : List ℕ) (k i : ℕ) :
    laidAt m P (k * m + i) = laidAt m (P.drop k) i := by
  rw [laidAt, laidAt, Nat.mul_comm k m, Nat.mul_add_div hm, Nat.mul_add_mod]
  simp [getD_eq_getElem?_getD]

theorem laidAt_add (P : List ℕ) {j i : ℕ} (h : j % m + i < m) :
    laidAt m P (j + i) = laidAt m P j + i := by
  have hm : 0 < m := by omega
  have hj : j + i = m * (j / m) + (j % m + i) := by
    have := Nat.div_add_mod j m
    omega
  have hdiv : (j + i) / m = j / m := by
    rw [hj, Nat.mul_add_div hm, Nat.div_eq_of_lt h, Nat.add_zero]
  have hmod : (j + i) % m = j % m + i := by
    rw [hj, Nat.mul_add_mod, Nat.mod_eq_of_lt h]
  rw [laidAt, laidAt, hdiv, hmod]
  ring

theorem drop_laid (hm : 0 < m) (P : List ℕ) (n k : ℕ) :
    (laid m P n).drop (k * m) = laid m (P.drop k) (n - k * m) := by
  apply ext_getElem
  · simp
  · intro i h1 h2
    simp [laid, laidAt_add_mul hm]

theorem laidAt_append_left (hm : 0 < m) {i : ℕ} (h : i < P.length * m) :
    laidAt m (P ++ N) i = laidAt m P i := by
  have hlt : i / m < P.length := (Nat.div_lt_iff_lt_mul hm).mpr h
  rw [laidAt, laidAt, getD_append _ _ _ _ hlt]

theorem laid_append_left (hm : 0 < m) (h : n ≤ P.length * m) : laid m (P ++ N) n = laid m P n := by
  refine map_congr_left fun i hi => laidAt_append_left hm ?_
  exact (mem_range.mp hi).trans_le h

theorem laid_take (hm : 0 < m) (h : n ≤ k * m) : laid m (P.take k) n = laid m P n := by
  refine map_congr_left fun i hi => ?_
  have hlt : i / m < k := (Nat.div_lt_iff_lt_mul hm).mpr ((mem_range.mp hi).trans_le h)
  simp [laidAt, getD_eq_getElem?_getD, hlt]

theorem laid_append (hm : 0 < m) (h : P.length * m ≤ n) :
    laid m (P ++ N) n = laid m P (P.length * m) ++ laid m N (n - P.length * m) := by
  have hn : n = P.length * m + (n - P.length * m) := by omega
  rw [hn, laid_add, laid_append_left hm le_rfl, Nat.add_sub_cancel_left]
  congr 1
  refine map_congr_left fun i _ => ?_
  rw [laidAt_add_mul hm, drop_left]

theorem laid_singleton (p : ℕ) : laid m [p] m = pageSlots m p := by
  refine map_congr_left fun i hi => ?_
  have hi := mem_range.mp hi
  simp [laidAt, Nat.div_eq_of_lt hi, Nat.mod_eq_of_lt hi]

theorem laid_length_mul (hm : 0 < m) (P : List ℕ) :
    laid m P (P.length * m) = P.flatMap (pageSlots m) := by
  induction P with
  | nil => simp
  | cons p P ih =>
    have hle : ([p] : List ℕ).length * m ≤ (p :: P).length * m := Nat.mul_le_mul_right m (by simp)
    have hsub : (p :: P).length * m - ([p] : List ℕ).length * m = P.length * m := by
      simp [Nat.add_mul]
    have happ := laid_append (N := P) hm hle
    rw [hsub, ih] at happ
    simpa [laid_singleton] using happ

/-- The pages that a list of locations touches. -/
def pagesOf (m : ℕ) (slots : List ℕ) : List ℕ := (slots.map (· / m)).dedup

@[simp] theorem pagesOf_nil : pagesOf m [] = [] := rfl

theorem nodup_pagesOf (slots : List ℕ) : (pagesOf m slots).Nodup := nodup_dedup _

theorem mem_pagesOf {slots : List ℕ} {p : ℕ} : p ∈ pagesOf m slots ↔ ∃ x ∈ slots, x / m = p := by
  simp [pagesOf]

theorem mem_pagesOf_laid (hm : 0 < m) (hP : P.length = pageCount m n) {p : ℕ} :
    p ∈ pagesOf m (laid m P n) ↔ p ∈ P := by
  rw [mem_pagesOf]
  constructor
  · rintro ⟨x, hx, rfl⟩
    obtain ⟨i, hi, rfl⟩ := mem_map.mp hx
    have hlt := div_lt_pageCount hm (mem_range.mp hi)
    rw [laidAt_div hm, getD_eq_getElem _ _ (hP ▸ hlt)]
    exact getElem_mem _
  · intro hp
    obtain ⟨j, hj, rfl⟩ := mem_iff_getElem.mp hp
    have hlt : j * m < n := by
      have h1 := pageCount_mul_lt hm n
      have h2 : (j + 1) * m ≤ pageCount m n * m := Nat.mul_le_mul_right m (hP ▸ hj)
      rw [Nat.add_mul] at h2
      omega
    refine ⟨laidAt m P (j * m), mem_map.mpr ⟨_, mem_range.mpr hlt, rfl⟩, ?_⟩
    rw [laidAt_div hm, Nat.mul_div_cancel _ hm, getD_eq_getElem _ _ hj]

/-- A sequence laid over different pages touches each of them, and no other. -/
theorem pagesOf_laid (hm : 0 < m) (hP : P.length = pageCount m n) (hnd : P.Nodup) :
    (pagesOf m (laid m P n)).Perm P :=
  (perm_ext_iff_of_nodup (nodup_pagesOf _) hnd).mpr fun _ => mem_pagesOf_laid hm hP

end LLM42.Library
