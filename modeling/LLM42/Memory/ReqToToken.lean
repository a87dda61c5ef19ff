import LLM42.Request.Basic

/-! # Page table

`ReqToTokenPool` of `mem_cache/memory_pool.py`: one row of KV slots per running request. Rows
keep stale entries; only positions below a request's length mean anything. -/

namespace LLM42

structure ReqToTokenPool where
  size : ℕ
  reqToToken : ℕ → ℕ → ℕ
  freeSlots : List ℕ

namespace ReqToTokenPool

def create (size : ℕ) : ReqToTokenPool := ⟨size, fun _ _ => 0, List.range size⟩

def slice (p : ReqToTokenPool) (row start stop : ℕ) : List ℕ :=
  (List.range' start (stop - start)).map (p.reqToToken row)

def write (p : ReqToTokenPool) (row start : ℕ) (values : List ℕ) : ReqToTokenPool :=
  { p with reqToToken := fun i j =>
      if i = row ∧ start ≤ j ∧ j < start + values.length then values.getD (j - start) 0
      else p.reqToToken i j }

def clear (p : ReqToTokenPool) : ReqToTokenPool := { p with freeSlots := List.range p.size }

/-- `free`: the row of a request goes back to the end of the list. -/
def freeRow (p : ReqToTokenPool) (row : ℕ) : ReqToTokenPool :=
  { p with freeSlots := p.freeSlots ++ [row] }

variable (p : ReqToTokenPool) {row start stop : ℕ}

@[simp] theorem length_slice (row start stop : ℕ) :
    (p.slice row start stop).length = stop - start := by
  simp [slice]

theorem slice_of_le (h : stop ≤ start) : p.slice row start stop = [] := by
  simp [slice, Nat.sub_eq_zero_of_le h]

theorem slice_append {row a b c : ℕ} (hab : a ≤ b) (hbc : b ≤ c) :
    p.slice row a b ++ p.slice row b c = p.slice row a c := by
  have hb : b = a + (b - a) := by omega
  have hc : c - a = (b - a) + (c - b) := by omega
  rw [slice, slice, slice, ← List.map_append, hc]
  nth_rewrite 2 [hb]
  rw [List.range'_append_1]

theorem slice_succ (h : start ≤ stop) :
    p.slice row start (stop + 1) = p.slice row start stop ++ [p.reqToToken row stop] := by
  rw [← p.slice_append h (Nat.le_succ stop)]
  simp [slice]

theorem slice_congr {p q : ReqToTokenPool}
    (h : ∀ j, start ≤ j → j < stop → p.reqToToken row j = q.reqToToken row j) :
    p.slice row start stop = q.slice row start stop := by
  refine List.map_congr_left ?_
  intro j hj
  rw [List.mem_range'_1] at hj
  exact h j hj.1 (by omega)

theorem mem_slice {row start stop x : ℕ} :
    x ∈ p.slice row start stop ↔ ∃ j, start ≤ j ∧ j < stop ∧ p.reqToToken row j = x := by
  simp only [slice, List.mem_map, List.mem_range'_1]
  constructor
  · rintro ⟨j, ⟨h1, h2⟩, rfl⟩
    exact ⟨j, h1, by omega, rfl⟩
  · rintro ⟨j, h1, h2, rfl⟩
    exact ⟨j, ⟨h1, by omega⟩, rfl⟩

theorem slice_write_of_le {row start a b : ℕ} {values : List ℕ} (h : b ≤ start) :
    (p.write row start values).slice row a b = p.slice row a b := by
  refine slice_congr fun j _ hj => ?_
  simp only [write]
  rw [if_neg]
  omega

theorem slice_write_self (row start : ℕ) (values : List ℕ) :
    (p.write row start values).slice row start (start + values.length) = values := by
  apply List.ext_getElem
  · simp
  · intro i h1 h2
    simp [slice, write, h2]

end ReqToTokenPool

end LLM42
