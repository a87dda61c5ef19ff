import Mathlib.Data.List.Basic

/-! # Parallel lists

A list that holds one entry for each element of another list, each entry related to the element at
its position. -/

namespace LLM42.Library

variable {α β : Type*} {D : ℕ → α → β → Prop} {xs xs' : List α} {ys ys' : List β}

/-- `ys` has an entry for every element of `xs`, and the entry at `k` is related to the element
at `k`. -/
structure Aligned (D : ℕ → α → β → Prop) (xs : List α) (ys : List β) : Prop where
  length_eq : ys.length = xs.length
  related : ∀ k x y, xs[k]? = some x → ys[k]? = some y → D k x y

theorem take_append_drop_take (xs : List α) {m n : ℕ} (h : m ≤ n) :
    xs.take m ++ (xs.take n).drop m = xs.take n := by
  have hm : xs.take m = (xs.take n).take m := by rw [List.take_take, Nat.min_eq_left h]
  rw [hm, List.take_append_drop]

theorem aligned_nil (D : ℕ → α → β → Prop) : Aligned D [] [] := ⟨rfl, by simp⟩

namespace Aligned

theorem append (h : Aligned D xs ys) (h' : Aligned (fun k => D (xs.length + k)) xs' ys') :
    Aligned D (xs ++ xs') (ys ++ ys') := by
  refine ⟨by simp [h.length_eq, h'.length_eq], fun k x y hx hy => ?_⟩
  rw [List.getElem?_append] at hx hy
  rw [h.length_eq] at hy
  split at hx
  next hk =>
    rw [if_pos hk] at hy
    exact h.related k x y hx hy
  next hk =>
  rw [if_neg hk] at hy
  have hrel := h'.related (k - xs.length) x y hx hy
  rwa [Nat.add_sub_cancel' (Nat.not_lt.mp hk)] at hrel

theorem singleton {x : α} {y : β} (h : D 0 x y) : Aligned D [x] [y] := by
  refine ⟨rfl, fun k a b ha hb => ?_⟩
  cases k with
  | zero =>
    obtain rfl : x = a := by simpa using ha
    obtain rfl : y = b := by simpa using hb
    exact h
  | succ k => simp at ha

theorem concat (h : Aligned D xs ys) {x : α} {y : β} (hxy : D xs.length x y) :
    Aligned D (xs ++ [x]) (ys ++ [y]) :=
  h.append (singleton hxy)

theorem take (h : Aligned D xs ys) (n : ℕ) : Aligned D (xs.take n) (ys.take n) := by
  refine ⟨by simp [h.length_eq], fun k x y hx hy => ?_⟩
  rw [List.getElem?_take] at hx hy
  split at hx
  next hk =>
    rw [if_pos hk] at hy
    exact h.related k x y hx hy
  next => cases hx

theorem of_range {f : ℕ → α} {g : ℕ → β} {n : ℕ} (h : ∀ k < n, D k (f k) (g k)) :
    Aligned D ((List.range n).map f) ((List.range n).map g) := by
  refine ⟨by simp, fun k x y hx hy => ?_⟩
  simp only [List.getElem?_map, Option.map_eq_some_iff] at hx hy
  obtain ⟨i, hi, rfl⟩ := hx
  obtain ⟨j, hj, rfl⟩ := hy
  obtain ⟨hlt, rfl⟩ := List.getElem?_eq_some_iff.mp hi
  obtain ⟨_, rfl⟩ := List.getElem?_eq_some_iff.mp hj
  rw [List.length_range] at hlt
  simpa using h k hlt

end Aligned

end LLM42.Library
