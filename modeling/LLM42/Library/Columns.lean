import Mathlib.Data.List.Nodup

/-! # Tables kept column by column

The columns of a table are separate lists over one list of keys. A column has one row for each key,
related to it; rows are taken by position, and the columns of two tables are put one after the
other. -/

namespace LLM42.Library

open List

variable {α β : Type*} {R S : α → β → Prop} {xs xs' : List α} {ys ys' : List β} {keep : List ℕ}
  {out : List α}

def select (keep : List ℕ) (rows : List α) : Option (List α) := keep.mapM fun i => rows[i]?

theorem select_cons_eq_some {i : ℕ} : select (i :: keep) xs = some out ↔
      ∃ x rest, xs[i]? = some x ∧ select keep xs = some rest ∧ x :: rest = out := by
  simp [select, mapM_cons, Option.bind_eq_some_iff]

section

variable (h : select keep xs = some out)

include h

theorem mem_of_select {x : α} (hx : x ∈ out) : ∃ i ∈ keep, xs[i]? = some x := by
  induction keep generalizing out with
  | nil =>
    cases h
    cases hx
  | cons i keep ih =>
    obtain ⟨y, rest, hy, hrest, rfl⟩ := select_cons_eq_some.mp h
    rcases mem_cons.mp hx with rfl | hx
    · exact ⟨i, mem_cons_self, hy⟩
    · obtain ⟨j, hj, hxj⟩ := ih hrest hx
      exact ⟨j, mem_cons_of_mem i hj, hxj⟩

theorem select_subset : out ⊆ xs := by
  intro x hx
  obtain ⟨i, -, hget⟩ := mem_of_select h hx
  exact mem_of_getElem? hget

theorem select_nodup (hkeep : keep.Nodup) (hxs : xs.Nodup) : out.Nodup := by
  induction keep generalizing out with
  | nil =>
    cases h
    exact nodup_nil
  | cons i keep ih =>
    obtain ⟨x, rest, hx, hrest, rfl⟩ := select_cons_eq_some.mp h
    obtain ⟨hi, hkeep⟩ := nodup_cons.mp hkeep
    refine nodup_cons.mpr ⟨fun hmem => ?_, ih hrest hkeep⟩
    obtain ⟨j, hj, hxj⟩ := mem_of_select hrest hmem
    have hlt := (List.getElem?_eq_some_iff.mp hx).1
    have hij : i = j := (getElem?_inj hlt hxs).mp (hx.trans hxj.symm)
    exact hi (hij ▸ hj)

end

def indicesWhere (p : α → Bool) (xs : List α) : List ℕ :=
  (range xs.length).filter fun i => xs[i]?.any p

theorem indicesWhere_cons (p : α → Bool) (x : α) (xs : List α) : indicesWhere p (x :: xs) =
      (if p x then [0] else []) ++ (indicesWhere p xs).map Nat.succ := by
  simp only [indicesWhere, length_cons, range_succ_eq_map, filter_cons,
    getElem?_cons_zero, Option.any_some, filter_map]
  have hrest : (fun i => (x :: xs)[i]?.any p) ∘ Nat.succ = fun i => xs[i]?.any p := by
    funext i
    simp
  rw [hrest]
  split <;> rfl

theorem select_map_succ (keep : List ℕ) (x : α) (xs : List α) :
    select (keep.map Nat.succ) (x :: xs) = select keep xs := by
  simp only [select, mapM_map]
  congr 1

theorem select_indicesWhere (p : α → Bool) (xs : List α) :
    select (indicesWhere p xs) xs = some (xs.filter p) := by
  induction xs with
  | nil => rfl
  | cons x xs ih =>
    rw [indicesWhere_cons, filter_cons]
    split
    · exact select_cons_eq_some.mpr ⟨x, _, rfl, (select_map_succ _ x xs).trans ih, rfl⟩
    · rw [nil_append, select_map_succ, ih]

theorem length_indicesWhere (p : α → Bool) (xs : List α) :
    (indicesWhere p xs).length = (xs.filter p).length := by
  induction xs with
  | nil => rfl
  | cons x xs ih =>
    rw [indicesWhere_cons, filter_cons, length_append, length_map, ih]
    split <;> simp [Nat.add_comm]

/-! ## Columns -/

theorem forall₂_getElem? (h : List.Forall₂ R xs ys) {i : ℕ} {x : α} (hx : xs[i]? = some x) :
    ∃ y, ys[i]? = some y ∧ R x y := by
  obtain ⟨hlt, rfl⟩ := List.getElem?_eq_some_iff.mp hx
  have hlt' : i < ys.length := h.length_eq ▸ hlt
  exact ⟨_, getElem?_eq_getElem hlt', h.get hlt hlt'⟩

/-- Columns selected by the same positions stay related. -/
theorem forall₂_select (h : Forall₂ R xs ys) (hsel : select keep xs = some xs') :
    ∃ ys', select keep ys = some ys' ∧ Forall₂ R xs' ys' := by
  induction keep generalizing xs' with
  | nil =>
    cases hsel
    exact ⟨[], rfl, .nil⟩
  | cons i keep ih =>
    obtain ⟨x, rest, hx, hrest, rfl⟩ := select_cons_eq_some.mp hsel
    obtain ⟨y, hy, hxy⟩ := forall₂_getElem? h hx
    obtain ⟨rows, hrows, hrel⟩ := ih hrest
    exact ⟨y :: rows, select_cons_eq_some.mpr ⟨y, rows, hy, hrows, rfl⟩, .cons hxy hrel⟩

theorem forall₂_map {f : α → β} (h : ∀ x ∈ xs, R x (f x)) : Forall₂ R xs (xs.map f) := by
  rw [forall₂_map_right_iff, forall₂_same]
  exact h

theorem forall₂_map_map {γ : Type*} {g : α → γ} {f : γ → β} (h : ∀ x ∈ xs, R x (f (g x))) :
    Forall₂ R xs ((xs.map g).map f) := by
  rw [map_map]
  exact forall₂_map h

theorem forall₂_replicate {y : β} (h : ∀ x ∈ xs, R x y) :
    Forall₂ R xs (replicate xs.length y) := by
  rw [← map_const']
  exact forall₂_map h

theorem forall₂_imp_mem (h : Forall₂ R xs ys) (himp : ∀ x ∈ xs, ∀ y, R x y → S x y) :
    Forall₂ S xs ys := by
  induction h with
  | nil => exact .nil
  | cons hxy _ ih =>
    exact .cons (himp _ mem_cons_self _ hxy) (ih fun x hx => himp x (mem_cons_of_mem _ hx))

theorem forall₂_map_rows {γ : Type*} {T : α → γ → Prop} {f : β → γ} (h : Forall₂ R xs ys)
    (himp : ∀ x ∈ xs, ∀ y, R x y → T x (f y)) : Forall₂ T xs (ys.map f) := by
  rw [forall₂_map_right_iff]
  exact forall₂_imp_mem h himp

/-! ## Columns that may be missing -/

/-- A column that has all its rows, if it is there at all. -/
def RowsIfAny (R : α → β → Prop) (xs : List α) : Option (List β) → Prop
  | none => True
  | some rows => Forall₂ R xs rows

def selectIfAny (keep : List ℕ) : Option (List β) → Option (Option (List β))
  | none => some none
  | some rows => (select keep rows).map some

namespace RowsIfAny

variable {col col' : Option (List β)}

theorem select (h : RowsIfAny R xs col) (hsel : select keep xs = some xs') :
    ∃ col', selectIfAny keep col = some col' ∧ RowsIfAny R xs' col' ∧ col'.isSome = col.isSome := by
  cases col with
  | none => exact ⟨none, rfl, trivial, rfl⟩
  | some rows =>
    obtain ⟨rows', hrows', hrel⟩ := forall₂_select h hsel
    exact ⟨some rows', by rw [selectIfAny, hrows']; rfl, hrel, rfl⟩

theorem imp_mem (h : RowsIfAny R xs col) (himp : ∀ x ∈ xs, ∀ y, R x y → S x y) :
    RowsIfAny S xs col := by
  cases col with
  | none => trivial
  | some rows => exact forall₂_imp_mem h himp

end RowsIfAny

end LLM42.Library
