import LLM42.Library.PathTree

/-! # Walks through a prefix tree

From a node up to the root, and from the root down along a key. The walk down cuts an edge where
the key leaves it; everything a cut keeps, the walk keeps. -/

namespace LLM42.Library

open List

variable {κ δ α : Type*}

namespace PathTree

/-! ### From a node to the root -/

section Ancestors

variable [DecidableEq κ] {T : PathTree κ δ} {e : PathNode κ δ} {p : List κ}

/-- The nodes met on the way up from `p`, at most `n` of them. -/
def climb (T : PathTree κ δ) : ℕ → List κ → List (PathNode κ δ)
  | 0, _ => []
  | n + 1, p => match T.node? p with
    | none => []
    | some e => e :: climb T n e.parent

/-- The node at `p` and all nodes above it, lowest first. -/
def ancestors (T : PathTree κ δ) (p : List κ) : List (PathNode κ δ) := T.climb p.length p

section

variable (hT : T.Shaped)

include hT

theorem Shaped.node?_nil : T.node? [] = none := by
  cases h : T.node? [] with
  | none => rfl
  | some e =>
    obtain ⟨he, hp⟩ := mem_of_node? h
    have := hT.start_lt e he
    simp [hp] at this

theorem Shaped.mem_climb {n : ℕ} (hp : T.Holds p) (hn : p.length ≤ n) :
    e ∈ T.climb n p ↔ e ∈ T ∧ e.path <+: p := by
  induction n generalizing p with
  | zero =>
    obtain rfl : p = [] := length_eq_zero_iff.mp (by omega)
    simp only [climb, not_mem_nil, prefix_nil, false_iff, not_and]
    intro he h
    have := hT.start_lt e he
    simp [h] at this
  | succ n ih =>
    rcases hp with rfl | ⟨f, hf, rfl⟩
    · simp only [climb, hT.node?_nil, not_mem_nil, prefix_nil, false_iff, not_and]
      intro he h
      have := hT.start_lt e he
      simp [h] at this
    · have hlt := hT.start_lt f hf
      have hlen := hT.length_parent hf
      simp only [climb, hT.node?_eq hf, mem_cons]
      rw [ih (hT.parent_mem f hf) (by omega)]
      constructor
      · rintro (rfl | ⟨he, hpre⟩)
        · exact ⟨hf, prefix_refl _⟩
        · exact ⟨he, hpre.trans (List.take_prefix _ _)⟩
      · rintro ⟨he, hpre⟩
        by_cases h : f.start < e.path.length
        · exact .inl (hT.not_covers_longer he hf hpre h)
        · refine .inr ⟨he, ?_⟩
          rw [PathNode.parent, prefix_take_iff]
          exact ⟨hpre, by omega⟩

theorem Shaped.mem_ancestors (hp : T.Holds p) : e ∈ T.ancestors p ↔ e ∈ T ∧ e.path <+: p :=
  hT.mem_climb hp le_rfl

theorem Shaped.climb_nodup {n : ℕ} (hp : T.Holds p) (hn : p.length ≤ n) :
    ((T.climb n p).map (·.path)).Nodup := by
  induction n generalizing p with
  | zero => simp [climb]
  | succ n ih =>
    rcases hp with rfl | ⟨f, hf, rfl⟩
    · simp [climb, hT.node?_nil]
    · have hlt := hT.start_lt f hf
      have hlen := hT.length_parent hf
      simp only [climb, hT.node?_eq hf, map_cons, nodup_cons]
      refine ⟨?_, ih (hT.parent_mem f hf) (by omega)⟩
      intro hmem
      obtain ⟨g, hg, hgp⟩ := mem_map.mp hmem
      have hpre := ((hT.mem_climb (hT.parent_mem f hf) (by omega)).mp hg).2
      have := hpre.length_le
      rw [hgp, hlen] at this
      omega

theorem Shaped.ancestors_nodup (hp : T.Holds p) : ((T.ancestors p).map (·.path)).Nodup :=
  hT.climb_nodup hp le_rfl

end

end Ancestors

/-! ### Following a key -/

section Descend

variable [DecidableEq κ] {cut : ℕ → δ → δ × δ} {T T' : PathTree κ δ} {e x : PathNode κ δ}
  {p q key : List κ} {n : ℕ} {fuel : ℕ}

/-- Go from `p` to the child that `key` leads to, cutting its edge where `key` leaves it. -/
def enter (cut : ℕ → δ → δ × δ) (T : PathTree κ δ) (p key : List κ) :
    Option (PathNode κ δ × PathTree κ δ) :=
  match key with
  | [] => none
  | s :: _ => (T.child? p s).map fun e =>
    let n := keyMatch e.key key
    if n < e.key.length then (upper cut e n, T.split cut e n) else (e, T)

/-- What a step along `key` can be. -/
inductive Enters (cut : ℕ → δ → δ × δ) (T : PathTree κ δ) (p key : List κ) :
    PathNode κ δ → PathTree κ δ → Prop
  | whole {e : PathNode κ δ} : e ∈ T → e.start = p.length → e.path = p ++ e.key → e.key <+: key →
      Enters cut T p key e T
  | part {e : PathNode κ δ} {n : ℕ} : e ∈ T → e.start = p.length → e.path = p ++ e.key → 0 < n →
      n < e.key.length → e.key.take n <+: key →
      (e.key.drop n).head? ≠ (key.drop n).head? → Enters cut T p key (upper cut e n) (T.split cut e n)

theorem enters_of_enter (h : T.enter cut p key = some (x, T')) : Enters cut T p key x T' := by
  cases key with
  | nil => cases h
  | cons s key =>
    obtain ⟨e, he, h⟩ := Option.map_eq_some_iff.mp h
    obtain ⟨hmem, hs, htake⟩ := mem_of_child? he
    have hpath : e.path = p ++ e.key := by
      have : e.parent = p := by
        rw [PathNode.parent, hs]
        have := congrArg (take p.length) htake
        rw [take_take] at this
        simpa using this
      rw [← e.parent_append_key, this]
    have hhead : e.key.head? = some s := by
      rw [PathNode.key, hs, head?_drop]
      have := congrArg (·[p.length]?) htake
      simpa [getElem?_take] using this
    have hpos : 0 < keyMatch e.key (s :: key) := keyMatch_pos (by simpa using hhead) (by simp)
    dsimp only at h
    split at h
    next hlt =>
      cases h
      refine .part hmem hs hpath hpos hlt ?_ (head?_drop_keyMatch hlt)
      rw [take_keyMatch]
      exact take_prefix _ _
    next hlt =>
    cases h
    refine .whole hmem hs hpath ?_
    rw [← keyMatch_eq_length_iff]
    exact le_antisymm (keyMatch_le_left _ _) (not_lt.mp hlt)

theorem not_stored_of_enter (hT : T.Shaped) (hp : T.Holds p) (h : T.enter cut p key = none) {s : κ}
    (hs : p ++ [s] <+: p ++ key) : ¬ T.Stored (p ++ [s]) := by
  cases key with
  | nil =>
    have hle := hs.length_le
    simp only [append_nil, length_append, length_singleton] at hle
    omega
  | cons t key =>
    obtain rfl : s = t := by
      have := (prefix_append_right_inj p).mp hs
      simpa using this
    have hnone : T.child? p s = none := by simpa [enter] using h
    rw [← hT.child?_isSome hp, hnone]
    simp

namespace Enters

variable (h : Enters cut T p key x T')
include h

theorem shaped (hT : T.Shaped) : T'.Shaped := by
  cases h with
  | whole => exact hT
  | part he _ _ hpos hlt => exact hT.split cut he hpos hlt

theorem mem (hT : T.Shaped) : x ∈ T' := by
  cases h with
  | whole he => exact he
  | part he => exact (mem_split hT he).mpr (.inl rfl)

theorem start_eq : x.start = p.length := by
  cases h with
  | whole _ hs => exact hs
  | part _ hs => exact hs

theorem path_eq : x.path = p ++ x.key := by
  cases h with
  | whole _ _ hp => exact hp
  | part _ hs hp hpos hlt =>
    rw [key_upper]
    simp only [upper]
    rw [hs, hp, take_append]
    simp

theorem key_begins : x.key <+: key := by
  cases h with
  | whole _ _ _ hk => exact hk
  | part _ _ _ _ _ hk =>
    rw [key_upper]
    exact hk

theorem key_ne_nil (hT : T.Shaped) : x.key ≠ [] := (h.shaped hT).key_ne_nil (h.mem hT)

theorem stored (hT : T.Shaped) : T'.Stored q ↔ T.Stored q := by
  cases h with
  | whole => rfl
  | part he => exact stored_split hT he

theorem cell {view : δ → ℕ → α} (hv : CutView cut view) (hT : T.Shaped) :
    T'.cell view q = T.cell view q := by
  cases h with
  | whole => rfl
  | part he _ _ hpos hlt => exact cell_split hT he hv hpos hlt q

theorem preserves {P : PathTree κ δ → Prop}
    (hP : ∀ e ∈ T, ∀ n, 0 < n → n < e.key.length → P T → P (T.split cut e n)) (h0 : P T) :
    P T' := by
  cases h with
  | whole => exact h0
  | part he _ _ hpos hlt => exact hP _ he _ hpos hlt h0

end Enters

/-- Follow `key` down from `p` as far as it is stored: the tree, where the walk ended, and the
nodes it went through. -/
def descend (cut : ℕ → δ → δ × δ) : ℕ → PathTree κ δ → List κ → List κ →
    PathTree κ δ × List κ × List (PathNode κ δ)
  | 0, T, p, _ => (T, p, [])
  | fuel + 1, T, p, key => match T.enter cut p key with
    | none => (T, p, [])
    | some (x, T') =>
      let r := descend cut fuel T' x.path (key.drop x.key.length)
      (r.1, r.2.1, x :: r.2.2)

theorem descend_preserves {P : PathTree κ δ → Prop}
    (hP : ∀ T : PathTree κ δ, T.Shaped → ∀ e ∈ T, ∀ n, 0 < n → n < e.key.length → P T →
      P (T.split cut e n)) (hT : T.Shaped) (h0 : P T) :
    (descend cut fuel T p key).1.Shaped ∧ P (descend cut fuel T p key).1 := by
  induction fuel generalizing T p key with
  | zero => exact ⟨hT, h0⟩
  | succ fuel ih =>
    unfold descend
    split
    · exact ⟨hT, h0⟩
    next x T' h =>
      have hent := enters_of_enter h
      exact ih (hent.shaped hT) (hent.preserves (hP T hT) h0)

theorem Shaped.descend (hT : T.Shaped) : (descend cut fuel T p key).1.Shaped :=
  (descend_preserves (P := fun _ => True) (fun _ _ _ _ _ _ _ _ => trivial) hT trivial).1

theorem stored_descend (hT : T.Shaped) : (descend cut fuel T p key).1.Stored q ↔ T.Stored q :=
  (descend_preserves (P := fun T' => T'.Stored q ↔ T.Stored q)
    (fun _ hT _ he _ _ _ h => (stored_split hT he).trans h) hT Iff.rfl).2

theorem cell_descend {view : δ → ℕ → α} (hv : CutView cut view) (hT : T.Shaped) :
    (descend cut fuel T p key).1.cell view q = T.cell view q :=
  (descend_preserves (P := fun T' => T'.cell view q = T.cell view q)
    (fun _ hT _ he _ hpos hlt h => (cell_split hT he hv hpos hlt q).trans h) hT rfl).2

/-- Where a walk can end: at a node that begins the key and cannot be left along it. -/
structure Reaches (T : PathTree κ δ) (p key r : List κ) : Prop where
  below : r <+: p ++ key
  stop : ∀ s, r ++ [s] <+: p ++ key → ¬ T.Stored (r ++ [s])

/-- With enough fuel, the walk goes as far along the key as the tree does. -/
theorem descend_reaches (hT : T.Shaped) (hp : T.Holds p) (hf : key.length ≤ fuel) :
    (descend cut fuel T p key).1.Holds (descend cut fuel T p key).2.1 ∧
      Reaches T p key (descend cut fuel T p key).2.1 := by
  induction fuel generalizing T p key with
  | zero =>
    obtain rfl : key = [] := length_eq_zero_iff.mp (by omega)
    refine ⟨hp, by simp [descend], fun s hs => ?_⟩
    have hle := hs.length_le
    simp only [descend, append_nil, length_append, length_singleton] at hle
    omega
  | succ fuel ih =>
    unfold descend
    split
    next h => exact ⟨hp, prefix_append _ _, fun s hs => not_stored_of_enter hT hp h hs⟩
    next x T' h =>
    have hent := enters_of_enter h
    have hmem := hent.mem hT
    obtain ⟨rest, hrest⟩ := hent.key_begins
    have hdrop : key.drop x.key.length = rest := by rw [← hrest, drop_left]
    have hfull : x.path ++ key.drop x.key.length = p ++ key := by
      rw [hdrop, hent.path_eq, append_assoc, hrest]
    have hpos := length_pos_of_ne_nil (hent.key_ne_nil hT)
    obtain ⟨hh, hr⟩ := @ih T' x.path (key.drop x.key.length) (hent.shaped hT)
      (.inr ⟨x, hmem, rfl⟩) (by simp only [length_drop]; omega)
    refine ⟨hh, hfull ▸ hr.below, fun s hs => ?_⟩
    rw [← hent.stored hT]
    exact hr.stop s (hfull ▸ hs)

theorem length_descend (hT : T.Shaped) :
    p ++ (descend cut fuel T p key).2.2.flatMap (·.key) = (descend cut fuel T p key).2.1 := by
  induction fuel generalizing T p key with
  | zero => simp [descend]
  | succ fuel ih =>
    unfold descend
    split
    · simp
    next x T' h =>
    have hent := enters_of_enter h
    rw [flatMap_cons, ← append_assoc, ← hent.path_eq]
    exact ih (hent.shaped hT)

end Descend

/-! ### One value for each symbol -/

section Values

variable [DecidableEq κ] {ν : Type*} {cut : ℕ → δ → δ × δ} {value : δ → List ν}
  {T : PathTree κ δ} {e x : PathNode κ δ} {p q key : List κ} {d : δ} {n : ℕ}

def valueAt (value : δ → List ν) (T : PathTree κ δ) (q : List κ) : Option ν :=
  (T.cell (fun d i => (value d)[i]?) q).join

def Filled (value : δ → List ν) (T : PathTree κ δ) : Prop :=
  ∀ e ∈ T, (value e.data).length = e.key.length

/-- A cut takes the values apart with the edge. -/
structure CutsValues (cut : ℕ → δ → δ × δ) (value : δ → List ν) : Prop where
  upper : ∀ n d, value (cut n d).1 = (value d).take n
  lower : ∀ n d, value (cut n d).2 = (value d).drop n

theorem CutsValues.cutView (h : CutsValues cut value) : CutView cut fun d i => (value d)[i]? where
  upper n d i hi := by rw [h.upper, getElem?_take_of_lt hi]
  lower n d i := by rw [h.lower, getElem?_drop]

theorem Filled.split (hf : T.Filled value) (hc : CutsValues cut value) (hT : T.Shaped)
    (he : e ∈ T) : (T.split cut e n).Filled value := by
  intro x hx
  rcases (mem_split hT he).mp hx with rfl | rfl | ⟨hx, -⟩
  · rw [key_upper, upper, hc.upper, length_take, length_take, hf e he]
  · rw [key_lower, lower, hc.lower, length_drop, length_drop, hf e he]
  · exact hf x hx

theorem valueAt_descend (hc : CutsValues cut value) (hT : T.Shaped) {fuel : ℕ} :
    (descend cut fuel T p key).1.valueAt value q = T.valueAt value q := by
  rw [valueAt, cell_descend hc.cutView hT, valueAt]

theorem Shaped.valueAt_eq (hT : T.Shaped) (he : e ∈ T) (hq : e.Covers q) :
    T.valueAt value q = (value e.data)[q.length - 1 - e.start]? := by
  rw [valueAt, hT.cell_eq _ he hq, Option.join_some]

theorem Filled.valueAt_isSome (hf : T.Filled value) (hT : T.Shaped) :
    (T.valueAt value q).isSome ↔ T.Stored q := by
  constructor
  · intro h
    by_contra hq
    rw [valueAt, cell_eq_none.mpr hq] at h
    simp at h
  · rintro ⟨e, he, hc⟩
    have hlen := hc.2.length_le
    have hlt := hc.1
    have hbound : q.length - 1 - e.start < (value e.data).length := by
      rw [hf e he, e.length_key]
      omega
    rw [hT.valueAt_eq he hc, getElem?_eq_getElem hbound]
    rfl

theorem Filled.length_visited (hf : T.Filled value) (hc : CutsValues cut value) (hT : T.Shaped)
    {fuel : ℕ} (hx : x ∈ (descend cut fuel T p key).2.2) :
    (value x.data).length = x.key.length := by
  induction fuel generalizing T p key with
  | zero => simp [descend] at hx
  | succ fuel ih =>
    unfold descend at hx
    split at hx
    · simp at hx
    next y T' h =>
    have hent := enters_of_enter h
    have hf' : T'.Filled value := hent.preserves (fun e he n _ _ hf => hf.split hc hT he) hf
    rcases mem_cons.mp hx with rfl | hx
    · exact hf' _ (hent.mem hT)
    · exact ih hf' (hent.shaped hT) hx

/-- The values that a walk collects are those stored for the beginnings of where it ends. -/
theorem getElem?_descend (hf : T.Filled value) (hc : CutsValues cut value) (hT : T.Shaped)
    {fuel i : ℕ} (hi : p.length + i < (descend cut fuel T p key).2.1.length) :
    ((descend cut fuel T p key).2.2.flatMap (value ·.data))[i]? =
      T.valueAt value ((descend cut fuel T p key).2.1.take (p.length + i + 1)) := by
  induction fuel generalizing T p key i with
  | zero =>
    simp only [descend] at hi
    omega
  | succ fuel ih =>
    unfold descend at hi ⊢
    split at hi
    · simp only at hi
      omega
    next x T' h =>
    simp only at hi ⊢
    have hent := enters_of_enter h
    have hT' := hent.shaped hT
    have hx := hent.mem hT
    have hf' : T'.Filled value := hent.preserves (fun e he n _ _ hf => hf.split hc hT he) hf
    have hval : ∀ q, T'.valueAt value q = T.valueAt value q := fun q => by
      rw [valueAt, hent.cell hc.cutView hT, valueAt]
    have hxlen : x.path.length = p.length + x.key.length := by
      rw [hent.path_eq, length_append]
    have hbeg : x.path ++ (descend cut fuel T' x.path (key.drop x.key.length)).2.2.flatMap
        (·.key) = (descend cut fuel T' x.path (key.drop x.key.length)).2.1 := length_descend hT'
    rw [flatMap_cons]
    by_cases hlt : i < x.key.length
    · rw [getElem?_append_left (by rw [hf' x hx]; exact hlt), ← hval]
      have htake : (descend cut fuel T' x.path (key.drop x.key.length)).2.1.take
          (p.length + i + 1) = x.path.take (p.length + i + 1) := by
        rw [← hbeg, take_append_of_le_length (by omega)]
      have hlen : (x.path.take (p.length + i + 1)).length = p.length + i + 1 := by
        rw [length_take]
        omega
      rw [htake, hT'.valueAt_eq hx ⟨by rw [hlen, hent.start_eq]; omega, take_prefix _ _⟩,
        hlen, hent.start_eq]
      congr 1
      omega
    · rw [getElem?_append_right (by rw [hf' x hx]; omega), hf' x hx, ih hf' hT' (by omega), hval]
      congr 2
      omega

end Values

end PathTree

end LLM42.Library
