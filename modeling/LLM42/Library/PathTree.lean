import LLM42.Library.RadixForest
import Mathlib.Data.List.Nodup
import Mathlib.Algebra.BigOperators.Group.List.Basic

/-! # Compressed prefix trees as tables of nodes

A node is known by its path from the root. Its own edge is the end of that path, from `start` on;
what is before `start` is the path of its parent. Cutting an edge adds a node in the middle of a
path and keeps the lower half under its old path, so a reference to a node stays good for as long
as the node is in the table. The root is not in the table. -/

namespace LLM42.Library

open List

/-- A node: its path, where its own edge starts on it, and what is stored with it. -/
structure PathNode (κ δ : Type*) where
  path : List κ
  start : ℕ
  data : δ
deriving DecidableEq

abbrev PathTree (κ δ : Type*) := List (PathNode κ δ)

variable {κ δ α : Type*}

namespace PathNode

def key (e : PathNode κ δ) : List κ := e.path.drop e.start

def parent (e : PathNode κ δ) : List κ := e.path.take e.start

/-- The edge of `e` carries the last symbol of `q`. -/
def Covers (e : PathNode κ δ) (q : List κ) : Prop := e.start < q.length ∧ q <+: e.path

instance [DecidableEq κ] (e : PathNode κ δ) (q : List κ) : Decidable (e.Covers q) :=
  inferInstanceAs (Decidable (_ ∧ _))

theorem parent_append_key (e : PathNode κ δ) : e.parent ++ e.key = e.path := take_append_drop _ _

theorem length_key (e : PathNode κ δ) : e.key.length = e.path.length - e.start := by simp [key]

end PathNode

namespace PathTree

def Holds (T : PathTree κ δ) (p : List κ) : Prop := p = [] ∨ ∃ e ∈ T, e.path = p

/-- Some edge carries the last symbol of `q`. -/
def Stored (T : PathTree κ δ) (q : List κ) : Prop := ∃ e ∈ T, e.Covers q

def Childless (T : PathTree κ δ) (p : List κ) : Prop := ∀ e ∈ T, e.parent ≠ p

/-- Every node has a proper edge and a parent, and the edges that leave one node begin with
different symbols. -/
structure Shaped (T : PathTree κ δ) : Prop where
  nodup : (T.map (·.path)).Nodup
  start_lt : ∀ e ∈ T, e.start < e.path.length
  parent_mem : ∀ e ∈ T, T.Holds e.parent
  siblings : ∀ e ∈ T, ∀ f ∈ T, e.start = f.start →
    e.path.take (e.start + 1) = f.path.take (e.start + 1) → e = f

section Shape

variable {T : PathTree κ δ} {e f : PathNode κ δ} {p q : List κ}

theorem Shaped.eq_of_path (hT : T.Shaped) (he : e ∈ T) (hf : f ∈ T) (h : e.path = f.path) : e = f :=
  inj_on_of_nodup_map hT.nodup he hf h

theorem Shaped.covers_path (hT : T.Shaped) (he : e ∈ T) : e.Covers e.path :=
  ⟨hT.start_lt e he, prefix_refl _⟩

theorem Shaped.key_ne_nil (hT : T.Shaped) (he : e ∈ T) : e.key ≠ [] := by
  have := hT.start_lt e he
  rw [PathNode.key, ne_eq, drop_eq_nil_iff]
  omega

theorem Shaped.length_parent (hT : T.Shaped) (he : e ∈ T) : e.parent.length = e.start := by
  have := hT.start_lt e he
  simp only [PathNode.parent, length_take]
  omega

theorem shaped_nil : Shaped ([] : PathTree κ δ) := by constructor <;> simp

section

variable (hT : T.Shaped)

include hT

/-- One edge carries each symbol. The induction is on the length of `q`: the upper end of the
lower edge is itself a node, which the other edge would have to carry. -/
theorem Shaped.covers_unique (he : e ∈ T) (hf : f ∈ T) (hce : e.Covers q) (hcf : f.Covers q) :
    e = f := by
  have key : ∀ n, ∀ q : List κ, q.length = n → ∀ e ∈ T, ∀ f ∈ T, e.Covers q → f.Covers q →
      e.start < f.start → False := by
    intro n
    induction n using Nat.strong_induction_on with
    | _ n ih =>
      intro q hq e he f hf hce hcf hlt
      rcases hT.parent_mem f hf with hnil | ⟨g, hg, hgp⟩
      · have := hT.length_parent hf
        rw [hnil] at this
        simp only [length_nil] at this
        omega
      · have hlen : g.path.length = f.start := by rw [hgp, hT.length_parent hf]
        have hgq : g.path = q.take f.start := by
          rw [hgp, PathNode.parent]
          obtain ⟨r, hr⟩ := hcf.2
          rw [← hr, take_append_of_le_length hcf.1.le]
        have hcg : g.Covers g.path := hT.covers_path hg
        have hceg : e.Covers g.path := by
          refine ⟨by omega, ?_⟩
          rw [hgq]
          exact (List.take_prefix _ _).trans hce.2
        have hlt' : g.path.length < n := by
          have := hcf.1
          omega
        have hse : e.start = g.start := by
          rcases lt_trichotomy e.start g.start with h | h | h
          · exact (ih _ hlt' g.path rfl e he g hg hceg hcg h).elim
          · exact h
          · exact (ih _ hlt' g.path rfl g hg e he hcg hceg h).elim
        have htake : e.path.take (e.start + 1) = g.path.take (e.start + 1) := by
          obtain ⟨r, hr⟩ := hceg.2
          rw [← hr, take_append_of_le_length hceg.1]
        have heg := hT.siblings e he g hg hse htake
        have hle := hce.2.length_le
        rw [heg, hlen] at hle
        omega
  rcases lt_trichotomy e.start f.start with h | h | h
  · exact (key _ q rfl e he f hf hce hcf h).elim
  · refine hT.siblings e he f hf h ?_
    obtain ⟨r, hr⟩ := hce.2
    obtain ⟨r', hr'⟩ := hcf.2
    rw [← hr, ← hr', take_append_of_le_length hce.1, take_append_of_le_length hce.1]
  · exact (key _ q rfl f hf e he hcf hce h).elim

theorem Shaped.not_covers_longer (he : e ∈ T) (hf : f ∈ T) (h : e.path <+: f.path)
    (hlt : f.start < e.path.length) : e = f :=
  hT.covers_unique he hf (hT.covers_path he) ⟨hlt, h⟩

/-- Below the middle of an edge there is only what is below its end. -/
theorem Shaped.prefix_of_covers (he : e ∈ T) (hc : e.Covers q) (hf : f ∈ T) (hq : q <+: f.path) :
    e.path <+: f.path := by
  have key : ∀ n, ∀ f ∈ T, f.start = n → q <+: f.path → e.path <+: f.path := by
    intro n
    induction n using Nat.strong_induction_on with
    | _ n ih =>
      intro f hf hs hqf
      by_cases hlt : f.start < q.length
      · rw [hT.covers_unique he hf hc ⟨hlt, hqf⟩]
      · have hpar : q <+: f.parent := by
          rw [PathNode.parent, prefix_take_iff]
          exact ⟨hqf, by omega⟩
        rcases hT.parent_mem f hf with hnil | ⟨g, hg, hgp⟩
        · rw [hnil, prefix_nil] at hpar
          have := hc.1
          simp [hpar] at this
        · have hglt : g.start < f.start := by
            have := hT.start_lt g hg
            rw [hgp, hT.length_parent hf] at this
            exact this
          refine (ih g.start (by omega) g hg rfl (hgp ▸ hpar)).trans ?_
          rw [hgp]
          exact take_prefix _ _
  exact key _ f hf rfl hq

theorem Shaped.start_of_covers (hp : T.Holds p) {s : κ} (he : e ∈ T) (hc : e.Covers (p ++ [s])) :
    e.start = p.length := by
  have hle : e.start ≤ p.length := by
    have := hc.1
    simp only [length_append, length_singleton] at this
    omega
  rcases hp with rfl | ⟨g, hg, rfl⟩
  · simpa using hle
  · by_contra hne
    have hge : g = e := hT.covers_unique hg he (hT.covers_path hg)
      ⟨by omega, (prefix_append _ _).trans hc.2⟩
    have := hc.2.length_le
    rw [hge, length_append, length_singleton] at this
    omega

theorem Shaped.stored_of_begins (h : T.Stored q) (hp : p <+: q) (hne : p ≠ []) : T.Stored p := by
  have key : ∀ n, ∀ e ∈ T, e.start = n → p <+: e.path → T.Stored p := by
    intro n
    induction n using Nat.strong_induction_on with
    | _ n ih =>
      intro e he hs hpe
      by_cases hlt : e.start < p.length
      · exact ⟨e, he, hlt, hpe⟩
      · have hpar : p <+: e.parent := by
          rw [PathNode.parent, prefix_take_iff]
          exact ⟨hpe, by omega⟩
        rcases hT.parent_mem e he with hnil | ⟨g, hg, hgp⟩
        · rw [hnil, prefix_nil] at hpar
          exact (hne hpar).elim
        · have hglt : g.start < e.start := by
            have := hT.start_lt g hg
            rw [hgp, hT.length_parent he] at this
            exact this
          exact ih g.start (by omega) g hg rfl (hgp ▸ hpar)
  obtain ⟨e, he, hc⟩ := h
  exact key _ e he rfl (hp.trans hc.2)

theorem Shaped.stored_path (he : e ∈ T) : T.Stored e.path := ⟨e, he, hT.covers_path he⟩

theorem Holds.stored (hp : T.Holds p) (hne : p ≠ []) : T.Stored p := by
  rcases hp with h | ⟨e, he, rfl⟩
  · exact (hne h).elim
  · exact hT.stored_path he

end

end Shape

section Lookup

variable [DecidableEq κ]

instance (T : PathTree κ δ) (q : List κ) : Decidable (T.Stored q) :=
  inferInstanceAs (Decidable (∃ e ∈ T, e.Covers q))

instance (T : PathTree κ δ) (p : List κ) : Decidable (T.Childless p) :=
  inferInstanceAs (Decidable (∀ e ∈ T, e.parent ≠ p))

def node? (T : PathTree κ δ) (p : List κ) : Option (PathNode κ δ) := T.find? (·.path = p)

/-- The child of `p` whose edge begins with `s`. -/
def child? (T : PathTree κ δ) (p : List κ) (s : κ) : Option (PathNode κ δ) :=
  T.find? fun e => e.start = p.length ∧ e.path.take (p.length + 1) = p ++ [s]

/-- The node whose edge carries the last symbol of `q`. -/
def cover? (T : PathTree κ δ) (q : List κ) : Option (PathNode κ δ) := T.find? (·.Covers q)

/-- What `view` reads at the last symbol of `q`. -/
def cell (view : δ → ℕ → α) (T : PathTree κ δ) (q : List κ) : Option α :=
  (T.cover? q).map fun e => view e.data (q.length - 1 - e.start)

variable {T : PathTree κ δ} {e : PathNode κ δ} {p q : List κ} {s : κ}

theorem mem_of_node? (h : T.node? p = some e) : e ∈ T ∧ e.path = p :=
  ⟨mem_of_find?_eq_some h, by simpa using find?_some h⟩

theorem Shaped.node?_eq (hT : T.Shaped) (he : e ∈ T) : T.node? e.path = some e := by
  cases h : T.node? e.path with
  | none =>
    have := find?_eq_none.mp h e he
    simp at this
  | some f =>
    obtain ⟨hf, hp⟩ := mem_of_node? h
    rw [hT.eq_of_path hf he hp]

theorem mem_of_child? (h : T.child? p s = some e) :
    e ∈ T ∧ e.start = p.length ∧ e.path.take (p.length + 1) = p ++ [s] :=
  ⟨mem_of_find?_eq_some h, by simpa using find?_some h⟩

theorem Shaped.child?_eq (hT : T.Shaped) (he : e ∈ T) (hs : e.start = p.length)
    (hp : e.path.take (p.length + 1) = p ++ [s]) : T.child? p s = some e := by
  cases h : T.child? p s with
  | none =>
    have := find?_eq_none.mp h e he
    simp [hs, hp] at this
  | some f =>
    obtain ⟨hf, hfs, hfp⟩ := mem_of_child? h
    rw [hT.siblings f hf e he (hfs.trans hs.symm) (by rw [hfs, hfp, hp])]

theorem mem_of_cover? (h : T.cover? q = some e) : e ∈ T ∧ e.Covers q :=
  ⟨mem_of_find?_eq_some h, by simpa using find?_some h⟩

theorem Shaped.cover?_eq (hT : T.Shaped) (he : e ∈ T) (hc : e.Covers q) : T.cover? q = some e := by
  cases h : T.cover? q with
  | none =>
    have := find?_eq_none.mp h e he
    simp [hc] at this
  | some f =>
    obtain ⟨hf, hcf⟩ := mem_of_cover? h
    rw [hT.covers_unique hf he hcf hc]

theorem cover?_eq_none : T.cover? q = none ↔ ¬ T.Stored q := by
  simp [cover?, Stored]

theorem Shaped.cell_eq (hT : T.Shaped) (view : δ → ℕ → α) (he : e ∈ T) (hc : e.Covers q) :
    T.cell view q = some (view e.data (q.length - 1 - e.start)) := by
  simp [cell, hT.cover?_eq he hc]

theorem cell_eq_none {view : δ → ℕ → α} : T.cell view q = none ↔ ¬ T.Stored q := by
  simp [cell, cover?_eq_none]

theorem exists_of_cell {view : δ → ℕ → α} {a : α} (h : T.cell view q = some a) :
    ∃ e ∈ T, e.Covers q ∧ view e.data (q.length - 1 - e.start) = a := by
  obtain ⟨e, he, ha⟩ := Option.map_eq_some_iff.mp h
  obtain ⟨hmem, hc⟩ := mem_of_cover? he
  exact ⟨e, hmem, hc, ha⟩

theorem Shaped.child?_parent (hT : T.Shaped) (he : e ∈ T) :
    ∃ s rest, e.key = s :: rest ∧ T.child? e.parent s = some e := by
  obtain ⟨s, rest, hk⟩ := exists_cons_of_ne_nil (hT.key_ne_nil he)
  have hlen := hT.length_parent he
  refine ⟨s, rest, hk, hT.child?_eq he hlen.symm ?_⟩
  conv_lhs => rw [← e.parent_append_key, hk]
  rw [take_append]
  simp

/-- A child knows its parent and begins with the symbol it is filed under. -/
theorem Shaped.parent_of_child? (hT : T.Shaped) (h : T.child? p s = some e) :
    e ∈ T ∧ e.parent = p ∧ e.key.head? = some s := by
  obtain ⟨he, hs, htake⟩ := mem_of_child? h
  have hp : e.parent = p := by
    rw [PathNode.parent, hs]
    have := congrArg (take p.length) htake
    rw [take_take] at this
    simpa using this
  refine ⟨he, hp, ?_⟩
  obtain ⟨t, rest, hk, hc⟩ := hT.child?_parent he
  rw [hp] at hc
  obtain ⟨-, -, htake'⟩ := mem_of_child? hc
  have : [t] = [s] := append_cancel_left (htake'.symm.trans htake)
  rw [hk, head?_cons]
  simpa using this

theorem Shaped.eq_of_head? {f : PathNode κ δ} (hT : T.Shaped) (he : e ∈ T) (hf : f ∈ T)
    (hp : e.parent = f.parent) (hk : e.key.head? = f.key.head?) : e = f := by
  obtain ⟨s, rest, hs, hc⟩ := hT.child?_parent he
  obtain ⟨t, rest', ht, hc'⟩ := hT.child?_parent hf
  rw [hs, ht, head?_cons, head?_cons, Option.some.injEq] at hk
  rw [hp, hk, hc'] at hc
  exact (Option.some.inj hc).symm

/-- Below the root or a node, the child is found exactly when the longer path is stored. -/
theorem Shaped.child?_isSome (hT : T.Shaped) (hp : T.Holds p) :
    (T.child? p s).isSome ↔ T.Stored (p ++ [s]) := by
  constructor
  · intro h
    obtain ⟨e, he⟩ := Option.isSome_iff_exists.mp h
    obtain ⟨hmem, hs, htake⟩ := mem_of_child? he
    refine ⟨e, hmem, by simp [hs], ?_⟩
    rw [← htake]
    exact take_prefix _ _
  · rintro ⟨e, hmem, hc⟩
    have hs := hT.start_of_covers hp hmem hc
    have htake : e.path.take (p.length + 1) = p ++ [s] := by
      obtain ⟨r, hr⟩ := hc.2
      rw [← hr, take_append_of_le_length (by simp)]
      exact take_of_length_le (by simp)
    rw [hT.child?_eq hmem hs htake]
    rfl

theorem perm_cons_filter_ne (T : PathTree κ δ) (hT : T.Shaped) (he : e ∈ T) :
    T.Perm (e :: T.filter (·.path ≠ e.path)) := by
  have hnd : T.Nodup := Nodup.of_map _ hT.nodup
  classical
  have herase : T.erase e = T.filter (·.path ≠ e.path) := by
    rw [hnd.erase_eq_filter]
    refine filter_congr fun x hx => ?_
    by_cases h : x = e
    · simp [h]
    · have : x.path ≠ e.path := fun h' => h (hT.eq_of_path hx he h')
      simp [h, this]
  rw [← herase]
  exact perm_cons_erase he

end Lookup

/-! ### Cutting an edge -/

section Split

variable (cut : ℕ → δ → δ × δ)

def upper (e : PathNode κ δ) (n : ℕ) : PathNode κ δ :=
  ⟨e.path.take (e.start + n), e.start, (cut n e.data).1⟩

def lower (e : PathNode κ δ) (n : ℕ) : PathNode κ δ := ⟨e.path, e.start + n, (cut n e.data).2⟩

variable {cut} {T : PathTree κ δ} {e x : PathNode κ δ} {n : ℕ} {p q : List κ}

theorem covers_upper : (upper cut e n).Covers q ↔ e.Covers q ∧ q.length ≤ e.start + n := by
  simp only [PathNode.Covers, upper, prefix_take_iff]
  tauto

theorem covers_lower : (lower cut e n).Covers q ↔ e.Covers q ∧ e.start + n < q.length := by
  simp only [PathNode.Covers, lower]
  constructor
  · rintro ⟨h, hp⟩
    exact ⟨⟨by omega, hp⟩, h⟩
  · rintro ⟨⟨-, hp⟩, h⟩
    exact ⟨h, hp⟩

variable (cut) in
theorem length_path_upper (hn : n ≤ e.key.length) (hs : e.start < e.path.length) :
    (upper cut e n).path.length = e.start + n := by
  rw [PathNode.length_key] at hn
  simp only [upper, length_take]
  omega

theorem key_upper : (upper cut e n).key = e.key.take n := by
  simp [upper, PathNode.key, drop_take]

theorem key_lower : (lower cut e n).key = e.key.drop n := by
  simp [lower, PathNode.key, drop_drop]

theorem parent_upper : (upper cut e n).parent = e.parent := by
  simp [upper, PathNode.parent, take_take]

variable (cut) in
theorem Shaped.not_holds_upper (hT : T.Shaped) (he : e ∈ T) (hpos : 0 < n)
    (hlt : n < e.key.length) : ∀ f ∈ T, f.path ≠ (upper cut e n).path := by
  intro f hf hp
  have hlen := length_path_upper cut hlt.le (hT.start_lt e he)
  have hpre : (upper cut e n).path <+: e.path := take_prefix _ _
  have hfe := hT.not_covers_longer hf he (hp ▸ hpre) (by rw [hp, hlen]; omega)
  rw [hfe] at hp
  rw [PathNode.length_key] at hlt
  rw [← hp] at hlen
  omega

variable [DecidableEq κ]

variable (cut) in
def split (T : PathTree κ δ) (e : PathNode κ δ) (n : ℕ) : PathTree κ δ :=
  upper cut e n :: T.map fun x => if x.path = e.path then lower cut e n else x

/-- A reading that the two halves share with the whole. -/
structure CutView (cut : ℕ → δ → δ × δ) (view : δ → ℕ → α) : Prop where
  upper : ∀ n d i, i < n → view (cut n d).1 i = view d i
  lower : ∀ n d i, view (cut n d).2 i = view d (n + i)

variable (hT : T.Shaped) (he : e ∈ T)

include hT he

theorem mem_split :
    x ∈ T.split cut e n ↔ x = upper cut e n ∨ x = lower cut e n ∨ x ∈ T ∧ x ≠ e := by
  have hne : ∀ y ∈ T, y.path = e.path ↔ y = e :=
    fun y hy => ⟨hT.eq_of_path hy he, fun h => by rw [h]⟩
  simp only [split, mem_cons, mem_map]
  refine or_congr_right ⟨?_, ?_⟩
  · rintro ⟨y, hy, rfl⟩
    split
    · exact .inl rfl
    next h => exact .inr ⟨hy, fun h' => h (by rw [h'])⟩
  · rintro (rfl | ⟨hx, hxe⟩)
    · exact ⟨e, he, by simp⟩
    · exact ⟨x, hx, if_neg fun h => hxe ((hne x hx).mp h)⟩

theorem holds_split :
    (T.split cut e n).Holds p ↔ T.Holds p ∨ p = (upper cut e n).path := by
  simp only [Holds, mem_split hT he]
  constructor
  · rintro (h | ⟨x, rfl | rfl | ⟨hx, -⟩, hp⟩)
    · exact .inl (.inl h)
    · exact .inr hp.symm
    · exact .inl (.inr ⟨e, he, hp⟩)
    · exact .inl (.inr ⟨x, hx, hp⟩)
  · rintro ((h | ⟨x, hx, hp⟩) | h)
    · exact .inl h
    · by_cases hxe : x = e
      · exact .inr ⟨lower cut e n, .inr (.inl rfl), hxe ▸ hp⟩
      · exact .inr ⟨x, .inr (.inr ⟨hx, hxe⟩), hp⟩
    · exact .inr ⟨_, .inl rfl, h.symm⟩

theorem childless_split :
    (T.split cut e n).Childless p ↔ T.Childless p ∧ p ≠ (upper cut e n).path := by
  have hup : (upper cut e n).parent = e.parent := parent_upper
  have hlow : (lower cut e n).parent = (upper cut e n).path := rfl
  simp only [Childless, mem_split hT he]
  constructor
  · intro h
    refine ⟨fun x hx => ?_, fun hp => h _ (.inr (.inl rfl)) (hlow.trans hp.symm)⟩
    by_cases hxe : x = e
    · rw [hxe, ← hup]
      exact h _ (.inl rfl)
    · exact h x (.inr (.inr ⟨hx, hxe⟩))
  · rintro ⟨h, hp⟩ x (rfl | rfl | ⟨hx, -⟩)
    · rw [hup]
      exact h e he
    · rw [hlow]
      exact hp.symm
    · exact h x hx

variable (cut) in
theorem Shaped.split (hpos : 0 < n) (hlt : n < e.key.length) :
    (T.split cut e n).Shaped := by
  have hstart := hT.start_lt e he
  have hlen := length_path_upper cut hlt.le hstart
  have hkey := e.length_key
  refine ⟨?_, ?_, ?_, ?_⟩
  · have hmap : (T.map fun x => if x.path = e.path then lower cut e n else x).map (·.path) =
        T.map (·.path) := by
      rw [map_map]
      refine map_congr_left fun x hx => ?_
      dsimp only [Function.comp]
      split
      next h => exact h.symm
      · rfl
    simp only [PathTree.split, map_cons, hmap, nodup_cons]
    refine ⟨?_, hT.nodup⟩
    rintro hmem
    obtain ⟨f, hf, hp⟩ := mem_map.mp hmem
    exact hT.not_holds_upper cut he hpos hlt f hf hp
  · intro x hx
    rcases (mem_split hT he).mp hx with rfl | rfl | ⟨hx, -⟩
    · rw [hlen]
      simp only [upper]
      omega
    · simp only [lower]
      omega
    · exact hT.start_lt x hx
  · intro x hx
    rw [holds_split hT he]
    rcases (mem_split hT he).mp hx with rfl | rfl | ⟨hx, -⟩
    · left
      rw [parent_upper]
      exact hT.parent_mem e he
    · exact .inr rfl
    · exact .inl (hT.parent_mem x hx)
  · -- an old edge that shares its first symbol with a half would cover what `e` covers
    have hfirst : ∀ x ∈ T, x ≠ e → ∀ y : PathNode κ δ, x.start = y.start →
        (∀ q, y.Covers q → e.Covers q) → y.start < y.path.length →
        x.path.take (x.start + 1) ≠ y.path.take (x.start + 1) := by
      intro x hx hxe y hs hcov hlt htake
      have hcy : y.Covers (y.path.take (x.start + 1)) := by
        refine ⟨?_, take_prefix _ _⟩
        rw [length_take]
        omega
      have hcx : x.Covers (y.path.take (x.start + 1)) := by
        rw [← htake]
        refine ⟨?_, take_prefix _ _⟩
        have := hT.start_lt x hx
        rw [length_take]
        omega
      exact hxe (hT.covers_unique hx he hcx (hcov _ hcy))
    have hup : ∀ q, (upper cut e n).Covers q → e.Covers q := fun q h => (covers_upper.mp h).1
    have hlow : ∀ q, (lower cut e n).Covers q → e.Covers q := fun q h => (covers_lower.mp h).1
    have hupl : (upper cut e n).start < (upper cut e n).path.length := by
      rw [hlen]
      simp only [upper]
      omega
    have hlowl : (lower cut e n).start < (lower cut e n).path.length := by
      simp only [lower]
      omega
    have hdiff : (upper cut e n).start ≠ (lower cut e n).start := by
      simp only [upper, lower]
      omega
    intro x hx y hy hs htake
    rcases (mem_split hT he).mp hx with rfl | rfl | ⟨hx, hxe⟩ <;>
      rcases (mem_split hT he).mp hy with rfl | rfl | ⟨hy, hye⟩
    · rfl
    · exact (hdiff hs).elim
    · exact (hfirst y hy hye _ hs.symm hup hupl (by rw [← hs]; exact htake.symm)).elim
    · exact (hdiff hs.symm).elim
    · rfl
    · exact (hfirst y hy hye _ hs.symm hlow hlowl (by rw [← hs]; exact htake.symm)).elim
    · exact (hfirst x hx hxe _ hs hup hupl htake).elim
    · exact (hfirst x hx hxe _ hs hlow hlowl htake).elim
    · exact hT.siblings x hx y hy hs htake

theorem stored_split : (T.split cut e n).Stored q ↔ T.Stored q := by
  simp only [Stored, mem_split hT he]
  constructor
  · rintro ⟨x, rfl | rfl | ⟨hx, -⟩, hc⟩
    · exact ⟨e, he, (covers_upper.mp hc).1⟩
    · exact ⟨e, he, (covers_lower.mp hc).1⟩
    · exact ⟨x, hx, hc⟩
  · rintro ⟨x, hx, hc⟩
    by_cases hxe : x = e
    · subst hxe
      rcases le_or_gt q.length (x.start + n) with h | h
      · exact ⟨_, .inl rfl, covers_upper.mpr ⟨hc, h⟩⟩
      · exact ⟨_, .inr (.inl rfl), covers_lower.mpr ⟨hc, h⟩⟩
    · exact ⟨x, .inr (.inr ⟨hx, hxe⟩), hc⟩

theorem cell_split {view : δ → ℕ → α} (hv : CutView cut view)
    (hpos : 0 < n) (hlt : n < e.key.length) (q : List κ) :
    (T.split cut e n).cell view q = T.cell view q := by
  have hT' := hT.split cut he hpos hlt
  by_cases hq : T.Stored q
  · obtain ⟨x, hx, hc⟩ := hq
    rw [hT.cell_eq view hx hc]
    by_cases hxe : x = e
    · subst hxe
      rcases le_or_gt q.length (x.start + n) with h | h
      · rw [hT'.cell_eq view ((mem_split hT he).mpr (.inl rfl)) (covers_upper.mpr ⟨hc, h⟩)]
        simp only [upper]
        rw [hv.upper _ _ _ (by omega)]
      · rw [hT'.cell_eq view ((mem_split hT he).mpr (.inr (.inl rfl))) (covers_lower.mpr ⟨hc, h⟩)]
        simp only [lower]
        rw [hv.lower, show n + (q.length - 1 - (x.start + n)) = q.length - 1 - x.start by omega]
    · rw [hT'.cell_eq view ((mem_split hT he).mpr (.inr (.inr ⟨hx, hxe⟩))) hc]
  · rw [cell_eq_none.mpr hq, cell_eq_none, stored_split hT he]
    exact hq

theorem split_perm :
    (T.split cut e n).Perm (upper cut e n :: lower cut e n :: T.filter (·.path ≠ e.path)) := by
  refine Perm.cons _ ?_
  have hperm := T.perm_cons_filter_ne hT he
  refine (hperm.map _).trans ?_
  simp only [map_cons, if_true]
  refine Perm.cons _ (Perm.of_eq ?_)
  conv_rhs => rw [← map_id (T.filter (·.path ≠ e.path))]
  refine map_congr_left fun x hx => ?_
  have : x.path ≠ e.path := by simpa using (mem_filter.mp hx).2
  rw [if_neg this, id]

end Split

/-! ### New leaves, removed leaves, changed data -/

section Edit

variable {T : PathTree κ δ} {e x : PathNode κ δ} {p q key : List κ} {d : δ} {g : PathNode κ δ → δ}

def attach (T : PathTree κ δ) (p key : List κ) (d : δ) : PathTree κ δ :=
  ⟨p ++ key, p.length, d⟩ :: T

def mapData (T : PathTree κ δ) (g : PathNode κ δ → δ) : PathTree κ δ :=
  T.map fun e => { e with data := g e }

theorem stored_attach : (T.attach p key d).Stored q ↔
    (p.length < q.length ∧ q <+: p ++ key) ∨ T.Stored q := by
  simp [Stored, attach, PathNode.Covers]

theorem holds_attach : (T.attach p key d).Holds q ↔ T.Holds q ∨ q = p ++ key := by
  simp only [Holds, attach, mem_cons, exists_eq_or_imp]
  constructor
  · rintro (h | h | h)
    · exact .inl (.inl h)
    · exact .inr h.symm
    · exact .inl (.inr h)
  · rintro ((h | h) | h)
    · exact .inl h
    · exact .inr (.inr h)
    · exact .inr (.inl h.symm)

theorem childless_attach : (T.attach p key d).Childless q ↔ T.Childless q ∧ q ≠ p := by
  simp only [Childless, attach, forall_mem_cons, PathNode.parent, take_left]
  exact ⟨fun h => ⟨h.2, h.1.symm⟩, fun h => ⟨h.2.symm, h.1⟩⟩

theorem mem_mapData : x ∈ T.mapData g ↔ ∃ e ∈ T, x = { e with data := g e } := by
  simp [mapData, eq_comm]

theorem holds_mapData : (T.mapData g).Holds p ↔ T.Holds p := by
  simp [Holds, mapData]

theorem childless_mapData : (T.mapData g).Childless p ↔ T.Childless p := by
  simp [Childless, mapData, PathNode.parent]

theorem stored_mapData : (T.mapData g).Stored q ↔ T.Stored q := by
  simp [Stored, mapData, PathNode.Covers]

theorem paths_mapData : (T.mapData g).map (·.path) = T.map (·.path) := by
  simp [mapData, Function.comp_def]

theorem Shaped.mapData (hT : T.Shaped) : (T.mapData g).Shaped := by
  refine ⟨?_, ?_, ?_, ?_⟩
  · rw [paths_mapData]
    exact hT.nodup
  · rintro x hx
    obtain ⟨e, he, rfl⟩ := mem_mapData.mp hx
    exact hT.start_lt e he
  · rintro x hx
    obtain ⟨e, he, rfl⟩ := mem_mapData.mp hx
    exact holds_mapData.mpr (hT.parent_mem e he)
  · rintro x hx y hy hs htake
    obtain ⟨e, he, rfl⟩ := mem_mapData.mp hx
    obtain ⟨f, hf, rfl⟩ := mem_mapData.mp hy
    rw [hT.siblings e he f hf hs htake]

variable [DecidableEq κ]

def remove (T : PathTree κ δ) (p : List κ) : PathTree κ δ := T.filter (·.path ≠ p)

def edit (T : PathTree κ δ) (p : List κ) (g : δ → δ) : PathTree κ δ :=
  T.mapData fun e => if e.path = p then g e.data else e.data

theorem Shaped.attach (hT : T.Shaped) (hp : T.Holds p) {s : κ} {rest : List κ}
    (hfree : T.child? p s = none) : (T.attach p (s :: rest) d).Shaped := by
  have hnot : ¬ T.Stored (p ++ [s]) := by
    rw [← hT.child?_isSome hp, hfree]
    simp
  have hbegin : p ++ [s] <+: p ++ s :: rest := by
    rw [show p ++ s :: rest = (p ++ [s]) ++ rest by simp]
    exact prefix_append _ _
  have hnew : ∀ f ∈ T, p.length < f.path.length → ¬ (p ++ [s] <+: f.path) := fun f hf _ hpre =>
    hnot (hT.stored_of_begins (hT.stored_path hf) hpre (by simp))
  refine ⟨?_, ?_, ?_, ?_⟩
  · simp only [PathTree.attach, map_cons, nodup_cons]
    refine ⟨?_, hT.nodup⟩
    intro hmem
    obtain ⟨f, hf, hfp⟩ := mem_map.mp hmem
    refine hnew f hf ?_ (by rw [hfp]; exact hbegin)
    rw [hfp]
    simp
  · rintro f (_ | ⟨_, hf⟩)
    · simp
    · exact hT.start_lt f hf
  · have hmono : ∀ q, T.Holds q → (T.attach p (s :: rest) d).Holds q := by
      rintro q (h | ⟨f, hf, hq⟩)
      · exact .inl h
      · exact .inr ⟨f, mem_cons_of_mem _ hf, hq⟩
    rintro f (_ | ⟨_, hf⟩)
    · refine hmono _ ?_
      simpa [PathNode.parent] using hp
    · exact hmono _ (hT.parent_mem f hf)
  · have hfirst : ∀ f ∈ T, f.start = p.length →
        f.path.take (p.length + 1) ≠ (p ++ s :: rest).take (p.length + 1) := by
      intro f hf hs htake
      have htake' : (p ++ s :: rest).take (p.length + 1) = p ++ [s] := by
        rw [take_append]
        simp
      have := hT.start_lt f hf
      refine hnew f hf (by omega) ?_
      rw [← htake', ← htake]
      exact take_prefix _ _
    rintro x (_ | ⟨_, hx⟩) y (_ | ⟨_, hy⟩) hs htake
    · rfl
    · exact (hfirst y hy hs.symm htake.symm).elim
    · refine (hfirst x hx hs ?_).elim
      have hs' : x.start = p.length := hs
      rw [hs'] at htake
      exact htake
    · exact hT.siblings x hx y hy hs htake

theorem cell_attach (view : δ → ℕ → α) : (T.attach p key d).cell view q =
    if p.length < q.length ∧ q <+: p ++ key then some (view d (q.length - 1 - p.length))
    else T.cell view q := by
  by_cases h : p.length < q.length ∧ q <+: p ++ key
  · simp [cell, cover?, attach, PathNode.Covers, h]
  · rw [if_neg h]
    simp [cell, cover?, attach, PathNode.Covers, h]

theorem mem_remove : x ∈ T.remove p ↔ x ∈ T ∧ x.path ≠ p := by simp [remove]

theorem Shaped.remove (hT : T.Shaped) (hp : T.Childless p) : (T.remove p).Shaped := by
  refine ⟨hT.nodup.sublist (filter_sublist.map _), ?_, ?_, ?_⟩
  · exact fun x hx => hT.start_lt x (mem_remove.mp hx).1
  · intro x hx
    have hx' := (mem_remove.mp hx).1
    rcases hT.parent_mem x hx' with h | ⟨g, hg, hgp⟩
    · exact .inl h
    · refine .inr ⟨g, mem_remove.mpr ⟨hg, ?_⟩, hgp⟩
      rw [hgp]
      exact hp x hx'
  · exact fun x hx y hy => hT.siblings x (mem_remove.mp hx).1 y (mem_remove.mp hy).1

theorem stored_remove (hT : T.Shaped) (he : e ∈ T) :
    (T.remove e.path).Stored q ↔ T.Stored q ∧ ¬ e.Covers q := by
  simp only [Stored, mem_remove]
  constructor
  · rintro ⟨x, ⟨hx, hne⟩, hc⟩
    exact ⟨⟨x, hx, hc⟩, fun hce => hne (by rw [hT.covers_unique hx he hc hce])⟩
  · rintro ⟨⟨x, hx, hc⟩, hce⟩
    refine ⟨x, ⟨hx, fun h => hce ?_⟩, hc⟩
    rw [← hT.eq_of_path hx he h]
    exact hc

theorem cell_remove (hT : T.Shaped) (he : e ∈ T) (hleaf : T.Childless e.path) (view : δ → ℕ → α) :
    (T.remove e.path).cell view q = if e.Covers q then none else T.cell view q := by
  split
  next hc =>
    rw [cell_eq_none, stored_remove hT he]
    exact fun h => h.2 hc
  next hc =>
  by_cases hq : T.Stored q
  · obtain ⟨x, hx, hcx⟩ := hq
    have hne : x.path ≠ e.path := fun h => hc (hT.eq_of_path hx he h ▸ hcx)
    rw [hT.cell_eq view hx hcx, (hT.remove hleaf).cell_eq view (mem_remove.mpr ⟨hx, hne⟩) hcx]
  · rw [cell_eq_none.mpr hq, cell_eq_none, stored_remove hT he]
    exact fun h => hq h.1

theorem cover?_mapData :
    (T.mapData g).cover? q = (T.cover? q).map fun e => { e with data := g e } := by
  simp only [cover?, mapData, find?_map]
  rfl

theorem node?_mapData :
    (T.mapData g).node? p = (T.node? p).map fun e => { e with data := g e } := by
  simp only [node?, mapData, find?_map]
  rfl

theorem cell_mapData {view : δ → ℕ → α} (hg : ∀ e ∈ T, ∀ i, view (g e) i = view e.data i) :
    (T.mapData g).cell view q = T.cell view q := by
  simp only [cell, cover?_mapData]
  cases h : T.cover? q with
  | none => rfl
  | some e => simp [hg e (mem_of_cover? h).1]

theorem mem_edit (hT : T.Shaped) (he : e ∈ T) {g : δ → δ} :
    x ∈ T.edit e.path g ↔ x = { e with data := g e.data } ∨ x ∈ T ∧ x ≠ e := by
  simp only [edit, mem_mapData]
  constructor
  · rintro ⟨y, hy, rfl⟩
    by_cases h : y.path = e.path
    · rw [hT.eq_of_path hy he h]
      exact .inl (by simp)
    · rw [if_neg h]
      exact .inr ⟨hy, fun h' => h (congrArg PathNode.path h')⟩
  · rintro (rfl | ⟨hx, hne⟩)
    · exact ⟨e, he, by simp⟩
    · have : x.path ≠ e.path := fun h => hne (hT.eq_of_path hx he h)
      exact ⟨x, hx, by simp [this]⟩

theorem childless_edit {g : δ → δ} : (T.edit p g).Childless q ↔ T.Childless q := childless_mapData

theorem Shaped.edit (hT : T.Shaped) {g : δ → δ} : (T.edit p g).Shaped := hT.mapData

theorem edit_perm (hT : T.Shaped) (he : e ∈ T) {g : δ → δ} :
    (T.edit e.path g).Perm ({ e with data := g e.data } :: T.remove e.path) := by
  have hperm := (T.perm_cons_filter_ne hT he).map
    fun x => { x with data := if x.path = e.path then g x.data else x.data }
  refine hperm.trans ?_
  simp only [map_cons, if_true]
  refine Perm.cons _ (Perm.of_eq ?_)
  conv_rhs => rw [← map_id (T.remove e.path)]
  refine map_congr_left fun x hx => ?_
  have : x.path ≠ e.path := (mem_remove.mp hx).2
  rw [if_neg this, id]

theorem remove_edit {g : δ → δ} : (T.edit p g).remove p = T.remove p := by
  simp only [edit, mapData, remove, filter_map, Function.comp_def]
  conv_rhs => rw [← map_id (T.filter _)]
  refine map_congr_left fun x hx => ?_
  have : x.path ≠ p := by simpa using (mem_filter.mp hx).2
  rw [if_neg this, id]

theorem foldl_edit {ps : List (List κ)} (hnd : ps.Nodup) (g : δ → δ) :
    ps.foldl (fun T p => T.edit p g) T =
      T.mapData fun e => if e.path ∈ ps then g e.data else e.data := by
  induction ps generalizing T with
  | nil => simp [mapData]
  | cons p ps ih =>
    obtain ⟨hp, hps⟩ := nodup_cons.mp hnd
    rw [foldl_cons, ih hps, edit, mapData, mapData, map_map]
    refine map_congr_left fun e _ => ?_
    by_cases h : e.path = p
    · subst h
      simp [hp]
    · simp [h]

section Sums

variable {M : Type*} [AddCommMonoid M] {w : PathNode κ δ → M}

theorem sum_remove (hT : T.Shaped) (he : e ∈ T) :
    (T.map w).sum = w e + ((T.remove e.path).map w).sum := by
  rw [((T.perm_cons_filter_ne hT he).map w).sum_eq]
  rfl

theorem sum_edit (hT : T.Shaped) (he : e ∈ T) {g : δ → δ} : ((T.edit e.path g).map w).sum =
      w { e with data := g e.data } + ((T.remove e.path).map w).sum := by
  rw [((edit_perm hT he).map w).sum_eq]
  rfl

theorem sum_split {cut : ℕ → δ → δ × δ} {n : ℕ} (hT : T.Shaped) (he : e ∈ T)
    (hw : w (upper cut e n) + w (lower cut e n) = w e) :
    ((T.split cut e n).map w).sum = (T.map w).sum := by
  rw [((split_perm hT he).map w).sum_eq, ((T.perm_cons_filter_ne hT he).map w).sum_eq]
  simp only [map_cons, sum_cons, ← add_assoc, hw]

end Sums

end Edit

end PathTree

end LLM42.Library
