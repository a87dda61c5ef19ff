import LLM42.Cache.RadixAccounting

/-! # Locks and eviction

A lock on a node is counted by that node and by every node above it. A lock count is therefore the
number of locks held at or below the node, whatever was cut in between, and what is not locked can
be taken away leaf by leaf. -/

namespace LLM42

open List Library.PathTree
open Library (PathNode PathTree)

namespace RadixCache

variable {η β : Type*} {c : RadixCache η β}
  {e : PathNode Page (RadixNode η)} {p : List Page} {holders : List (List Page)}

/-- Every page has as many slots as tokens. -/
def Filled (T : PathTree Page (RadixNode η)) : Prop :=
  ∀ e ∈ T, e.data.value.map length = e.key.map (·.2.length)

/-- Each lock is held on the root or a node, and is counted there and above. -/
structure Locked (T : PathTree Page (RadixNode η)) (holders : List (List Page)) : Prop where
  holds : ∀ h ∈ holders, T.Holds h
  count : ∀ e ∈ T, e.data.lockRef = holders.countP (e.path <+: ·)

section Folds

theorem nodes_lockNode : (c.lockNode e).nodes =
    c.nodes.edit e.path fun d => { d with lockRef := d.lockRef + 1 } := by
  unfold lockNode
  rw [nodes_updateLeafStatus]
  split <;> rfl

theorem nodes_unlockNode : (c.unlockNode e).nodes =
    c.nodes.edit e.path fun d => { d with lockRef := d.lockRef - 1 } := by
  unfold unlockNode
  rw [nodes_updateLeafStatus]
  split <;> rfl

variable {f : RadixCache η β → PathNode Page (RadixNode η) → RadixCache η β}
  {es : List (PathNode Page (RadixNode η))} {g : RadixNode η → RadixNode η}

theorem nodes_foldl (hf : ∀ c e, (f c e).nodes = c.nodes.edit e.path g)
    (hnd : (es.map (·.path)).Nodup) :
    (es.foldl f c).nodes =
      c.nodes.mapData fun e => if e.path ∈ es.map (·.path) then g e.data else e.data := by
  have hfold : ∀ c : RadixCache η β, (es.foldl f c).nodes =
      (es.map (·.path)).foldl (fun T p => PathTree.edit T p g) c.nodes := by
    clear hnd
    induction es with
    | nil => exact fun c => rfl
    | cons e es ih =>
      intro c
      rw [foldl_cons, map_cons, foldl_cons, ← hf]
      exact ih (f c e)
  rw [hfold, foldl_edit hnd]
  refine map_congr_left fun e _ => ?_
  by_cases h : e.path ∈ es.map (·.path) <;> simp only [h, if_true, if_false]

theorem Accounts.foldl {P : PathNode Page (RadixNode η) → Prop}
    (hf : ∀ c e, (f c e).nodes = c.nodes.edit e.path g)
    (hacc : ∀ c e, Accounts c → e ∈ c.nodes → P e → Accounts (f c e))
    (hnd : (es.map (·.path)).Nodup) (h : Accounts c) (hmem : ∀ e ∈ es, e ∈ c.nodes ∧ P e) :
    Accounts (es.foldl f c) := by
  induction es generalizing c with
  | nil => exact h
  | cons e es ih =>
    obtain ⟨hne, hnd'⟩ := nodup_cons.mp hnd
    obtain ⟨he, hP⟩ := hmem e mem_cons_self
    refine ih hnd' (hacc c e h he hP) fun x hx => ⟨?_, (hmem x (mem_cons_of_mem _ hx)).2⟩
    rw [hf, mem_edit h.shaped he]
    refine .inr ⟨(hmem x (mem_cons_of_mem _ hx)).1, fun hxe => hne ?_⟩
    rw [← hxe]
    exact mem_map_of_mem hx

theorem mem_ancestors_path (hT : c.nodes.Shaped) (hp : c.nodes.Holds p) (he : e ∈ c.nodes) :
    e.path ∈ (c.nodes.ancestors p).map (·.path) ↔ e.path <+: p := by
  constructor
  · intro h
    obtain ⟨f, hf, hfe⟩ := mem_map.mp h
    rw [← hfe]
    exact ((hT.mem_ancestors hp).mp hf).2
  · exact fun h => mem_map_of_mem ((hT.mem_ancestors hp).mpr ⟨he, h⟩)

theorem nodes_incLockRef (hT : c.nodes.Shaped) (hp : c.nodes.Holds p) :
    (c.incLockRef p).nodes = c.nodes.mapData fun e =>
      if e.path <+: p then { e.data with lockRef := e.data.lockRef + 1 } else e.data := by
  rw [incLockRef, nodes_foldl (fun _ _ => nodes_lockNode) (hT.ancestors_nodup hp)]
  refine map_congr_left fun e he => ?_
  simp only [mem_ancestors_path hT hp he]

theorem nodes_decLockRef (hT : c.nodes.Shaped) (hp : c.nodes.Holds p) :
    (c.decLockRef p).nodes = c.nodes.mapData fun e =>
      if e.path <+: p then { e.data with lockRef := e.data.lockRef - 1 } else e.data := by
  rw [decLockRef, nodes_foldl (fun _ _ => nodes_unlockNode) (hT.ancestors_nodup hp)]
  refine map_congr_left fun e he => ?_
  simp only [mem_ancestors_path hT hp he]

theorem Accounts.incLockRef (h : Accounts c) (hp : c.nodes.Holds p) : Accounts (c.incLockRef p) :=
  Accounts.foldl (P := fun _ => True) (fun _ _ => nodes_lockNode)
    (fun _ _ hc he _ => hc.lockNode he) (h.shaped.ancestors_nodup hp) h
    fun _ hx => ⟨((h.shaped.mem_ancestors hp).mp hx).1, trivial⟩

theorem Accounts.decLockRef (h : Accounts c) (hp : c.nodes.Holds p)
    (hpos : ∀ e ∈ c.nodes, e.path <+: p → 0 < e.data.lockRef) : Accounts (c.decLockRef p) :=
  Accounts.foldl (P := fun e => 0 < e.data.lockRef) (fun _ _ => nodes_unlockNode)
    (fun _ _ hc he hpos => hc.unlockNode he hpos) (h.shaped.ancestors_nodup hp) h fun x hx => by
      obtain ⟨hmem, hpre⟩ := (h.shaped.mem_ancestors hp).mp hx
      exact ⟨hmem, hpos x hmem hpre⟩

end Folds

namespace Locked

variable {T : PathTree Page (RadixNode η)} (hL : Locked T holders)
include hL

theorem pos {h : List Page} (hh : h ∈ holders) (he : e ∈ T) (hpre : e.path <+: h) :
    0 < e.data.lockRef := by
  rw [hL.count e he, countP_pos_iff]
  exact ⟨h, hh, by simpa using hpre⟩

/-- A split leaves every holder its locks. -/
theorem split (hT : T.Shaped) (he : e ∈ T) {n : ℕ} (hpos : 0 < n) (hlt : n < e.key.length) :
    Locked (T.split RadixNode.cut e n) holders := by
  refine ⟨fun h hh => (holds_split hT he).mpr (.inl (hL.holds h hh)), fun x hx => ?_⟩
  rcases (mem_split hT he).mp hx with rfl | rfl | ⟨hx, -⟩
  · -- no lock ends inside an edge, so what is below the upper half is below the lower one
    refine (hL.count e he).trans (countP_congr fun h hh => ?_)
    simp only [decide_eq_true_eq]
    refine ⟨(List.take_prefix _ _).trans, fun hup => ?_⟩
    have hlen := length_path_upper RadixNode.cut hlt.le (hT.start_lt e he)
    rcases hL.holds h hh with rfl | ⟨f, hf, rfl⟩
    · rw [prefix_nil] at hup
      rw [hup] at hlen
      simp at hlen
      omega
    · have hcov : e.Covers (PathTree.upper RadixNode.cut e n).path :=
        ⟨by rw [hlen]; omega, take_prefix _ _⟩
      exact hT.prefix_of_covers he hcov hf hup
  · exact hL.count e he
  · exact hL.count x hx

theorem descend (hT : T.Shaped) {fuel : ℕ} {key : List Page} :
    Locked (PathTree.descend RadixNode.cut fuel T p key).1 holders :=
  (descend_preserves (P := fun T => Locked T holders)
    (fun _ hT _ he _ hpos hlt hL => split hL hT he hpos hlt) hT hL).2

omit hL in
theorem mapData {g : PathNode Page (RadixNode η) → RadixNode η} {holders' : List (List Page)}
    (hholds : ∀ h ∈ holders', T.Holds h)
    (hg : ∀ e ∈ T, (g e).lockRef = holders'.countP (e.path <+: ·)) :
    Locked (T.mapData g) holders' := by
  refine ⟨fun h hh => holds_mapData.mpr (hholds h hh), fun x hx => ?_⟩
  obtain ⟨e, he, rfl⟩ := mem_mapData.mp hx
  exact hg e he

theorem edit {g : RadixNode η → RadixNode η} (hg : ∀ d, (g d).lockRef = d.lockRef) :
    Locked (T.edit p g) holders :=
  mapData hL.holds fun e he => by
    split
    · rw [hg, hL.count e he]
    · exact hL.count e he

theorem attach (hT : T.Shaped) {s : Page} {rest : List Page} {d : RadixNode η} (hp : T.Holds p)
    (hfree : T.child? p s = none) (hd : d.lockRef = 0) :
    Locked (T.attach p (s :: rest) d) holders := by
  refine ⟨fun h hh => holds_attach.mpr (.inl (hL.holds h hh)), ?_⟩
  rintro x (_ | ⟨_, hx⟩)
  · rw [hd, eq_comm, countP_eq_zero]
    simp only [decide_eq_true_eq]
    intro h hh hpre
    have hps : p ++ [s] <+: h := by
      refine IsPrefix.trans ?_ hpre
      exact (prefix_append_right_inj _).mpr (by simp)
    have hne : h ≠ [] := by
      rintro rfl
      simp at hps
    have hst := hT.stored_of_begins ((hL.holds h hh).stored hT hne) hps (by simp)
    rw [← hT.child?_isSome hp, hfree] at hst
    simp at hst
  · exact hL.count x hx

theorem remove (he : e ∈ T) (hl : e.data.lockRef = 0) : Locked (T.remove e.path) holders := by
  refine ⟨fun h hh => ?_, fun x hx => hL.count x (mem_remove.mp hx).1⟩
  rcases hL.holds h hh with hnil | ⟨f, hf, rfl⟩
  · exact .inl hnil
  · refine .inr ⟨f, mem_remove.mpr ⟨hf, fun hfe => ?_⟩, rfl⟩
    have := hL.pos hh he (hfe ▸ prefix_refl _)
    omega

theorem inc (hc : c.nodes = T) (hT : T.Shaped) (hp : T.Holds p) :
    Locked (c.incLockRef p).nodes (p :: holders) := by
  subst hc
  rw [nodes_incLockRef hT hp]
  refine mapData (fun h hh => ?_) fun e he => ?_
  · rcases mem_cons.mp hh with rfl | hh
    · exact hp
    · exact hL.holds h hh
  · rw [countP_cons]
    split
    next hpre => simp [hpre, hL.count e he]
    next hpre => simp [hpre, hL.count e he]

theorem dec (hc : c.nodes = T) (hT : T.Shaped) (hp : p ∈ holders) :
    Locked (c.decLockRef p).nodes (holders.erase p) := by
  subst hc
  rw [nodes_decLockRef hT (hL.holds p hp)]
  refine mapData (fun h hh => hL.holds h (mem_of_mem_erase hh)) fun e he => ?_
  have hcount := hL.count e he
  rw [(perm_cons_erase hp).countP_eq, countP_cons] at hcount
  split
  next hpre => simp [hcount, hpre]
  next hpre => simp [hcount, hpre]

end Locked

end RadixCache

end LLM42
