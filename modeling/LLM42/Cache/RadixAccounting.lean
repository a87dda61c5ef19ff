import LLM42.Cache.Radix
import Mathlib.Tactic.Ring

/-! # Accounts of the radix cache

Lock counts, size counters and the leaf set are kept by local updates. They are exact in every
reachable state, and eviction gives back what it is asked for as long as anything is evictable. -/

namespace LLM42

open List Library.PathTree
open Library (PathNode PathTree)

namespace RadixCache

variable {η β : Type*} {cfg : RadixConfig η β} {c : RadixCache η β}
  {e : PathNode Page (RadixNode η)} {p q : List Page}

def evictableLen (e : PathNode Page (RadixNode η)) : ℤ :=
  if e.data.lockRef = 0 then tokenLen e.key else 0

def protectedLen (e : PathNode Page (RadixNode η)) : ℤ :=
  if e.data.lockRef = 0 then 0 else tokenLen e.key

def IsLeaf (T : PathTree Page (RadixNode η)) (p : List Page) : Prop :=
  ∃ e ∈ T, e.path = p ∧ e.data.lockRef = 0 ∧ T.Childless p

structure Accounts (c : RadixCache η β) : Prop where
  shaped : c.nodes.Shaped
  evictable : c.evictableSize = (c.nodes.map evictableLen).sum
  inUse : c.protectedSize = (c.nodes.map protectedLen).sum
  leaves_nodup : c.evictableLeaves.Nodup
  leaves : ∀ p, p ∈ c.evictableLeaves ↔ IsLeaf c.nodes p

section Frame

theorem updateLeafStatus_eq : c.updateLeafStatus p =
    { c with evictableLeaves := (c.updateLeafStatus p).evictableLeaves } := by
  unfold updateLeafStatus
  split
  · rfl
  · split <;> rfl

@[simp] theorem nodes_updateLeafStatus : (c.updateLeafStatus p).nodes = c.nodes := by
  rw [updateLeafStatus_eq]

@[simp] theorem evictableSize_updateLeafStatus :
    (c.updateLeafStatus p).evictableSize = c.evictableSize := by
  rw [updateLeafStatus_eq]

@[simp] theorem protectedSize_updateLeafStatus :
    (c.updateLeafStatus p).protectedSize = c.protectedSize := by
  rw [updateLeafStatus_eq]

@[simp] theorem kvEventQueue_updateLeafStatus :
    (c.updateLeafStatus p).kvEventQueue = c.kvEventQueue := by
  rw [updateLeafStatus_eq]

end Frame

section Leaves

theorem nodup_updateLeafStatus (h : c.evictableLeaves.Nodup) :
    (c.updateLeafStatus p).evictableLeaves.Nodup := by
  unfold updateLeafStatus
  split
  · exact h
  · split
    · exact h.insert
    · exact h.erase p

/-- The leaf set is right again at the node that was looked at, and as before elsewhere. -/
theorem mem_updateLeafStatus (hT : c.nodes.Shaped) (hnd : c.evictableLeaves.Nodup) :
    q ∈ (c.updateLeafStatus p).evictableLeaves ↔
      if q = p ∧ (c.nodes.node? p).isSome then IsLeaf c.nodes p else q ∈ c.evictableLeaves := by
  unfold updateLeafStatus
  cases hn : c.nodes.node? p with
  | none => simp
  | some e =>
    obtain ⟨he, hp⟩ := mem_of_node? hn
    have hleaf : IsLeaf c.nodes p ↔ e.data.lockRef = 0 ∧ c.nodes.Childless p := by
      constructor
      · rintro ⟨f, hf, hfp, hl, hc⟩
        rw [hT.eq_of_path hf he (hfp.trans hp.symm)] at hl
        exact ⟨hl, hc⟩
      · rintro ⟨hl, hc⟩
        exact ⟨e, he, hp, hl, hc⟩
    simp only [Option.isSome_some, and_true]
    split
    next h =>
      simp only [mem_insert_iff]
      split
      next hq => exact ⟨fun _ => hleaf.mpr h, fun _ => .inl hq⟩
      next hq => simp [hq]
    next h =>
    rw [hnd.mem_erase_iff]
    split
    next hq => exact ⟨fun hm => (hm.1 hq).elim, fun hl => (h (hleaf.mp hl)).elim⟩
    next hq => exact ⟨fun hm => hm.2, fun hm => ⟨hq, hm⟩⟩

end Leaves

theorem isLeaf_edit (hT : c.nodes.Shaped) (he : e ∈ c.nodes) {g : RadixNode η → RadixNode η}
    (hne : q ≠ e.path) : IsLeaf (c.nodes.edit e.path g) q ↔ IsLeaf c.nodes q := by
  unfold IsLeaf
  simp only [mem_edit hT he, childless_edit]
  constructor
  · rintro ⟨f, rfl | ⟨hf, -⟩, hp, h⟩
    · exact (hne hp.symm).elim
    · exact ⟨f, hf, hp, h⟩
  · rintro ⟨f, hf, hp, h⟩
    exact ⟨f, .inr ⟨hf, fun hfe => hne (by rw [← hp, hfe])⟩, hp, h⟩

namespace Accounts

variable (h : Accounts c) {g : RadixNode η → RadixNode η} {c' : RadixCache η β}
include h

theorem split (he : e ∈ c.nodes) {n : ℕ} (hpos : 0 < n) (hlt : n < e.key.length) :
    Accounts { c with nodes := c.nodes.split RadixNode.cut e n } := by
  have hT := h.shaped
  have hlen : tokenLen (PathTree.upper RadixNode.cut e n).key +
      tokenLen (PathTree.lower RadixNode.cut e n).key = tokenLen e.key := by
    rw [key_upper, key_lower, tokenLen, tokenLen, ← sum_append, ← map_append, take_append_drop]
    rfl
  have hlock : (PathTree.upper RadixNode.cut e n).data.lockRef = e.data.lockRef ∧
      (PathTree.lower RadixNode.cut e n).data.lockRef = e.data.lockRef := ⟨rfl, rfl⟩
  refine ⟨hT.split _ he hpos hlt, ?_, ?_, h.leaves_nodup, fun p => ?_⟩
  · rw [sum_split hT he]
    · exact h.evictable
    · simp only [evictableLen, hlock.1, hlock.2]
      split
      · exact_mod_cast hlen
      · simp
  · rw [sum_split hT he]
    · exact h.inUse
    · simp only [protectedLen, hlock.1, hlock.2]
      split
      · simp
      · exact_mod_cast hlen
  · rw [h.leaves]
    unfold IsLeaf
    simp only [mem_split hT he, childless_split hT he]
    constructor
    · rintro ⟨f, hf, hp, hl, hc⟩
      have hne : p ≠ (PathTree.upper RadixNode.cut e n).path := fun h' =>
        hT.not_holds_upper _ he hpos hlt f hf (hp.trans h')
      by_cases hfe : f = e
      · refine ⟨PathTree.lower RadixNode.cut e n, .inr (.inl rfl), ?_, ?_, hc, hne⟩
        · rw [← hp, hfe]
          rfl
        · rw [← hl, hfe]
          rfl
      · exact ⟨f, .inr (.inr ⟨hf, hfe⟩), hp, hl, hc, hne⟩
    · rintro ⟨f, rfl | rfl | ⟨hf, -⟩, hp, hl, hc, hne⟩
      · exact (hne hp.symm).elim
      · exact ⟨e, he, hp, hl, hc⟩
      · exact ⟨f, hf, hp, hl, hc⟩

theorem descend {fuel : ℕ} {key : List Page} :
    Accounts { c with nodes := (PathTree.descend RadixNode.cut fuel c.nodes p key).1 } :=
  (descend_preserves (P := fun T => Accounts { c with nodes := T })
    (fun _ _ _ he _ hpos hlt hacc => split hacc he hpos hlt) h.shaped h).2

theorem edit (hg : ∀ d, (g d).lockRef = d.lockRef) (he : e ∈ c.nodes) :
    Accounts { c with nodes := c.nodes.edit e.path g } := by
  have hT := h.shaped
  refine ⟨hT.mapData, ?_, ?_, h.leaves_nodup, fun p => ?_⟩
  · rw [sum_edit hT he, ← show evictableLen e = evictableLen { e with data := g e.data } by
      simp [evictableLen, hg, PathNode.key], ← sum_remove hT he]
    exact h.evictable
  · rw [sum_edit hT he, ← show protectedLen e = protectedLen { e with data := g e.data } by
      simp [protectedLen, hg, PathNode.key], ← sum_remove hT he]
    exact h.inUse
  · rw [h.leaves]
    by_cases hp : p = e.path
    · subst hp
      unfold IsLeaf
      simp only [mem_edit hT he, childless_edit]
      constructor
      · rintro ⟨f, hf, hfp, hl, hc⟩
        refine ⟨_, .inl rfl, rfl, ?_, hc⟩
        rw [hg, ← hT.eq_of_path hf he hfp]
        exact hl
      · rintro ⟨f, rfl | ⟨hf, hne⟩, hfp, hl, hc⟩
        · exact ⟨e, he, rfl, (hg _).symm.trans hl, hc⟩
        · exact ⟨f, hf, hfp, hl, hc⟩
    · exact (isLeaf_edit hT he hp).symm

theorem relock (he : e ∈ c.nodes) (hn : c'.nodes = c.nodes.edit e.path g)
    (hl : c'.evictableLeaves = c.evictableLeaves) (hev : c'.evictableSize =
      c.evictableSize - evictableLen e + evictableLen { e with data := g e.data })
    (hpr : c'.protectedSize =
      c.protectedSize - protectedLen e + protectedLen { e with data := g e.data }) :
    Accounts (c'.updateLeafStatus e.path) := by
  have hT := h.shaped
  have hT' : c'.nodes.Shaped := by
    rw [hn]
    exact hT.edit
  have hsome : (c'.nodes.node? e.path).isSome := by
    rw [hn, PathTree.edit, node?_mapData, hT.node?_eq he]
    rfl
  refine ⟨by simpa using hT', ?_, ?_, nodup_updateLeafStatus (hl ▸ h.leaves_nodup), fun q => ?_⟩
  · rw [evictableSize_updateLeafStatus, nodes_updateLeafStatus, hev, h.evictable,
      sum_remove hT he, hn, sum_edit hT he]
    ring
  · rw [protectedSize_updateLeafStatus, nodes_updateLeafStatus, hpr, h.inUse,
      sum_remove hT he, hn, sum_edit hT he]
    ring
  · rw [mem_updateLeafStatus hT' (by rw [hl]; exact h.leaves_nodup), nodes_updateLeafStatus]
    simp only [hsome, and_true]
    split
    next hq => rw [hq]
    next hq => rw [hl, h.leaves, hn, isLeaf_edit hT he hq]

theorem lockNode (he : e ∈ c.nodes) : Accounts (c.lockNode e) := by
  refine h.relock he (g := fun d => { d with lockRef := d.lockRef + 1 }) ?_ ?_ ?_ ?_
  · split <;> rfl
  · split <;> rfl
  · simp only [evictableLen, PathNode.key]
    split <;> simp
  · simp only [protectedLen, PathNode.key]
    split <;> simp

theorem unlockNode (he : e ∈ c.nodes) (hpos : 0 < e.data.lockRef) : Accounts (c.unlockNode e) := by
  refine h.relock he (g := fun d => { d with lockRef := d.lockRef - 1 }) ?_ ?_ ?_ ?_
  · split <;> rfl
  · split <;> rfl
  · simp only [evictableLen, PathNode.key, hpos.ne', if_false]
    split
    next hl => simp [hl]
    next hl => simp [show e.data.lockRef - 1 ≠ 0 by omega]
  · simp only [protectedLen, PathNode.key, hpos.ne', if_false]
    split
    next hl => simp [hl]
    next hl => simp [show e.data.lockRef - 1 ≠ 0 by omega]

theorem setQueue (queue : List (KVEvent β)) : Accounts { c with kvEventQueue := queue } :=
  { h with }

theorem not_isLeaf_nil : ¬ IsLeaf c.nodes [] := by
  rintro ⟨f, hf, hp, -⟩
  have := h.shaped.start_lt f hf
  simp [hp] at this

theorem attach {s : Page} {rest : List Page} {d : RadixNode η} (hp : c.nodes.Holds p)
    (hfree : c.nodes.child? p s = none) (hn : c'.nodes = c.nodes.attach p (s :: rest) d)
    (hd : d.lockRef = 0) (hev : c'.evictableSize = c.evictableSize + tokenLen (s :: rest))
    (hpr : c'.protectedSize = c.protectedSize) (hl : c'.evictableLeaves = c.evictableLeaves) :
    Accounts ((c'.updateLeafStatus p).updateLeafStatus (p ++ s :: rest)) := by
  have hT' : c'.nodes.Shaped := by
    rw [hn]
    exact h.shaped.attach hp hfree
  have hnd : c'.evictableLeaves.Nodup := hl ▸ h.leaves_nodup
  have hnode : c'.nodes.node? (p ++ s :: rest) = some ⟨p ++ s :: rest, p.length, d⟩ := by
    refine hT'.node?_eq (e := ⟨p ++ s :: rest, p.length, d⟩) ?_
    rw [hn]
    exact mem_cons_self
  refine ⟨by simpa using hT', ?_, ?_, nodup_updateLeafStatus (nodup_updateLeafStatus hnd),
    fun q => ?_⟩
  · simp only [evictableSize_updateLeafStatus, nodes_updateLeafStatus, hev, hn, PathTree.attach,
      map_cons, sum_cons, ← h.evictable]
    simp [evictableLen, PathNode.key, hd, add_comm]
  · simp only [protectedSize_updateLeafStatus, nodes_updateLeafStatus, hpr, hn, PathTree.attach,
      map_cons, sum_cons, ← h.inUse]
    simp [protectedLen, hd]
  · rw [mem_updateLeafStatus (by simpa using hT') (nodup_updateLeafStatus hnd),
      mem_updateLeafStatus hT' hnd]
    simp only [nodes_updateLeafStatus, hnode, Option.isSome_some, and_true]
    split
    next hq => rw [hq]
    next hq =>
    split
    next hqp => rw [hqp.1]
    next hqp =>
    rw [hl, h.leaves]
    by_cases hpq : q = p
    · -- only the root has no node of its own
      subst hpq
      have hnone : c'.nodes.node? q = none := by simpa using hqp
      have hnil : q = [] := by
        rcases hp with hp | ⟨f, hf, rfl⟩
        · exact hp
        · rw [hT'.node?_eq (by rw [hn]; exact mem_cons_of_mem _ hf)] at hnone
          cases hnone
      refine iff_of_false (by rw [hnil]; exact h.not_isLeaf_nil) ?_
      rintro ⟨f, hf, rfl, -⟩
      rw [hT'.node?_eq hf] at hnone
      cases hnone
    · unfold IsLeaf
      simp only [hn, childless_attach]
      simp only [PathTree.attach, mem_cons]
      constructor
      · rintro ⟨f, hf, hfq, hlf, hc⟩
        exact ⟨f, .inr hf, hfq, hlf, hc, hpq⟩
      · rintro ⟨f, rfl | hf, hfq, hlf, hc, -⟩
        · exact (hq hfq.symm).elim
        · exact ⟨f, hf, hfq, hlf, hc⟩

/-- Evicting an unlocked leaf keeps the two size counters right. -/
theorem deleteLeaf (he : e ∈ c.nodes) (hl : e.data.lockRef = 0) (hc : c.nodes.Childless e.path) :
    Accounts (c.deleteLeaf e) := by
  have hT := h.shaped
  have hT' := hT.remove hc
  have hnd := h.leaves_nodup.erase e.path
  refine ⟨by simpa [RadixCache.deleteLeaf] using hT', ?_, ?_, nodup_updateLeafStatus hnd,
    fun q => ?_⟩
  · simp only [RadixCache.deleteLeaf, evictableSize_updateLeafStatus, nodes_updateLeafStatus]
    rw [h.evictable, sum_remove hT he]
    simp only [evictableLen, hl, if_true]
    ring
  · simp only [RadixCache.deleteLeaf, protectedSize_updateLeafStatus, nodes_updateLeafStatus]
    rw [h.inUse, sum_remove hT he]
    simp only [protectedLen, hl, if_true]
    ring
  · simp only [RadixCache.deleteLeaf, nodes_updateLeafStatus]
    rw [mem_updateLeafStatus (c := { c with
      nodes := c.nodes.remove e.path
      evictableSize := c.evictableSize - tokenLen e.key
      evictableLeaves := c.evictableLeaves.erase e.path }) hT' hnd]
    split
    next hq => rw [hq.1]
    next hq =>
    rw [h.leaves_nodup.mem_erase_iff, h.leaves]
    by_cases hqp : q = e.parent
    · subst hqp
      have hnone : (c.nodes.remove e.path).node? e.parent = none := by simpa using hq
      have hnot : ¬ IsLeaf (c.nodes.remove e.path) e.parent := by
        rintro ⟨f, hf, hfp, -⟩
        rw [← hfp, hT'.node?_eq hf] at hnone
        cases hnone
      refine iff_of_false ?_ hnot
      rintro ⟨-, f, hf, -, -, hcl⟩
      exact hcl e he rfl
    · unfold IsLeaf
      simp only [mem_remove]
      constructor
      · rintro ⟨hne, f, hf, hfq, hlf, hcf⟩
        exact ⟨f, ⟨hf, fun h' => hne (hfq.symm.trans h')⟩, hfq, hlf,
          fun x hx => hcf x (mem_remove.mp hx).1⟩
      · rintro ⟨f, ⟨hf, hne⟩, hfq, hlf, hcf⟩
        refine ⟨fun h' => hne (hfq.trans h'), f, hf, hfq, hlf, fun x hx => ?_⟩
        by_cases hxe : x.path = e.path
        · rw [hT.eq_of_path hx he hxe]
          exact fun h' => hqp h'.symm
        · exact hcf x (mem_remove.mpr ⟨hx, hxe⟩)

theorem recordStoreEvent : Accounts (c.recordStoreEvent cfg p) := by
  unfold RadixCache.recordStoreEvent
  split
  next e _ hn =>
    obtain ⟨he, rfl⟩ := mem_of_node? hn
    exact setQueue (edit h
      (g := fun d => { d with hashValue := some (c.nodeHashValues cfg e) }) (fun _ => rfl) he) _
  · exact h

theorem recordRemoveEvent : Accounts (c.recordRemoveEvent cfg e) := by
  unfold RadixCache.recordRemoveEvent
  split
  · exact h.setQueue _
  · exact h

end Accounts

/-! ### What an operation does to the tree -/

def walked (c : RadixCache η β) (key : List Page) : PathTree Page (RadixNode η) :=
  (PathTree.descend RadixNode.cut key.length c.nodes [] key).1

def reached (c : RadixCache η β) (key : List Page) : List Page :=
  (PathTree.descend RadixNode.cut key.length c.nodes [] key).2.1

section

variable (hT : c.nodes.Shaped)

include hT

theorem shaped_walked (key : List Page) : (c.walked key).Shaped := hT.descend

theorem holds_reached (key : List Page) : (c.walked key).Holds (c.reached key) :=
  (descend_reaches hT (.inl rfl) le_rfl).1

theorem reaches_reached (key : List Page) : PathTree.Reaches c.nodes [] key (c.reached key) := by
  have h : _ ∧ PathTree.Reaches c.nodes [] key
      (PathTree.descend RadixNode.cut key.length c.nodes [] key).2.1 :=
    descend_reaches hT (.inl rfl) le_rfl
  exact h.2

theorem reached_append (key : List Page) :
    c.reached key ++ key.drop (c.reached key).length = key := by
  have hbelow := (reaches_reached hT key).below
  exact prefix_iff_eq_append.mp hbelow

theorem child?_reached {key : List Page} {s : Page} {rest : List Page}
    (h : key = c.reached key ++ s :: rest) : (c.walked key).child? (c.reached key) s = none := by
  rw [← Option.not_isSome_iff_eq_none,
    (shaped_walked hT key).child?_isSome (holds_reached hT key), walked,
    stored_descend hT]
  refine (reaches_reached hT key).stop s ?_
  rw [nil_append]
  nth_rewrite 2 [h]
  exact (prefix_append_right_inj _).mpr (by simp)

end

variable (cfg) in
/-- `_insert_helper` either finds the whole key or puts one leaf under the node it reached. -/
theorem insertPages_eq (hT : c.nodes.Shaped) (key : List Page) (value : List (List ℕ)) :
    (key = c.reached key ∧
        c.insertPages cfg key value = ((c.reached key).length, { c with nodes := c.walked key })) ∨
      ∃ s rest, key = c.reached key ++ s :: rest ∧
        c.insertPages cfg key value = ((c.reached key).length, (({ c with
            nodes := (c.walked key).attach (c.reached key) (s :: rest)
              ⟨value.drop (c.reached key).length, 0, none⟩
            evictableSize := c.evictableSize + tokenLen (s :: rest)
            }.updateLeafStatus (c.reached key)).updateLeafStatus key).recordStoreEvent cfg key) := by
  have happ := reached_append hT key
  cases hd : key.drop (c.reached key).length with
  | nil =>
    rw [hd, append_nil] at happ
    refine .inl ⟨happ.symm, ?_⟩
    have hd' : key.drop (PathTree.descend RadixNode.cut key.length c.nodes [] key).2.1.length = [] :=
      hd
    simp only [insertPages, hd', if_true]
    rfl
  | cons s rest =>
    rw [hd] at happ
    refine .inr ⟨s, rest, happ.symm, ?_⟩
    have hd' : key.drop (PathTree.descend RadixNode.cut key.length c.nodes [] key).2.1.length =
        s :: rest := hd
    simp only [insertPages, hd']
    rfl

namespace Accounts

variable (h : Accounts c)
include h

theorem matchPages (key : List Page) : Accounts (c.matchPages key).2.2 := h.descend

theorem insertPages (key : List Page) (value : List (List ℕ)) :
    Accounts (c.insertPages cfg key value).2 := by
  have hw : Accounts { c with nodes := c.walked key } := h.descend
  rcases insertPages_eq cfg h.shaped key value with ⟨-, heq⟩ | ⟨s, rest, hkey, heq⟩
  · rw [heq]
    exact hw
  · rw [heq]
    refine recordStoreEvent ?_
    generalize hc' : ({ c with nodes := _, evictableSize := _ } : RadixCache η β) = c'
    have hatt : Accounts ((c'.updateLeafStatus (c.reached key)).updateLeafStatus
        (c.reached key ++ s :: rest)) :=
      hw.attach (holds_reached h.shaped key) (child?_reached h.shaped hkey)
        (by rw [← hc']) rfl (by rw [← hc']) (by rw [← hc']) (by rw [← hc'])
    rw [← hkey] at hatt
    exact hatt

end Accounts

end RadixCache

end LLM42
