import LLM42.Cache.RadixMap
import LLM42.Library.PagedLayout

/-! # The pages of a radix cache

A server stores whole pages of the KV pool, one for each page of the key. Splits and locks leave
them where they are; an insertion adds the pages it stores, an eviction gives back those of the
nodes it frees, and what lies above a locked node never moves. -/

namespace LLM42

open Library List Library.PathTree

variable {η β : Type*} {cfg : RadixConfig η β}

section ToPages

variable {α : Type*} {m : ℕ}

theorem length_toPages_mul (hm : 0 < m) {l : List α} {k : ℕ} (h : l.length = k * m) :
    (toPages m l).length = k := by
  rw [length_toPages, h]
  exact pageCount_mul hm k

theorem toPages_take (hm : 0 < m) {l : List α} {k : ℕ} (h : k * m ≤ l.length) :
    toPages m (l.take (k * m)) = (toPages m l).take k := by
  have hk : (toPages m (l.take (k * m))).length = k :=
    length_toPages_mul hm (by rw [length_take]; omega)
  have hle : k ≤ (toPages m l).length := by
    rcases Nat.eq_zero_or_pos k with rfl | hpos
    · exact Nat.zero_le _
    · have hlt := (lt_length_toPages hm l (k - 1)).mpr
        (lt_of_lt_of_le (Nat.mul_lt_mul_of_pos_right (by omega) hm) h)
      omega
  apply ext_getElem
  · rw [hk, length_take]
    omega
  · intro i h1 h2
    have hi : (i + 1) * m ≤ k * m := Nat.mul_le_mul_right _ (by omega)
    rw [Nat.add_mul, Nat.one_mul] at hi
    rw [getElem_take]
    simp only [toPages, getElem_map, getElem_range]
    rw [drop_take, take_take, Nat.min_eq_left (by omega)]

theorem toPages_laid (hm : 0 < m) (P : List ℕ) :
    toPages m (laid m P (P.length * m)) = P.map (pageSlots m) := by
  have hlen : (toPages m (laid m P (P.length * m))).length = P.length :=
    length_toPages_mul hm length_laid
  apply ext_getElem
  · rw [hlen, length_map]
  · intro i h1 h2
    have hi : i < P.length := by simpa using h2
    have hle : (i + 1) * m ≤ P.length * m := Nat.mul_le_mul_right _ hi
    rw [Nat.add_mul, Nat.one_mul] at hle
    simp only [toPages, getElem_map, getElem_range]
    rw [drop_laid hm, take_laid (by omega), drop_eq_getElem_cons hi,
      ← singleton_append, laid_append_left hm (by simp), laid_singleton]

end ToPages

theorem RadixKey.length_pages {m : ℕ} (hm : 0 < m) {key : RadixKey} {k : ℕ}
    (h : key.tokenIds.length = k * m) : (key.pages m).length = k := by
  rw [RadixKey.pages, length_map, length_toPages_mul hm h]

namespace RadixCache

variable {c : RadixCache η β}
  {T : PathTree Page (RadixNode η)} {e : PathNode Page (RadixNode η)} {m n : ℕ}
  {g : PathNode Page (RadixNode η) → RadixNode η} {P : List ℕ} {p key : List Page}

def nodePages (m : ℕ) (e : PathNode Page (RadixNode η)) : List ℕ :=
  e.data.value.map fun v => v.headD 0 / m

def treePages (m : ℕ) (T : PathTree Page (RadixNode η)) : List ℕ := T.flatMap (nodePages m)

def WholePages (m : ℕ) (T : PathTree Page (RadixNode η)) : Prop :=
  ∀ e ∈ T, e.data.value = (nodePages m e).map (pageSlots m)

theorem headD_pageSlots_div (hm : 0 < m) (p : ℕ) : (pageSlots m p).headD 0 / m = p := by
  obtain ⟨k, rfl⟩ : ∃ k, m = k + 1 := ⟨m - 1, by omega⟩
  simp [pageSlots, range_succ_eq_map]

theorem nodePages_of_value (hm : 0 < m) (h : e.data.value = P.map (pageSlots m)) :
    nodePages m e = P := by
  rw [nodePages, h, map_map]
  exact (map_congr_left fun p _ => headD_pageSlots_div hm p).trans (map_id _)

theorem WholePages.flatten_value (hw : WholePages m T) (hm : 0 < m) (he : e ∈ T) :
    e.data.value.flatten = laid m (nodePages m e) ((nodePages m e).length * m) := by
  rw [hw e he, laid_length_mul hm, flatMap_def]

section Cut

theorem nodePages_upper : nodePages m (PathTree.upper RadixNode.cut e n) = (nodePages m e).take n := by
  simp [nodePages, PathTree.upper, RadixNode.cut]

theorem nodePages_lower : nodePages m (PathTree.lower RadixNode.cut e n) = (nodePages m e).drop n := by
  simp [nodePages, PathTree.lower, RadixNode.cut]

theorem WholePages.split (hw : WholePages m T) (hT : T.Shaped) (he : e ∈ T) :
    WholePages m (T.split RadixNode.cut e n) := by
  intro x hx
  rcases (mem_split hT he).mp hx with rfl | rfl | ⟨hx, -⟩
  · rw [nodePages_upper, map_take, ← hw e he]
    rfl
  · rw [nodePages_lower, map_drop, ← hw e he]
    rfl
  · exact hw x hx

theorem treePages_split (hT : T.Shaped) (he : e ∈ T) :
    (treePages m (T.split RadixNode.cut e n)).Perm (treePages m T) := by
  have hcut : (T.split RadixNode.cut e n).Perm _ := split_perm hT he
  have hsplit := hcut.flatMap_right (nodePages m)
  have hwhole := (perm_cons_filter_ne T hT he).flatMap_right (nodePages m)
  rw [flatMap_cons, flatMap_cons, nodePages_upper, nodePages_lower, ← append_assoc,
    take_append_drop] at hsplit
  exact hsplit.trans hwhole.symm

end Cut

theorem WholePages.mapData (hw : WholePages m T) (hg : ∀ e, (g e).value = e.data.value) :
    WholePages m (T.mapData g) := by
  intro x hx
  obtain ⟨e, he, rfl⟩ := mem_mapData.mp hx
  simp only [nodePages, hg]
  exact hw e he

theorem treePages_mapData (hg : ∀ e, (g e).value = e.data.value) :
    treePages m (T.mapData g) = treePages m T := by
  simp only [treePages, PathTree.mapData, flatMap_map]
  congr 1
  funext e
  simp only [nodePages, hg]

theorem WholePages.attach (hw : WholePages m T) (hm : 0 < m) {d : RadixNode η}
    (hd : d.value = P.map (pageSlots m)) : WholePages m (T.attach p key d) := by
  rintro x (_ | ⟨_, hx⟩)
  · rw [nodePages_of_value hm hd]
    exact hd
  · exact hw x hx

theorem WholePages.contents (hw : WholePages m T) {q : List Page} {v : List ℕ}
    (h : contents T q = some v) : ∃ p, v = pageSlots m p := by
  rw [RadixCache.contents, PathTree.valueAt, Option.join_eq_some_iff] at h
  obtain ⟨e, he, -, hv⟩ := exists_of_cell h
  have hmem := mem_of_getElem? hv
  rw [hw e he] at hmem
  obtain ⟨p, -, rfl⟩ := mem_map.mp hmem
  exact ⟨p, rfl⟩

theorem Evicted.perm {c' : RadixCache η β} {xs : List (PathNode Page (RadixNode η))}
    (hev : Evicted cfg c xs c') (h : Accounts c) : c.nodes.Perm (xs ++ c'.nodes) := by
  induction hev with
  | done => exact .refl _
  | next hx hl hc _ ih =>
    refine (perm_cons_filter_ne _ h.shaped hx).trans (.cons _ ?_)
    have hrest := ih (h.deleteLeaf hx hl hc).recordRemoveEvent
    rw [nodes_recordRemoveEvent, nodes_deleteLeaf] at hrest
    exact hrest

end RadixCache

namespace RadixState

open RadixCache

variable {c c' : RadixCache η β} {holders holders' : List (List Page)} {m : ℕ}

structure Paged (m : ℕ) (s : RadixState η β) : Prop extends Sound s where
  whole : WholePages m s.cache.nodes

/-- What a call on the tree keeps for the holders of locks: they find the same pages. -/
def Keeps (holders : List (List Page)) (c c' : RadixCache η β) : Prop :=
  ∀ h ∈ holders, ∀ q, q <+: h → contents c'.nodes q = contents c.nodes q

theorem Paged.perm (h : Paged m (⟨c, holders⟩ : RadixState η β)) (hp : holders.Perm holders') :
    Paged m (⟨c, holders'⟩ : RadixState η β) where
  accounts := h.accounts
  filled := h.filled
  locked :=
    { holds := fun x hx => h.locked.holds x (hp.mem_iff.mpr hx)
      count := fun e he => (h.locked.count e he).trans (hp.countP_eq _) }
  whole := h.whole

section Lookup

variable (h : Paged cfg.pageSize (⟨c, holders⟩ : RadixState η β)) (hps : 0 < cfg.pageSize)
include h

theorem Paged.matchPrefix (key : RadixKey) :
    Paged cfg.pageSize (⟨(c.matchPrefix cfg.pageSize key).2.2, holders⟩ : RadixState η β) ∧
      (treePages cfg.pageSize (c.matchPrefix cfg.pageSize key).2.2.nodes).Perm
        (treePages cfg.pageSize c.nodes) ∧
      (∀ q, contents (c.matchPrefix cfg.pageSize key).2.2.nodes q = contents c.nodes q) ∧
      (c.matchPrefix cfg.pageSize key).2.2.nodes.Holds (c.matchPrefix cfg.pageSize key).2.1 := by
  have hT := h.accounts.shaped
  have hsound := @Sound.step η β cfg ⟨c, holders⟩ _ (.matchPrefix key) h.toSound trivial rfl
  refine ⟨⟨hsound, ?_⟩, ?_, fun q => valueAt_descend cutsValues hT, holds_reached hT _⟩
  · exact (descend_preserves (fun _ hT _ he _ _ _ hw => hw.split hT he) hT h.whole).2
  · exact (descend_preserves
      (P := fun T => (treePages cfg.pageSize T).Perm (treePages cfg.pageSize c.nodes))
      (fun _ hT _ he _ _ _ hp => (treePages_split hT he).trans hp) hT (.refl _)).2

include hps in
theorem Paged.found (key : RadixKey) :
    ∃ P : List ℕ, P.length ≤ ((key.pageAligned cfg.pageSize).pages cfg.pageSize).length ∧
      (c.matchPrefix cfg.pageSize key).1 = laid cfg.pageSize P (P.length * cfg.pageSize) ∧
      (c.matchPrefix cfg.pageSize key).2.1 =
        ((key.pageAligned cfg.pageSize).pages cfg.pageSize).take P.length ∧
      ∀ i (hi : i < P.length),
        contents c.nodes (((key.pageAligned cfg.pageSize).pages cfg.pageSize).take (i + 1)) =
          some (pageSlots cfg.pageSize P[i]) := by
  have hT := h.accounts.shaped
  obtain ⟨hlong, hnode⟩ := matchPages_longest hT h.filled
    ((key.pageAligned cfg.pageSize).pages cfg.pageSize)
  set pages := (key.pageAligned cfg.pageSize).pages cfg.pageSize
  have hlen : (c.matchPages pages).1.length = (c.reached pages).length := by
    simpa using congrArg length hlong.stored
  have hget : ∀ i (hi : i < (c.matchPages pages).1.length),
      contents c.nodes (pages.take (i + 1)) = some (c.matchPages pages).1[i] := by
    intro i hi
    have := congrArg (·[i]?) hlong.stored
    simp only [getElem?_map, getElem?_eq_getElem hi,
      getElem?_range (hlen ▸ hi : i < (c.reached pages).length), Option.map_some] at this
    exact (Option.some.inj this).symm
  have hwhole : ∀ v ∈ (c.matchPages pages).1, ∃ p, v = pageSlots cfg.pageSize p := by
    intro v hv
    obtain ⟨i, hi, rfl⟩ := getElem_of_mem hv
    exact h.whole.contents (hget i hi)
  obtain ⟨P, hP⟩ : ∃ P : List ℕ, (c.matchPages pages).1 = P.map (pageSlots cfg.pageSize) := by
    choose! f hf using hwhole
    refine ⟨(c.matchPages pages).1.map f, ?_⟩
    rw [map_map]
    exact (map_id _).symm.trans (map_congr_left hf)
  have hPlen : P.length = (c.reached pages).length := by
    rw [← hlen, hP, length_map]
  refine ⟨P, hPlen ▸ hlong.le, ?_, ?_, fun i hi => ?_⟩
  · change (c.matchPages pages).1.flatten = _
    rw [hP, laid_length_mul hps, flatMap_def]
  · rw [hPlen]
    exact hnode
  · rw [hget i (by rw [hP, length_map]; exact hi)]
    simp only [hP, getElem_map]

end Lookup

/-- The second tree holds the same pages at the same places. -/
def SamePages (pageSize : ℕ) (T T' : PathTree Page (RadixNode η)) : Prop :=
  treePages pageSize T' = treePages pageSize T ∧ ∀ q, contents T' q = contents T q

section Locks

variable (h : Paged cfg.pageSize (⟨c, holders⟩ : RadixState η β)) {p : List Page}
include h

theorem Paged.incLockRef (hp : c.nodes.Holds p) :
    Paged cfg.pageSize (⟨c.incLockRef p, p :: holders⟩ : RadixState η β) ∧
      SamePages cfg.pageSize c.nodes (c.incLockRef p).nodes := by
  have hsound := @Sound.step η β cfg ⟨c, holders⟩ _ (.incLockRef p) h.toSound hp rfl
  have hn := nodes_incLockRef h.accounts.shaped hp
  refine ⟨⟨hsound, ?_⟩, ?_, fun q => ?_⟩
  all_goals rw [hn]
  · exact h.whole.mapData fun e => by split <;> rfl
  · exact treePages_mapData fun e => by split <;> rfl
  · exact contents_mapData fun e => by split <;> rfl

theorem Paged.decLockRef (hp : p ∈ holders) :
    Paged cfg.pageSize (⟨c.decLockRef p, holders.erase p⟩ : RadixState η β) ∧
      SamePages cfg.pageSize c.nodes (c.decLockRef p).nodes := by
  have hsound := @Sound.step η β cfg ⟨c, holders⟩ _ (.decLockRef p) h.toSound hp rfl
  have hn := nodes_decLockRef h.accounts.shaped (h.locked.holds p hp)
  refine ⟨⟨hsound, ?_⟩, ?_, fun q => ?_⟩
  all_goals rw [hn]
  · exact h.whole.mapData fun e => by split <;> rfl
  · exact treePages_mapData fun e => by split <;> rfl
  · exact contents_mapData fun e => by split <;> rfl

end Locks

section Store

variable (h : Paged cfg.pageSize (⟨c, holders⟩ : RadixState η β)) (hps : 0 < cfg.pageSize)
include h

include hps in
/-- An insertion stores the pages that it does not find; the others stay with the caller. -/
theorem Paged.insert {key : RadixKey} {P : List ℕ}
    (hlen : key.tokenIds.length = P.length * cfg.pageSize) :
    ∃ n ≤ P.length,
      (c.insert cfg key (laid cfg.pageSize P (P.length * cfg.pageSize))).1 = n * cfg.pageSize ∧
      Paged cfg.pageSize (⟨(c.insert cfg key
        (laid cfg.pageSize P (P.length * cfg.pageSize))).2, holders⟩ : RadixState η β) ∧
      (treePages cfg.pageSize (c.insert cfg key
        (laid cfg.pageSize P (P.length * cfg.pageSize))).2.nodes).Perm
          (P.drop n ++ treePages cfg.pageSize c.nodes) ∧
      (∀ q, contents (c.insert cfg key (laid cfg.pageSize P (P.length * cfg.pageSize))).2.nodes q =
        (contents c.nodes).insert (key.pages cfg.pageSize) (P.map (pageSlots cfg.pageSize)) q) ∧
      (n < P.length → contents c.nodes ((key.pages cfg.pageSize).take (n + 1)) = none) := by
  have hT := h.accounts.shaped
  have hsound := @Sound.step η β cfg ⟨c, holders⟩ _
    (.insert key (laid cfg.pageSize P (P.length * cfg.pageSize))) h.toSound
    (length_laid.trans hlen.symm) rfl
  have hklen : (key.pages cfg.pageSize).length = P.length := RadixKey.length_pages hps hlen
  have hlong := (matchPages_longest hT h.filled (key.pages cfg.pageSize)).1
  have hwalk : (treePages cfg.pageSize (c.walked (key.pages cfg.pageSize))).Perm
      (treePages cfg.pageSize c.nodes) := (descend_preserves
      (P := fun T => (treePages cfg.pageSize T).Perm (treePages cfg.pageSize c.nodes))
      (fun _ hT _ he _ _ _ hp => (treePages_split hT he).trans hp) hT (.refl _)).2
  have hfst : (c.insertPages cfg (key.pages cfg.pageSize)
      (P.map (pageSlots cfg.pageSize))).1 = (c.reached (key.pages cfg.pageSize)).length := by
    rcases insertPages_eq cfg hT (key.pages cfg.pageSize) (P.map (pageSlots cfg.pageSize)) with
      ⟨-, heq⟩ | ⟨s, rest, -, heq⟩ <;> rw [heq]
  simp only [RadixCache.insert, toPages_laid hps] at hsound ⊢
  refine ⟨(c.reached (key.pages cfg.pageSize)).length, hklen ▸ hlong.le, by rw [hfst],
    ⟨hsound, ?_⟩, ?_, fun q => contents_insertPages hT h.filled,
    fun hlt => hlong.maximal (hklen ▸ hlt)⟩
  · refine insertPages_preserves hT (fun _ hT _ he _ _ _ hw => hw.split hT he) ?_
      (fun _ _ _ hw => hw.mapData fun e => by split <;> rfl) h.whole
    exact fun T p s rest _ _ _ _ hw => hw.attach hps (map_drop).symm
  · rcases insertPages_eq cfg hT (key.pages cfg.pageSize) (P.map (pageSlots cfg.pageSize)) with
      ⟨hkey, heq⟩ | ⟨s, rest, hkey, heq⟩
    · rw [heq, drop_of_length_le (by rw [← hkey, hklen]), nil_append]
      exact hwalk
    · have hatt : (treePages cfg.pageSize ((c.walked (key.pages cfg.pageSize)).attach
          (c.reached (key.pages cfg.pageSize)) (s :: rest)
          ⟨(P.map (pageSlots cfg.pageSize)).drop (c.reached (key.pages cfg.pageSize)).length, 0,
            none⟩)).Perm
          (P.drop (c.reached (key.pages cfg.pageSize)).length ++ treePages cfg.pageSize c.nodes) := by
        rw [treePages, PathTree.attach, flatMap_cons, nodePages_of_value hps map_drop.symm]
        exact hwalk.append_left _
      rw [heq]
      unfold recordStoreEvent
      split
      · simp only [nodes_updateLeafStatus]
        rw [PathTree.edit, treePages_mapData fun e => by split <;> rfl]
        exact hatt
      · simpa using hatt

theorem Paged.keeps_insert {key : List Page} {value : List (List ℕ)}
    (hc : ∀ q, contents c'.nodes q = (contents c.nodes).insert key value q) : Keeps holders c c' := by
  intro p hp q hq
  rw [hc, PrefixMap.insert]
  split
  next hnew =>
    obtain ⟨hne, -, hnone⟩ := hnew
    rw [contents_eq_none h.filled h.accounts.shaped] at hnone
    have hpne : p ≠ [] := by
      rintro rfl
      exact hne (prefix_nil.mp hq)
    have hstored := (h.locked.holds p hp).stored h.accounts.shaped hpne
    exact absurd (h.accounts.shaped.stored_of_begins hstored hq hne) hnone
  · rfl

theorem Paged.evict (pick : List (List Page) → ℕ) (numTokens : ℕ) :
    Paged cfg.pageSize (⟨(c.evict cfg pick numTokens).2, holders⟩ : RadixState η β) ∧
      (treePages cfg.pageSize c.nodes).Perm
        ((c.evict cfg pick numTokens).1.flatMap (nodePages cfg.pageSize) ++
          treePages cfg.pageSize (c.evict cfg pick numTokens).2.nodes) ∧
      (∀ x ∈ (c.evict cfg pick numTokens).1, x ∈ c.nodes) ∧
      Keeps holders c (c.evict cfg pick numTokens).2 := by
  have hT := h.accounts.shaped
  have hsound := @Sound.step η β cfg ⟨c, holders⟩ _ (.evict pick numTokens) h.toSound trivial rfl
  have hev := (h.toSound.evict cfg pick numTokens).1
  have hmem := hev.nodes_eq.1
  refine ⟨⟨hsound, ?_⟩, ?_, fun x hx => (hmem x hx).1, fun p hp q hq => ?_⟩
  · rw [hev.nodes_eq.2.2]
    exact fun e he => h.whole e (mem_filter.mp he).1
  · rw [treePages, treePages, ← flatMap_append]
    exact (hev.perm h.accounts).flatMap_right _
  · rw [hev.contents_eq h.accounts, PrefixMap.evict, if_neg]
    rintro ⟨x, hx, hcov⟩
    obtain ⟨hx, hl⟩ := hmem x hx
    -- a node above a lock is locked
    have hpre : x.path <+: p := by
      rcases h.locked.holds p hp with rfl | ⟨f, hf, rfl⟩
      · rw [prefix_nil.mp hq] at hcov
        exact absurd hcov.1 (Nat.not_lt_zero _)
      · exact hT.prefix_of_covers hx hcov hf hq
    exact absurd hl (h.locked.pos hp hx hpre).ne'

end Store

end RadixState

end LLM42
