import LLM42.Cache.RadixRuns

/-! # The radix cache as a map

What a cache stores is a map from prefixes, namespace and all, to the slots of their last page. An
insertion fills in the prefixes that are missing, an eviction clears those of the nodes it frees,
and a lookup reads off the longest beginning of its key. Where the tree is cut never shows. -/

namespace LLM42

open List Library.PathTree
open Library (PathNode PathTree Reachable keyMatch keyMatch_cons)

variable {η β : Type*} {cfg : RadixConfig η β}

/-! ### Pages of a key -/

section Pages

variable {α : Type*} [DecidableEq α] {pageSize : ℕ}

def keyMatchPagedFrom (pageSize : ℕ) (key0 key1 : List α) : ℕ → ℕ → ℕ
  | 0, i => i
  | fuel + 1, i =>
    if i < min key0.length key1.length then
      if (key0.drop i).take pageSize = (key1.drop i).take pageSize then
        keyMatchPagedFrom pageSize key0 key1 fuel (i + pageSize)
      else i
    else i

def keyMatchPaged (pageSize : ℕ) (key0 key1 : List α) : ℕ :=
  keyMatchPagedFrom pageSize key0 key1 key0.length 0

omit [DecidableEq α] in
theorem lt_length_toPages (hps : 0 < pageSize) (l : List α) (j : ℕ) :
    j < (toPages pageSize l).length ↔ j * pageSize < l.length := by
  rw [length_toPages, Nat.lt_iff_add_one_le, Nat.le_div_iff_mul_le hps, Nat.add_mul, Nat.one_mul]
  omega

/-- `_key_match_paged` counts the pages that both keys begin with, a last one that is cut short
included. -/
theorem keyMatchPaged_eq (hps : 0 < pageSize) (key0 key1 : List α) :
    keyMatchPaged pageSize key0 key1 =
      keyMatch (toPages pageSize key0) (toPages pageSize key1) * pageSize := by
  have hdrop : ∀ (l : List α) (j : ℕ), (toPages pageSize l).drop j =
      if j * pageSize < l.length then
        (l.drop (j * pageSize)).take pageSize :: (toPages pageSize l).drop (j + 1)
      else [] := by
    intro l j
    split
    next hj =>
      rw [drop_eq_getElem_cons ((lt_length_toPages hps l j).mpr hj)]
      simp [toPages]
    next hj =>
      rw [drop_eq_nil_iff, ← not_lt, lt_length_toPages hps]
      exact hj
  have key : ∀ fuel j, key0.length ≤ j * pageSize + fuel →
      keyMatchPagedFrom pageSize key0 key1 fuel (j * pageSize) =
        (j + keyMatch ((toPages pageSize key0).drop j) ((toPages pageSize key1).drop j)) *
          pageSize := by
    intro fuel
    induction fuel with
    | zero =>
      intro j hj
      rw [keyMatchPagedFrom, hdrop key0, if_neg (by omega)]
      simp
    | succ fuel ih =>
      intro j hj
      have hstep : j * pageSize + pageSize = (j + 1) * pageSize := by ring
      rw [keyMatchPagedFrom, hdrop key0, hdrop key1, hstep, ih (j + 1) (by omega)]
      by_cases h0 : j * pageSize < key0.length
      · by_cases h1 : j * pageSize < key1.length
        · simp only [lt_min_iff, h0, h1, and_self, if_true, keyMatch_cons]
          split
          · ring
          · simp
        · simp [h0, h1]
      · simp [h0]
  have h := key key0.length 0 (by omega)
  simpa [keyMatchPaged] using h

theorem keyMatchPaged_eq_cut : keyMatchPaged 2 [1, 2, 3] [1, 2, 3] = 4 :=
  (keyMatchPaged_eq (by decide) _ _).trans (by decide)

end Pages

/-! ### What is stored -/

abbrev PrefixMap := List Page → Option (List ℕ)

namespace PrefixMap

def insert (m : PrefixMap) (key : List Page) (value : List (List ℕ)) : PrefixMap := fun q =>
  if q ≠ [] ∧ q <+: key ∧ m q = none then value[q.length - 1]? else m q

/-- Clear the prefixes that end on the edge of one of the nodes. -/
def evict {η : Type*} (m : PrefixMap) (freed : List (PathNode Page (RadixNode η))) : PrefixMap :=
  fun q => if ∃ x ∈ freed, x.Covers q then none else m q

/-- `n` is the length of the longest stored beginning of `key`, with the slots `value`. -/
structure Longest (m : PrefixMap) (key : List Page) (n : ℕ) (value : List (List ℕ)) : Prop where
  le : n ≤ key.length
  stored : value.map some = (range n).map fun i => m (key.take (i + 1))
  maximal : n < key.length → m (key.take (n + 1)) = none

theorem Longest.unique {m : PrefixMap} {key : List Page} {n n' : ℕ} {v v' : List (List ℕ)}
    (h : m.Longest key n v) (h' : m.Longest key n' v') : v = v' := by
  have hsome : ∀ {n v}, m.Longest key n v → ∀ i < n, m (key.take (i + 1)) ≠ none := by
    intro n v h i hi hnone
    have hget := congrArg (·[i]?) h.stored
    simp only [getElem?_map, getElem?_range hi, Option.map_some, hnone] at hget
    cases hv : v[i]? <;> simp [hv] at hget
  have hle : ∀ {n n' v v'}, m.Longest key n v → m.Longest key n' v' → n ≤ n' := by
    intro n n' v v' h h'
    by_contra hlt
    exact hsome h n' (by omega) (h'.maximal (lt_of_lt_of_le (by omega) h.le))
  obtain rfl : n = n' := le_antisymm (hle h h') (hle h' h)
  have := h.stored.trans h'.stored.symm
  exact map_injective_iff.mpr (Option.some_injective _) this

end PrefixMap

namespace RadixCache

variable {c : RadixCache η β}
  {e : PathNode Page (RadixNode η)} {p q key : List Page} {value : List (List ℕ)} {m : PrefixMap}
  {T : PathTree Page (RadixNode η)} {g : PathNode Page (RadixNode η) → RadixNode η}

def contents (T : PathTree Page (RadixNode η)) : PrefixMap := T.valueAt RadixNode.value

theorem cutsValues : PathTree.CutsValues (@RadixNode.cut η) RadixNode.value :=
  ⟨fun _ _ => rfl, fun _ _ => rfl⟩

theorem Filled.filled (hf : Filled T) :
    T.Filled RadixNode.value := fun e he => by simpa using congrArg length (hf e he)

theorem contents_eq_none (hf : Filled T) (hT : T.Shaped) : contents T q = none ↔ ¬ T.Stored q := by
  rw [← hf.filled.valueAt_isSome hT, contents]
  simp

theorem contents_mapData (hg : ∀ e, (g e).value = e.data.value) :
    contents (T.mapData g) q = contents T q := by
  rw [contents, contents, PathTree.valueAt, PathTree.valueAt, cell_mapData fun e _ i => by rw [hg]]

/-- A walk finds the longest stored beginning of the key. -/
theorem matchPages_longest (hT : c.nodes.Shaped) (hf : Filled c.nodes) (key : List Page) :
    (contents c.nodes).Longest key (c.reached key).length (c.matchPages key).1 ∧
      (c.matchPages key).2.1 = key.take (c.reached key).length := by
  have hr := reaches_reached hT key
  have hpre : c.reached key <+: key := by simpa using hr.below
  have htake : c.reached key = key.take (c.reached key).length := prefix_iff_eq_take.mp hpre
  have hlen : ((c.matchPages key).1).length = (c.reached key).length := by
    have hkeys : [] ++ (PathTree.descend RadixNode.cut key.length c.nodes [] key).2.2.flatMap
        (·.key) = c.reached key := length_descend hT
    rw [nil_append] at hkeys
    rw [← hkeys, matchPages, length_flatMap, length_flatMap]
    congr 1
    exact map_congr_left fun x hx => hf.filled.length_visited cutsValues hT hx
  refine ⟨⟨hpre.length_le, ?_, fun hlt => ?_⟩, htake⟩
  · refine ext_getElem? fun i => ?_
    rw [getElem?_map, getElem?_map]
    by_cases hi : i < (c.reached key).length
    · have hi' : ([] : List Page).length + i <
          (PathTree.descend RadixNode.cut key.length c.nodes [] key).2.1.length := by
        rw [length_nil, Nat.zero_add]
        exact hi
      have hget : (c.matchPages key).1[i]? =
          contents c.nodes ((c.reached key).take (([] : List Page).length + i + 1)) :=
        getElem?_descend hf.filled cutsValues hT hi'
      rw [length_nil, Nat.zero_add, htake, take_take,
        Nat.min_eq_left (Nat.succ_le_of_lt hi)] at hget
      have hlt : i < (c.matchPages key).1.length := by omega
      rw [getElem?_range hi, Option.map_some, ← hget, getElem?_eq_getElem hlt]
      rfl
    · rw [getElem?_eq_none (by omega), getElem?_eq_none (by simpa using hi)]
      rfl
  · rw [contents_eq_none hf hT]
    obtain ⟨s, hs⟩ : ∃ s, key.take ((c.reached key).length + 1) = c.reached key ++ [s] := by
      refine ⟨key[(c.reached key).length], ?_⟩
      rw [take_add_one, getElem?_eq_getElem hlt, ← htake]
      rfl
    rw [hs]
    refine hr.stop s ?_
    rw [← hs, nil_append]
    exact take_prefix _ _

theorem contents_attach (hT : T.Shaped) (hf : Filled T) {s : Page} {rest : List Page}
    (hp : T.Holds p) (hfree : T.child? p s = none) (hkey : key = p ++ s :: rest) :
    contents (T.attach p (s :: rest) ⟨value.drop p.length, 0, none⟩) q =
      (contents T).insert key value q := by
  have hnot : ¬ T.Stored (p ++ [s]) := by
    rw [← hT.child?_isSome hp, hfree]
    simp
  have hiff : (q ≠ [] ∧ q <+: key ∧ contents T q = none) ↔ (p.length < q.length ∧ q <+: key) := by
    rw [contents_eq_none hf hT]
    constructor
    · rintro ⟨hne, hpre, hns⟩
      refine ⟨?_, hpre⟩
      by_contra hle
      have hqp : q <+: p := by
        rw [hkey] at hpre
        exact prefix_of_prefix_length_le hpre (prefix_append _ _) (by omega)
      have hpne : p ≠ [] := by
        rintro rfl
        exact hne (prefix_nil.mp hqp)
      exact hns (hT.stored_of_begins (hp.stored hT hpne) hqp hne)
    · rintro ⟨hlt, hpre⟩
      refine ⟨by rintro rfl; simp at hlt, hpre, fun hst => hnot ?_⟩
      refine hT.stored_of_begins hst ?_ (by simp)
      rw [hkey] at hpre
      refine prefix_of_prefix_length_le ?_ hpre (by simp; omega)
      exact (prefix_append_right_inj _).mpr (by simp)
  rw [PrefixMap.insert]
  simp only [hiff]
  rw [contents, PathTree.valueAt, cell_attach, ← hkey]
  split
  next h =>
    rw [Option.join_some, getElem?_drop]
    congr 1
    omega
  · rfl

theorem contents_insertPages (hT : c.nodes.Shaped) (hf : Filled c.nodes) :
    contents (c.insertPages cfg key value).2.nodes q = (contents c.nodes).insert key value q := by
  have hwalk : ∀ q, contents (c.walked key) q = contents c.nodes q :=
    fun q => valueAt_descend cutsValues hT
  have hfw : Filled (c.walked key) :=
    (descend_preserves (fun _ hT _ he _ _ _ hf => hf.split hT he) hT hf).2
  rcases insertPages_eq cfg hT key value with ⟨hkey, heq⟩ | ⟨s, rest, hkey, heq⟩
  · rw [heq]
    refine (hwalk q).trans ?_
    rw [PrefixMap.insert, if_neg]
    rintro ⟨hne, hpre, hns⟩
    rw [← hwalk, contents_eq_none hfw (shaped_walked hT key)] at hns
    have hh := holds_reached hT key
    rw [← hkey] at hh
    have hkne : key ≠ [] := by
      intro h0
      rw [h0] at hpre
      exact hne (prefix_nil.mp hpre)
    exact hns ((shaped_walked hT key).stored_of_begins (hh.stored (shaped_walked hT key) hkne)
      hpre hne)
  · have hatt : contents ((c.walked key).attach (c.reached key) (s :: rest)
        ⟨value.drop (c.reached key).length, 0, none⟩) q = (contents c.nodes).insert key value q := by
      rw [contents_attach (shaped_walked hT key) hfw (holds_reached hT key)
        (child?_reached hT hkey) hkey]
      simp only [PrefixMap.insert, hwalk]
    rw [heq]
    unfold recordStoreEvent
    split
    · simp only [nodes_updateLeafStatus]
      rw [PathTree.edit, contents_mapData fun e => by split <;> rfl]
      exact hatt
    · simpa using hatt

theorem Evicted.contents_eq {c' : RadixCache η β} {xs : List (PathNode Page (RadixNode η))}
    (hev : Evicted cfg c xs c') (h : Accounts c) :
    contents c'.nodes q = (contents c.nodes).evict xs q := by
  induction hev with
  | done => simp [PrefixMap.evict]
  | @next c c' x xs hx hl hc _ ih =>
    rw [ih (h.deleteLeaf hx hl hc).recordRemoveEvent]
    have hrem : contents (c.nodes.remove x.path) q =
        if x.Covers q then none else contents c.nodes q := by
      rw [contents, PathTree.valueAt, cell_remove h.shaped hx hc]
      split <;> rfl
    simp only [PrefixMap.evict, nodes_recordRemoveEvent, nodes_deleteLeaf, hrem,
      exists_mem_cons_iff]
    by_cases h1 : x.Covers q <;> by_cases h2 : ∃ y ∈ xs, y.Covers q <;> simp [h1, h2]

/-- The namespace is the same all along a path. -/
def Uniform (T : PathTree Page (RadixNode η)) : Prop :=
  ∀ e ∈ T, ∃ extraKey, ∀ page ∈ e.path, page.1 = extraKey

theorem Uniform.split (hu : Uniform T) (hT : T.Shaped) (he : e ∈ T) {n : ℕ} :
    Uniform (T.split RadixNode.cut e n) := by
  intro x hx
  obtain ⟨extraKey, hk⟩ := hu e he
  rcases (mem_split hT he).mp hx with rfl | rfl | ⟨hx, -⟩
  · exact ⟨extraKey, fun page hp => hk page (mem_of_mem_take hp)⟩
  · exact ⟨extraKey, hk⟩
  · exact hu x hx

theorem Uniform.mapData (hu : Uniform T) : Uniform (T.mapData g) := by
  intro x hx
  obtain ⟨e, he, rfl⟩ := mem_mapData.mp hx
  exact hu e he

theorem Uniform.insert (hu : Uniform c.nodes) (hT : c.nodes.Shaped) {k : RadixKey}
    {value : List ℕ} : Uniform (c.insert cfg k value).2.nodes := by
  refine insertPages_preserves hT (fun _ hT _ he _ _ _ hu => hu.split hT he) ?_
    (fun _ _ _ hu => hu.mapData) hu
  rintro T p s rest _ _ _ hkey hu x (_ | ⟨_, hx⟩)
  · refine ⟨k.extraKey, fun page hp => ?_⟩
    rw [← hkey, RadixKey.pages, mem_map] at hp
    obtain ⟨_, -, rfl⟩ := hp
    rfl
  · exact hu x hx

end RadixCache

namespace RadixState

open RadixCache

variable {x : RadixState η β × PrefixMap}

/-- What a call does to the map; an eviction clears what it returned. -/
def onMap (cfg : RadixConfig η β) (s : RadixState η β) (m : PrefixMap) : RadixOp → PrefixMap
  | .insert key value => m.insert (key.pages cfg.pageSize) (toPages cfg.pageSize value)
  | .evict pick numTokens => m.evict (s.cache.evict cfg pick numTokens).1
  | .reset => fun _ => none
  | _ => m

def mapStep (cfg : RadixConfig η β) (x : RadixState η β × PrefixMap) (op : RadixOp) :
    Except Empty (RadixState η β × PrefixMap) :=
  (x.1.step cfg op).map fun t => (t, x.1.onMap cfg x.2 op)

abbrev MapRun (cfg : RadixConfig η β) : RadixState η β × PrefixMap → Prop :=
  Reachable (mapStep cfg) (· = (create cfg, fun _ => none)) fun x op => x.1.Allowed op

/-- The tree stands for the map. -/
structure Maps (x : RadixState η β × PrefixMap) : Prop where
  sound : Sound x.1
  uniform : Uniform x.1.cache.nodes
  contents : ∀ q, contents x.1.cache.nodes q = x.2 q

/-- Each call is the matching one of the prefix map. -/
theorem Maps.step {x y : RadixState η β × PrefixMap} (h : Maps x) (op : RadixOp)
    (hop : x.1.Allowed op) (hstep : mapStep cfg x op = .ok y) : Maps y := by
  obtain ⟨s, m⟩ := x
  have hs := h.sound
  have hT := hs.accounts.shaped
  have hm := h.contents
  have hnext : ∀ t, s.step cfg op = .ok t → Sound t := fun t ht => hs.step hop ht
  cases op with
  | insert key value =>
    cases hstep
    refine ⟨hnext _ rfl, h.uniform.insert hT, fun q => ?_⟩
    refine (contents_insertPages hT hs.filled).trans ?_
    simp only [PrefixMap.insert, hm, onMap]
  | matchPrefix key =>
    cases hstep
    refine ⟨hnext _ rfl, ?_, fun q => ?_⟩
    · exact (descend_preserves (fun _ hT _ he _ _ _ hu => hu.split hT he) hT h.uniform).2
    · exact (valueAt_descend cutsValues hT).trans (hm q)
  | evict pick numTokens =>
    cases hstep
    have hev := (hs.evict cfg pick numTokens).1
    refine ⟨hnext _ rfl, ?_, fun q => ?_⟩
    · exact (hev.preserves hs.accounts
        (fun _ _ _ _ _ _ hu e he => hu e (mem_remove.mp he).1) h.uniform).2
    · refine (hev.contents_eq hs.accounts).trans ?_
      simp only [PrefixMap.evict, hm, onMap]
  | incLockRef node =>
    cases hstep
    refine ⟨hnext _ rfl, ?_, fun q => ?_⟩
    · rw [nodes_incLockRef hT hop]
      exact h.uniform.mapData
    · rw [nodes_incLockRef hT hop, contents_mapData fun e => by split <;> rfl]
      exact hm q
  | decLockRef node =>
    cases hstep
    have hholds := hs.locked.holds node hop
    refine ⟨hnext _ rfl, ?_, fun q => ?_⟩
    · rw [nodes_decLockRef hT hholds]
      exact h.uniform.mapData
    · rw [nodes_decLockRef hT hholds, contents_mapData fun e => by split <;> rfl]
      exact hm q
  | reset =>
    cases hstep
    exact ⟨sound_reset _, by simp [Uniform, reset], fun q => rfl⟩

theorem MapRun.maps (h : MapRun cfg x) : Maps x := by
  refine h.invariant ?_ fun x op y hx hop hstep => hx.step op hop hstep
  rintro x rfl
  exact ⟨sound_reset _, by simp [Uniform, create, reset], fun q => rfl⟩

variable (cfg) in
theorem Maps.matchPrefix (h : Maps x) (k : RadixKey) :
    ∃ n value, x.2.Longest ((k.pageAligned cfg.pageSize).pages cfg.pageSize) n value ∧
      (x.1.cache.matchPrefix cfg.pageSize k).1 = value.flatten ∧
      (x.1.cache.matchPrefix cfg.pageSize k).2.1 =
        ((k.pageAligned cfg.pageSize).pages cfg.pageSize).take n := by
  obtain ⟨hlong, hlast⟩ := matchPages_longest h.sound.accounts.shaped h.sound.filled
    ((k.pageAligned cfg.pageSize).pages cfg.pageSize)
  rw [funext h.contents] at hlong
  exact ⟨_, _, hlong, rfl, hlast⟩

/-- In every run the tree is well formed and stands for the map of what was inserted first and not
evicted since; a lookup returns the longest stored beginning of its key, and cutting the tree never
changes a later answer. -/
theorem radix_prefix_map {x : RadixState η β × PrefixMap} (h : MapRun cfg x) :
    (∀ e ∈ x.1.cache.nodes, e.key ≠ [] ∧ e.data.value.flatten.length = tokenLen e.key ∧
      x.1.cache.nodes.Holds e.parent ∧
      ∃ page rest, e.key = page :: rest ∧ x.1.cache.nodes.child? e.parent page = some e) ∧
    (∀ p page e, x.1.cache.nodes.child? p page = some e →
      e ∈ x.1.cache.nodes ∧ e.parent = p ∧ e.key.head? = some page) ∧
    (∀ e ∈ x.1.cache.nodes, ∀ f ∈ x.1.cache.nodes, e.parent = f.parent →
      e.key.head? = f.key.head? → e = f) ∧
    (∀ e ∈ x.1.cache.nodes, ∃ extraKey, ∀ page ∈ e.path, page.1 = extraKey) ∧
    (∀ k : RadixKey, ∃ n value,
      x.2.Longest ((k.pageAligned cfg.pageSize).pages cfg.pageSize) n value ∧
      (x.1.cache.matchPrefix cfg.pageSize k).1 = value.flatten ∧
      (x.1.cache.matchPrefix cfg.pageSize k).2.1 =
        ((k.pageAligned cfg.pageSize).pages cfg.pageSize).take n) ∧
    ∀ k k' : RadixKey, ((x.1.cache.matchPrefix cfg.pageSize k).2.2.matchPrefix cfg.pageSize k').1 =
        (x.1.cache.matchPrefix cfg.pageSize k').1 := by
  have hm := h.maps
  have hT := hm.sound.accounts.shaped
  refine ⟨fun e he => ⟨hT.key_ne_nil he, hm.sound.filled.length_flatten he, hT.parent_mem e he,
    hT.child?_parent he⟩, fun p page e hc => hT.parent_of_child? hc, fun e he f hf hp hk =>
    hT.eq_of_head? he hf hp hk, hm.uniform, fun k => hm.matchPrefix cfg k, fun k k' => ?_⟩
  have hstep : mapStep cfg x (.matchPrefix k) =
      .ok (⟨(x.1.cache.matchPrefix cfg.pageSize k).2.2, x.1.holders⟩, x.2) := rfl
  have hm' := hm.step (.matchPrefix k) trivial hstep
  obtain ⟨n, v, hl, hv, -⟩ := hm.matchPrefix cfg k'
  obtain ⟨n', v', hl', hv', -⟩ := hm'.matchPrefix cfg k'
  rw [hv, hv', hl.unique hl']

def namespacedState : RadixState (List (List Token)) (List (List Token)) × PrefixMap :=
  let c := (create (chainConfig 2)).cache
  let c' := (c.insert (chainConfig 2) ⟨[1, 2, 3, 4], none⟩ [10, 11, 12, 13]).2
  let m := PrefixMap.insert (fun _ => none) (RadixKey.pages 2 ⟨[1, 2, 3, 4], none⟩)
    (toPages 2 [10, 11, 12, 13])
  (⟨(c'.insert (chainConfig 2) ⟨[1, 2, 3, 4], some "lora"⟩ [20, 21, 22, 23]).2, []⟩,
    m.insert (RadixKey.pages 2 ⟨[1, 2, 3, 4], some "lora"⟩) (toPages 2 [20, 21, 22, 23]))

theorem mapRun_namespacedState : MapRun (chainConfig 2) namespacedState :=
  .next (e := .insert ⟨[1, 2, 3, 4], some "lora"⟩ [20, 21, 22, 23])
    (.next (e := .insert ⟨[1, 2, 3, 4], none⟩ [10, 11, 12, 13]) (.init rfl) rfl rfl) rfl rfl

/-- Each namespace gets its own slots, up to the last whole page. -/
theorem radix_prefix_map_namespacedState : (∃ n value, namespacedState.2.Longest
        ((RadixKey.pageAligned 2 ⟨[1, 2, 3, 4, 5], some "lora"⟩).pages 2) n value ∧
      (namespacedState.1.cache.matchPrefix 2 ⟨[1, 2, 3, 4, 5], some "lora"⟩).1 = value.flatten ∧
      (namespacedState.1.cache.matchPrefix 2 ⟨[1, 2, 3, 4, 5], some "lora"⟩).2.1 =
        ((RadixKey.pageAligned 2 ⟨[1, 2, 3, 4, 5], some "lora"⟩).pages 2).take n) ∧
      (namespacedState.1.cache.matchPrefix 2 ⟨[1, 2, 3, 4, 5], some "lora"⟩).1 = [20, 21, 22, 23] :=
  ⟨(radix_prefix_map mapRun_namespacedState).2.2.2.2.1 ⟨[1, 2, 3, 4, 5], some "lora"⟩,
    by decide +kernel⟩

end RadixState

end LLM42
