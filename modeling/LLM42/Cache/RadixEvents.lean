import LLM42.Cache.RadixRuns

/-! # KV events

With `enable_kv_cache_events` the cache reports every page it stores and every page it evicts by a
hash chained over the tokens that lead to the page. The hash does not cover the namespace: a page
that two namespaces store is reported twice under one name, and forgotten when one of them loses
it. Where no chain of tokens is stored twice at an eviction, the events replay to the contents. -/

namespace LLM42

open List Library.PathTree
open Library (PathNode PathTree Reachable)

namespace KVEvent

variable {β : Type*} [DecidableEq β]

def apply (known : List β) : KVEvent β → List β
  | blockStored h _ _ => h :: known
  | blockRemoved h => known.filter (· ≠ h)
  | allBlocksCleared => []

def replay (events : List (KVEvent β)) : List β := events.foldl apply []

/-- Every stored block names no parent or one that is known by then. -/
def ParentsKnown (known : List β) : List (KVEvent β) → Prop
  | [] => True
  | e :: es => (∀ h p tokens, e = blockStored h (some p) tokens → p ∈ known) ∧
      ParentsKnown (apply known e) es

theorem replay_append (a b : List (KVEvent β)) : replay (a ++ b) = b.foldl apply (replay a) := by
  simp [replay]

theorem parentsKnown_append {known : List β} {a b : List (KVEvent β)} :
    ParentsKnown known (a ++ b) ↔ ParentsKnown known a ∧ ParentsKnown (a.foldl apply known) b := by
  induction a generalizing known with
  | nil => simp [ParentsKnown]
  | cons e a ih => simp [ParentsKnown, ih, and_assoc]

theorem mem_foldl_removed {known hs : List β} {b : β} :
    b ∈ (hs.map blockRemoved).foldl apply known ↔ b ∈ known ∧ b ∉ hs := by
  induction hs generalizing known with
  | nil => simp
  | cons h hs ih =>
    rw [map_cons, foldl_cons, ih]
    simp only [apply, mem_filter, decide_eq_true_eq, mem_cons, not_or]
    tauto

theorem parentsKnown_removed {known hs : List β} : ParentsKnown known (hs.map blockRemoved) := by
  induction hs generalizing known with
  | nil => trivial
  | cons h hs ih =>
    refine ⟨?_, ih⟩
    intro _ _ _ heq
    cases heq

end KVEvent

/-! ### Chained hashes -/

section Chain

variable {η : Type*} (getHashStr : List Token → Option η → η)

def chainHash (prior : Option η) (pages : List (List Token)) : Option η :=
  pages.foldl (fun prior page => some (getHashStr page prior)) prior

variable {getHashStr} {prior : Option η} {a b pages : List (List Token)}

@[simp] theorem length_hashChain : (hashChain getHashStr prior pages).length = pages.length := by
  induction pages generalizing prior with
  | nil => rfl
  | cons page pages ih => simp [hashChain, ih]

theorem chainHash_append : chainHash getHashStr prior (a ++ b) =
    chainHash getHashStr (chainHash getHashStr prior a) b := by
  simp [chainHash]

theorem hashChain_take (n : ℕ) : (hashChain getHashStr prior pages).take n =
    hashChain getHashStr prior (pages.take n) := by
  induction n generalizing prior pages with
  | zero => simp [hashChain]
  | succ n ih =>
    cases pages with
    | nil => rfl
    | cons page pages => simp [hashChain, ih]

theorem hashChain_drop (n : ℕ) : (hashChain getHashStr prior pages).drop n =
    hashChain getHashStr (chainHash getHashStr prior (pages.take n)) (pages.drop n) := by
  induction n generalizing prior pages with
  | zero => rfl
  | succ n ih =>
    cases pages with
    | nil => rfl
    | cons page pages => simp [hashChain, ih, chainHash]

theorem getLast?_hashChain (h : pages ≠ []) :
    (hashChain getHashStr prior pages).getLast? = chainHash getHashStr prior pages := by
  induction pages generalizing prior with
  | nil => exact absurd rfl h
  | cons page pages ih =>
    cases pages with
    | nil => rfl
    | cons page' pages =>
      rw [hashChain, hashChain, getLast?_cons_cons]
      exact ih (by simp)

theorem mem_hashChain {h : η} : h ∈ hashChain getHashStr prior pages ↔
    ∃ i < pages.length, chainHash getHashStr prior (pages.take (i + 1)) = some h := by
  induction pages generalizing prior with
  | nil => simp [hashChain]
  | cons page pages ih =>
    rw [hashChain, mem_cons, ih]
    constructor
    · rintro (rfl | ⟨i, hi, hc⟩)
      · exact ⟨0, by simp, rfl⟩
      · exact ⟨i + 1, by simpa using hi, hc⟩
    · rintro ⟨i, hi, hc⟩
      cases i with
      | zero =>
        left
        simpa [chainHash, eq_comm] using hc
      | succ i => exact .inr ⟨i, by simpa using hi, hc⟩

end Chain

namespace RadixCache

variable {η β : Type*} {cfg : RadixConfig η β} {c : RadixCache η β}
  {e : PathNode Page (RadixNode η)} {p q key : List Page} {value : List (List ℕ)}
  {c' : RadixCache η β} {T : PathTree Page (RadixNode η)}

def tokensOf (q : List Page) : List (List Token) := q.map (·.2)

/-- The name under which events report the last page of `q`. -/
def blockHash (cfg : RadixConfig η β) (q : List Page) : Option β :=
  (chainHash cfg.getHashStr none (tokensOf q)).map cfg.hashStrToInt64

def Hashed (cfg : RadixConfig η β) (T : PathTree Page (RadixNode η)) : Prop :=
  ∀ e ∈ T, e.data.hashValue = some (hashChain cfg.getHashStr
    (chainHash cfg.getHashStr none (tokensOf e.parent)) (tokensOf e.key))

theorem tokensOf_append (a b : List Page) : tokensOf (a ++ b) = tokensOf a ++ tokensOf b := by
  simp [tokensOf]

theorem Hashed.split (hh : Hashed cfg T) (hT : T.Shaped) (he : e ∈ T) {n : ℕ} :
    Hashed cfg (T.split RadixNode.cut e n) := by
  intro x hx
  have hhe := hh e he
  rcases (mem_split hT he).mp hx with rfl | rfl | ⟨hx, -⟩
  · have hpar : (PathTree.upper RadixNode.cut e n).parent = e.parent := by
      simp [PathTree.upper, PathNode.parent, take_take]
    rw [key_upper, hpar]
    simp only [PathTree.upper, RadixNode.cut, hhe, Option.map_some, hashChain_take, tokensOf,
      map_take]
  · have hpar : (PathTree.lower RadixNode.cut e n).parent = e.parent ++ e.key.take n := by
      simp [PathTree.lower, PathNode.parent, PathNode.key, take_add]
    rw [key_lower, hpar, tokensOf_append, chainHash_append]
    simp only [PathTree.lower, RadixNode.cut, hhe, Option.map_some, hashChain_drop, tokensOf,
      map_take, map_drop]
  · exact hh x hx

theorem Hashed.mapData (hh : Hashed cfg T) {g : PathNode Page (RadixNode η) → RadixNode η}
    (hg : ∀ e, (g e).hashValue = e.data.hashValue) : Hashed cfg (T.mapData g) := by
  intro x hx
  obtain ⟨e, he, rfl⟩ := mem_mapData.mp hx
  rw [hg]
  exact hh e he

theorem Hashed.lastHash_eq (hh : Hashed cfg c.nodes) (hT : c.nodes.Shaped) (hp : c.nodes.Holds p) :
    c.lastHash p = chainHash cfg.getHashStr none (tokensOf p) := by
  rcases hp with rfl | ⟨e, he, rfl⟩
  · rw [lastHash, hT.node?_nil]
    rfl
  · have hne : tokensOf e.key ≠ [] := by
      simpa [tokensOf] using hT.key_ne_nil he
    rw [lastHash, hT.node?_eq he, Option.bind_some, hh e he, Option.bind_some,
      getLast?_hashChain hne, ← chainHash_append, ← tokensOf_append, e.parent_append_key]

variable (cfg) in
theorem mem_nodeHashes (hT : c.nodes.Shaped) (he : e ∈ c.nodes) {b : β} :
    b ∈ (hashChain cfg.getHashStr (chainHash cfg.getHashStr none (tokensOf e.parent))
        (tokensOf e.key)).map cfg.hashStrToInt64 ↔
      ∃ q, e.Covers q ∧ blockHash cfg q = some b := by
  have hlen := hT.length_parent he
  have hpath := e.parent_append_key
  simp only [mem_map, mem_hashChain, blockHash, Option.map_eq_some_iff]
  constructor
  · rintro ⟨h, ⟨i, hi, hc⟩, rfl⟩
    have hi' : i < e.key.length := by simpa [tokensOf] using hi
    refine ⟨e.parent ++ e.key.take (i + 1), ⟨?_, ?_⟩, h, ?_, rfl⟩
    · rw [length_append, hlen, length_take]
      omega
    · rw [← hpath]
      exact (prefix_append_right_inj _).mpr (List.take_prefix _ _)
    · rw [tokensOf_append, chainHash_append]
      simpa [tokensOf] using hc
  · rintro ⟨q, ⟨hlt, hpre⟩, h, hc, rfl⟩
    have hqlen := hpre.length_le
    have hkey := e.length_key
    refine ⟨h, ⟨q.length - 1 - e.start, ?_, ?_⟩, rfl⟩
    · simp only [tokensOf, length_map]
      omega
    · rw [← hc]
      have hq : q = e.parent ++ e.key.take (q.length - 1 - e.start + 1) := by
        rw [prefix_iff_eq_take.mp hpre, PathNode.parent, PathNode.key, ← take_add]
        congr 1
        simp only [length_take]
        omega
      conv_rhs => rw [hq, tokensOf_append, chainHash_append]
      simp [tokensOf]

theorem storeEvents_spec [DecidableEq β] (toInt64 : η → β) {known : List β} {parent : Option β}
    {pages : List (List Token)} {hs : List η} (hlen : hs.length = pages.length)
    (hp : ∀ b, parent = some b → b ∈ known) :
    (∀ b, b ∈ (storeEvents toInt64 parent pages hs).foldl KVEvent.apply known ↔
      b ∈ known ∨ b ∈ hs.map toInt64) ∧
      KVEvent.ParentsKnown known (storeEvents toInt64 parent pages hs) := by
  induction pages generalizing known parent hs with
  | nil =>
    obtain rfl : hs = [] := length_eq_zero_iff.mp (by simpa using hlen)
    simp [storeEvents, KVEvent.ParentsKnown]
  | cons page pages ih =>
    cases hs with
    | nil => simp at hlen
    | cons h hs =>
      obtain ⟨hmem, hpar⟩ := @ih (toInt64 h :: known) (some (toInt64 h)) hs (by simpa using hlen)
        (by simp)
      refine ⟨fun b => ?_, ?_, hpar⟩
      · rw [storeEvents, foldl_cons]
        refine (hmem b).trans ?_
        simp only [mem_cons, map_cons]
        tauto
      · intro _ b _ heq
        cases heq
        exact hp b rfl

variable [DecidableEq β]

/-- The events so far describe the tree. -/
structure Indexed (cfg : RadixConfig η β) (c : RadixCache η β) : Prop where
  hashed : Hashed cfg c.nodes
  replay : ∀ b, b ∈ KVEvent.replay c.kvEventQueue ↔
    ∃ q, c.nodes.Stored q ∧ blockHash cfg q = some b
  parents : KVEvent.ParentsKnown [] c.kvEventQueue

section

variable (h : Indexed cfg c)

include h

theorem Indexed.setNodes (hh : Hashed cfg c'.nodes) (hq : c'.kvEventQueue = c.kvEventQueue)
    (hs : ∀ q, c'.nodes.Stored q ↔ c.nodes.Stored q) : Indexed cfg c' := by
  refine ⟨hh, fun b => ?_, hq ▸ h.parents⟩
  simp only [hq, h.replay, hs]

theorem Indexed.descend {fuel : ℕ} (hT : c.nodes.Shaped) :
    Indexed cfg { c with nodes := (PathTree.descend RadixNode.cut fuel c.nodes p key).1 } :=
  h.setNodes (descend_preserves (fun _ hT _ he _ _ _ hh => hh.split hT he) hT h.hashed).2
    rfl fun _ => stored_descend hT

theorem holds_blockHash (hT : c.nodes.Shaped) (hp : c.nodes.Holds p) {b : β}
    (hb : blockHash cfg p = some b) : b ∈ KVEvent.replay c.kvEventQueue := by
  rw [h.replay]
  refine ⟨p, hp.stored hT ?_, hb⟩
  rintro rfl
  simp [blockHash, tokensOf, chainHash] at hb

/-- With its store event, a new node is known to the index. -/
theorem Indexed.attach {s : Page} {rest : List Page} {d : RadixNode η} (hT : c.nodes.Shaped)
    (hp : c.nodes.Holds p) (hfree : c.nodes.child? p s = none)
    (hen : cfg.enableKvCacheEvents = true) (hn : c'.nodes = c.nodes.attach p (s :: rest) d)
    (hd : d.hashValue = none) (hq : c'.kvEventQueue = c.kvEventQueue) :
    Indexed cfg (c'.recordStoreEvent cfg (p ++ s :: rest)) := by
  have hT' : c'.nodes.Shaped := by
    rw [hn]
    exact hT.attach hp hfree
  set new : PathNode Page (RadixNode η) := ⟨p ++ s :: rest, p.length, d⟩ with hnew
  have hmem : new ∈ c'.nodes := by
    rw [hn]
    exact mem_cons_self
  have hnode : c'.nodes.node? (p ++ s :: rest) = some new := hT'.node?_eq hmem
  have hpar : new.parent = p := by simp [hnew, PathNode.parent]
  have hkey : new.key = s :: rest := by simp [hnew, PathNode.key]
  have hlast : c'.lastHash p = chainHash cfg.getHashStr none (tokensOf p) := by
    rw [← h.hashed.lastHash_eq hT hp, lastHash, lastHash, hn]
    congr 1
    simp [PathTree.node?, PathTree.attach]
  have hhashes : c'.nodeHashValues cfg new = hashChain cfg.getHashStr
      (chainHash cfg.getHashStr none (tokensOf p)) (tokensOf (s :: rest)) := by
    rw [nodeHashValues, hpar, hkey, hlast, hnew, hd]
    rfl
  have hpknown : ∀ b, (c'.lastHash new.parent).map cfg.hashStrToInt64 = some b →
      b ∈ KVEvent.replay c.kvEventQueue := fun b hb => by
    rw [hpar, hlast] at hb
    exact holds_blockHash h hT hp hb
  obtain ⟨hstore, hparents⟩ := storeEvents_spec cfg.hashStrToInt64
    (show (c'.nodeHashValues cfg new).length = (tokensOf new.key).length by
      rw [hhashes, hkey, length_hashChain]) hpknown
  have hrec : c'.recordStoreEvent cfg (p ++ s :: rest) = { c' with
      nodes := c'.nodes.edit (p ++ s :: rest) fun d =>
        { d with hashValue := some (c'.nodeHashValues cfg new) }
      kvEventQueue := c'.kvEventQueue ++ storeEvents cfg.hashStrToInt64
        ((c'.lastHash new.parent).map cfg.hashStrToInt64) (tokensOf new.key)
        (c'.nodeHashValues cfg new) } := by
    unfold recordStoreEvent
    rw [hen, hnode]
    rfl
  rw [hrec]
  refine ⟨?_, fun b => ?_, ?_⟩
  · intro x hx
    have hx' : x ∈ c'.nodes.edit new.path fun d =>
      { d with hashValue := some (c'.nodeHashValues cfg new) } := hx
    rcases (mem_edit hT' hmem).mp hx' with rfl | ⟨hx, hxn⟩
    · change some (c'.nodeHashValues cfg new) = some (hashChain cfg.getHashStr
        (chainHash cfg.getHashStr none (tokensOf new.parent)) (tokensOf new.key))
      rw [hhashes, hpar, hkey]
    · rw [hn] at hx
      rcases mem_cons.mp hx with hx | hx
      · exact (hxn hx).elim
      · exact h.hashed x hx
  · rw [hq, KVEvent.replay_append, hstore, h.replay, hhashes]
    have hpages := mem_nodeHashes cfg (b := b) hT' hmem
    rw [hpar, hkey] at hpages
    rw [hpages]
    simp only [PathTree.edit, stored_mapData, hn, stored_attach]
    constructor
    · rintro (⟨q, hs, hb⟩ | ⟨q, hc, hb⟩)
      · exact ⟨q, .inr hs, hb⟩
      · exact ⟨q, .inl hc, hb⟩
    · rintro ⟨q, hc | hs, hb⟩
      · exact .inr ⟨q, hc, hb⟩
      · exact .inl ⟨q, hs, hb⟩
  · rw [hq, KVEvent.parentsKnown_append]
    exact ⟨h.parents, hparents⟩

theorem Indexed.insertPages (hT : c.nodes.Shaped) (hen : cfg.enableKvCacheEvents = true) :
    Indexed cfg (c.insertPages cfg key value).2 := by
  have hw : Indexed cfg { c with nodes := c.walked key } := h.descend hT
  rcases insertPages_eq cfg hT key value with ⟨-, heq⟩ | ⟨s, rest, hkey, heq⟩
  · rw [heq]
    exact hw
  · rw [heq]
    generalize hc' : ((({ c with nodes := _, evictableSize := _ } : RadixCache η β).updateLeafStatus
      (c.reached key)).updateLeafStatus key) = c'
    have hn : c'.nodes = (c.walked key).attach (c.reached key) (s :: rest)
      ⟨value.drop (c.reached key).length, 0, none⟩ := by simp [← hc']
    have hatt : Indexed cfg (c'.recordStoreEvent cfg (c.reached key ++ s :: rest)) :=
      hw.attach (shaped_walked hT key) (holds_reached hT key) (child?_reached hT hkey) hen hn rfl
        (by simp [← hc'])
    rw [← hkey] at hatt
    exact hatt

end

/-- No chain of tokens is stored in two namespaces. -/
def DistinctChains (T : PathTree Page (RadixNode η)) : Prop :=
  ∀ q q', T.Stored q → T.Stored q' → tokensOf q = tokensOf q' → q = q'

theorem Indexed.evicted {xs : List (PathNode Page (RadixNode η))} (hev : Evicted cfg c xs c')
    (hen : cfg.enableKvCacheEvents = true)
    (hinj : Function.Injective fun pages => (chainHash cfg.getHashStr none pages).map
      cfg.hashStrToInt64) (hacc : Accounts c) (hd : DistinctChains c.nodes) (h : Indexed cfg c) :
    Indexed cfg c' := by
  induction hev with
  | done => exact h
  | @next c c' x xs hx hl hc _ ih =>
    have hT := hacc.shaped
    have hstored : ∀ q, (c.nodes.remove x.path).Stored q ↔ c.nodes.Stored q ∧ ¬ x.Covers q :=
      fun q => stored_remove hT hx
    refine ih (hacc.deleteLeaf hx hl hc).recordRemoveEvent ?_ ?_
    · simp only [nodes_recordRemoveEvent, nodes_deleteLeaf]
      intro q q' hq hq'
      exact hd q q' ((hstored q).mp hq).1 ((hstored q').mp hq').1
    · have hhashes : (c.deleteLeaf x).nodeHashValues cfg x = hashChain cfg.getHashStr
          (chainHash cfg.getHashStr none (tokensOf x.parent)) (tokensOf x.key) := by
        rw [nodeHashValues, h.hashed x hx]
        rfl
      have hqueue : ((c.deleteLeaf x).recordRemoveEvent cfg x).kvEventQueue = c.kvEventQueue ++
          (((c.deleteLeaf x).nodeHashValues cfg x).map cfg.hashStrToInt64).map
            KVEvent.blockRemoved := by
        simp [recordRemoveEvent, hen, deleteLeaf, Function.comp_def]
      refine ⟨?_, fun b => ?_, ?_⟩
      · simp only [nodes_recordRemoveEvent, nodes_deleteLeaf]
        exact fun e he => h.hashed e (mem_remove.mp he).1
      · rw [hqueue, KVEvent.replay_append, KVEvent.mem_foldl_removed, h.replay, hhashes,
          mem_nodeHashes cfg hT hx]
        simp only [nodes_recordRemoveEvent, nodes_deleteLeaf, hstored]
        constructor
        · rintro ⟨⟨q, hq, hb⟩, hnot⟩
          exact ⟨q, ⟨hq, fun hcov => hnot ⟨q, hcov, hb⟩⟩, hb⟩
        · rintro ⟨q, ⟨hq, hcov⟩, hb⟩
          refine ⟨⟨q, hq, hb⟩, ?_⟩
          rintro ⟨q', hcov', hb'⟩
          have htok : tokensOf q = tokensOf q' := hinj (hb.trans hb'.symm)
          exact hcov (hd q q' hq ⟨x, hx, hcov'⟩ htok ▸ hcov')
      · rw [hqueue, KVEvent.parentsKnown_append]
        exact ⟨h.parents, KVEvent.parentsKnown_removed⟩

omit [DecidableEq β] in
theorem kvEventQueue_foldl {f : RadixCache η β → PathNode Page (RadixNode η) → RadixCache η β}
    (hf : ∀ c e, (f c e).kvEventQueue = c.kvEventQueue)
    (es : List (PathNode Page (RadixNode η))) :
    (es.foldl f c).kvEventQueue = c.kvEventQueue := by
  induction es generalizing c with
  | nil => rfl
  | cons e es ih => rw [foldl_cons, ih, hf]

omit [DecidableEq β] in
theorem kvEventQueue_lockNode : (c.lockNode e).kvEventQueue = c.kvEventQueue := by
  rw [lockNode, kvEventQueue_updateLeafStatus]
  split <;> rfl

omit [DecidableEq β] in
theorem kvEventQueue_unlockNode : (c.unlockNode e).kvEventQueue = c.kvEventQueue := by
  rw [unlockNode, kvEventQueue_updateLeafStatus]
  split <;> rfl

end RadixCache

namespace RadixState

open RadixCache

variable {η β : Type*} [DecidableEq β] {cfg : RadixConfig η β} {s t : RadixState η β}

/-- When an eviction starts, no chain of tokens is stored in two namespaces. -/
def EvictsDistinct (s : RadixState η β) : RadixOp → Prop
  | .evict _ _ => DistinctChains s.cache.nodes
  | _ => True

abbrev DistinctRun (cfg : RadixConfig η β) : RadixState η β → Prop :=
  Reachable (step cfg) (· = create cfg) fun s op => s.Allowed op ∧ s.EvictsDistinct op

structure IndexedState (cfg : RadixConfig η β) (s : RadixState η β) : Prop where
  sound : Sound s
  indexed : Indexed cfg s.cache

theorem indexed_reset (c : RadixCache η β) (hen : cfg.enableKvCacheEvents = true)
    (hpar : KVEvent.ParentsKnown [] c.kvEventQueue) : Indexed cfg (c.reset cfg) := by
  refine ⟨by simp [Hashed, reset], fun b => ?_, ?_⟩
  · simp [reset, hen, KVEvent.replay_append, KVEvent.apply, PathTree.Stored]
  · simp only [reset, hen, if_true, KVEvent.parentsKnown_append, hpar, true_and]
    refine ⟨?_, trivial⟩
    intro _ _ _ heq
    cases heq

/-- Whoever replays the events knows the cache after every call. -/
theorem IndexedState.step {op : RadixOp} (hen : cfg.enableKvCacheEvents = true)
    (hinj : Function.Injective fun pages => (chainHash cfg.getHashStr none pages).map
      cfg.hashStrToInt64) (h : IndexedState cfg s) (hop : s.Allowed op)
    (hdist : s.EvictsDistinct op) (hstep : s.step cfg op = .ok t) : IndexedState cfg t := by
  have hs := h.sound
  have hT := hs.accounts.shaped
  refine ⟨hs.step hop hstep, ?_⟩
  cases op with
  | insert key value =>
    cases hstep
    exact h.indexed.insertPages hT hen
  | matchPrefix key =>
    cases hstep
    exact h.indexed.descend hT
  | evict pick numTokens =>
    cases hstep
    exact Indexed.evicted (hs.evict cfg pick numTokens).1 hen hinj hs.accounts hdist h.indexed
  | incLockRef node =>
    cases hstep
    have hn := nodes_incLockRef hT hop
    refine h.indexed.setNodes ?_ (kvEventQueue_foldl (fun _ _ => kvEventQueue_lockNode) _)
      fun q => ?_
    · rw [hn]
      exact h.indexed.hashed.mapData fun e => by split <;> rfl
    · rw [hn, stored_mapData]
  | decLockRef node =>
    cases hstep
    have hn := nodes_decLockRef hT (hs.locked.holds node hop)
    refine h.indexed.setNodes ?_ (kvEventQueue_foldl (fun _ _ => kvEventQueue_unlockNode) _)
      fun q => ?_
    · rw [hn]
      exact h.indexed.hashed.mapData fun e => by split <;> rfl
    · rw [hn, stored_mapData]
  | reset =>
    cases hstep
    exact indexed_reset _ hen h.indexed.parents

/-- In every run whose evictions find no chain of tokens stored twice, the events replay to the
blocks in the tree, and every stored block names a parent that is known by then. -/
theorem kv_events_replay (hen : cfg.enableKvCacheEvents = true)
    (hinj : Function.Injective fun pages => (chainHash cfg.getHashStr none pages).map
      cfg.hashStrToInt64) (h : DistinctRun cfg s) :
    (∀ b, b ∈ KVEvent.replay s.cache.kvEventQueue ↔
      ∃ q, s.cache.nodes.Stored q ∧ blockHash cfg q = some b) ∧
    KVEvent.ParentsKnown [] s.cache.kvEventQueue := by
  have hinv : IndexedState cfg s := by
    refine h.invariant ?_ fun s op t hs hop hstep => hs.step hen hinj hop.1 hop.2 hstep
    rintro s rfl
    exact ⟨sound_reset _, indexed_reset _ hen trivial⟩
  exact ⟨hinv.indexed.replay, hinv.indexed.parents⟩

theorem chainHash_chainConfig (pageSize : ℕ) (prior pages : List (List Token)) :
    chainHash (chainConfig pageSize).getHashStr (some prior) pages = some (prior ++ pages) := by
  induction pages generalizing prior with
  | nil => simp [chainHash]
  | cons page pages ih =>
    have := ih (prior ++ [page])
    simp only [chainHash, chainConfig, foldl_cons, Option.getD_some] at this ⊢
    rw [this]
    simp

theorem chainConfig_injective (pageSize : ℕ) : Function.Injective fun pages =>
    (chainHash (chainConfig pageSize).getHashStr none pages).map
      (chainConfig pageSize).hashStrToInt64 := by
  have hcons : ∀ page pages, chainHash (chainConfig pageSize).getHashStr none (page :: pages) =
      some (page :: pages) := fun page pages =>
    (chainHash_chainConfig pageSize [page] pages)
  have hnil : chainHash (chainConfig pageSize).getHashStr none [] = none := rfl
  intro a b hab
  cases a with
  | nil =>
    cases b with
    | nil => rfl
    | cons page b =>
      simp only [hcons, hnil, Option.map_none, Option.map_some, reduceCtorEq] at hab
  | cons page a =>
    cases b with
    | nil => simp only [hcons, hnil, Option.map_none, Option.map_some, reduceCtorEq] at hab
    | cons page' b =>
      simp only [hcons, Option.map_some, Option.some.injEq] at hab
      exact hab

theorem distinctChains_of_namespace {T : PathTree Page (RadixNode η)} (ns : Option String)
    (h : ∀ e ∈ T, ∀ page ∈ e.path, page.1 = ns) : DistinctChains T := by
  have hpages : ∀ q, T.Stored q → q = (tokensOf q).map fun tokens => (ns, tokens) := by
    rintro q ⟨e, he, hcovers⟩
    rw [tokensOf, map_map]
    refine (map_id' q).symm.trans (map_congr_left fun page hp => ?_)
    exact Prod.ext (h e he page (hcovers.2.subset hp)) rfl
  intro q q' hq hq' htokens
  rw [hpages q hq, hpages q' hq', htokens]

/-- Two keys share a page; the one that is not in use has lost its other page to an eviction. -/
def evictedShared : RadixState (List (List Token)) (List (List Token)) :=
  { sharedPageState with cache := (sharedPageState.cache.evict (chainConfig 2) (fun _ => 0) 2).2 }

theorem kv_events_replay_evictedShared :
    [[1, 2], [5, 6]] ∉ KVEvent.replay evictedShared.cache.kvEventQueue ∧
    (∀ b, b ∈ KVEvent.replay evictedShared.cache.kvEventQueue ↔
      ∃ q, evictedShared.cache.nodes.Stored q ∧ blockHash (chainConfig 2) q = some b) ∧
    KVEvent.ParentsKnown [] evictedShared.cache.kvEventQueue := by
  refine ⟨by decide +kernel, kv_events_replay rfl (chainConfig_injective 2) ?_⟩
  have hdistinct : DistinctChains sharedPageState.cache.nodes :=
    distinctChains_of_namespace none (by decide +kernel)
  refine .next (e := .evict (fun _ => 0) 2) (.next
    (e := .incLockRef [(none, [1, 2]), (none, [3, 4])]) (.next
    (e := .insert ⟨[1, 2, 5, 6], none⟩ [10, 11, 14, 15]) (.next
    (e := .insert ⟨[1, 2, 3, 4], none⟩ [10, 11, 12, 13]) (.init rfl) ⟨rfl, trivial⟩ rfl)
    ⟨rfl, trivial⟩ rfl) ⟨?_, trivial⟩ rfl) ⟨trivial, hdistinct⟩ rfl
  exact .inr (by decide +kernel)

def evictedNamespace : RadixState (List (List Token)) (List (List Token)) :=
  let c := (create (chainConfig 1)).cache
  let c := (c.insert (chainConfig 1) ⟨[7], none⟩ [1]).2
  let c := (c.insert (chainConfig 1) ⟨[7], some "lora"⟩ [2]).2
  ⟨(c.evict (chainConfig 1) (fun _ => 0) 1).2, []⟩

/-- The index has forgotten a page that the tree still holds. -/
theorem kv_events_forget_namespace : (chainConfig 1).enableKvCacheEvents = true ∧
    (Function.Injective fun pages => (chainHash (chainConfig 1).getHashStr none pages).map
      (chainConfig 1).hashStrToInt64) ∧
    ¬ ∀ s : RadixState (List (List Token)) (List (List Token)), Run (chainConfig 1) s →
      ∀ b, b ∈ KVEvent.replay s.cache.kvEventQueue ↔
        ∃ q, s.cache.nodes.Stored q ∧ blockHash (chainConfig 1) q = some b := by
  refine ⟨rfl, chainConfig_injective 1, fun hall => ?_⟩
  have hrun : Run (chainConfig 1) evictedNamespace :=
    .next (e := .evict (fun _ => 0) 1) (.next (e := .insert ⟨[7], some "lora"⟩ [2]) (.next
      (e := .insert ⟨[7], none⟩ [1]) (.init rfl) rfl rfl) rfl rfl) trivial rfl
  have hmem := (hall _ hrun [[7]]).mpr
  have hstored : ∃ q, evictedNamespace.cache.nodes.Stored q ∧
      blockHash (chainConfig 1) q = some [[7]] :=
    ⟨[(none, [7])], by decide +kernel, by decide +kernel⟩
  have hnot : [[7]] ∉ KVEvent.replay evictedNamespace.cache.kvEventQueue := by decide +kernel
  exact hnot (hmem hstored)

end RadixState

end LLM42
