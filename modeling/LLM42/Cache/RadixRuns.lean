import LLM42.Cache.RadixEvict

/-! # Runs of the radix cache

Any sequence of insertions, lookups, evictions, locks and resets. A lock is taken on a node that
the tree holds and given back once. -/

namespace LLM42

open List
open Library (PathNode PathTree Reachable)

variable {η β : Type*} {cfg : RadixConfig η β}

structure RadixState (η β : Type*) where
  cache : RadixCache η β
  holders : List (List Page)

inductive RadixOp where
  | insert (key : RadixKey) (value : List ℕ)
  | matchPrefix (key : RadixKey)
  | evict (pick : List (List Page) → ℕ) (numTokens : ℕ)
  | incLockRef (node : List Page)
  | decLockRef (node : List Page)
  | reset

namespace RadixState

variable {η β : Type*} (cfg : RadixConfig η β)

def create : RadixState η β := ⟨RadixCache.reset cfg {}, []⟩

def step (s : RadixState η β) : RadixOp → Except Empty (RadixState η β)
  | .insert key value => .ok { s with cache := (s.cache.insert cfg key value).2 }
  | .matchPrefix key => .ok { s with cache := (s.cache.matchPrefix cfg.pageSize key).2.2 }
  | .evict pick numTokens => .ok { s with cache := (s.cache.evict cfg pick numTokens).2 }
  | .incLockRef node => .ok ⟨s.cache.incLockRef node, node :: s.holders⟩
  | .decLockRef node => .ok ⟨s.cache.decLockRef node, s.holders.erase node⟩
  | .reset => .ok ⟨s.cache.reset cfg, []⟩

/-- What callers respect: a value for each token, locks on nodes of the tree, locks given back by
those who hold them. -/
def Allowed (s : RadixState η β) : RadixOp → Prop
  | .insert key value => value.length = key.tokenIds.length
  | .incLockRef node => s.cache.nodes.Holds node
  | .decLockRef node => node ∈ s.holders
  | _ => True

abbrev Run : RadixState η β → Prop := Reachable (step cfg) (· = create cfg) Allowed

end RadixState

theorem length_toPages {α : Type*} (pageSize : ℕ) (l : List α) :
    (toPages pageSize l).length = (l.length + pageSize - 1) / pageSize := by
  simp [toPages]

namespace RadixCache

variable {c : RadixCache η β}
  {e : PathNode Page (RadixNode η)} {p key : List Page} {value : List (List ℕ)}
  {T : PathTree Page (RadixNode η)} {P : PathTree Page (RadixNode η) → Prop}
  {xs : List (PathNode Page (RadixNode η))} {c' : RadixCache η β}

/-- What cuts, fresh leaves and new hashes keep, an insertion keeps. -/
theorem insertPages_preserves (hT : c.nodes.Shaped)
    (hsplit : ∀ T : PathTree Page (RadixNode η), T.Shaped → ∀ e ∈ T, ∀ n, 0 < n →
      n < e.key.length → P T → P (T.split RadixNode.cut e n))
    (hattach : ∀ (T : PathTree Page (RadixNode η)) (p : List Page) (s : Page) (rest : List Page),
      T.Shaped → T.Holds p → T.child? p s = none → key = p ++ s :: rest → P T →
      P (T.attach p (s :: rest) ⟨value.drop p.length, 0, none⟩))
    (hhash : ∀ (T : PathTree Page (RadixNode η)) (p : List Page) (hs : Option (List η)), P T →
      P (T.edit p fun d => { d with hashValue := hs })) (h0 : P c.nodes) :
    P (c.insertPages cfg key value).2.nodes := by
  have hw : P (c.walked key) := (PathTree.descend_preserves hsplit hT h0).2
  rcases insertPages_eq cfg hT key value with ⟨-, heq⟩ | ⟨s, rest, hkey, heq⟩
  · rw [heq]
    exact hw
  · have ha := hattach _ _ s rest (shaped_walked hT key) (holds_reached hT key)
      (child?_reached hT hkey) hkey hw
    rw [heq]
    unfold recordStoreEvent
    split
    · simp only [nodes_updateLeafStatus]
      exact hhash _ _ _ ha
    · simpa using ha

theorem Filled.split (hf : Filled T) (hT : T.Shaped) (he : e ∈ T) {n : ℕ} :
    Filled (T.split RadixNode.cut e n) := by
  intro x hx
  rcases (PathTree.mem_split hT he).mp hx with rfl | rfl | ⟨hx, -⟩
  · rw [PathTree.key_upper, map_take, ← hf e he, ← map_take]
    rfl
  · rw [PathTree.key_lower, map_drop, ← hf e he, ← map_drop]
    rfl
  · exact hf x hx

theorem Filled.mapData (hf : Filled T) {g : PathNode Page (RadixNode η) → RadixNode η}
    (hg : ∀ e, (g e).value = e.data.value) : Filled (T.mapData g) := by
  intro x hx
  obtain ⟨e, he, rfl⟩ := PathTree.mem_mapData.mp hx
  rw [hg]
  exact hf e he

theorem Filled.attach (hf : Filled T) {d : RadixNode η}
    (hd : d.value.map length = key.map (·.2.length)) : Filled (T.attach p key d) := by
  rintro x (_ | ⟨_, hx⟩)
  · simpa [PathNode.key] using hd
  · exact hf x hx

theorem Filled.insertPages (hf : Filled c.nodes) (hT : c.nodes.Shaped)
    (hlen : value.map length = key.map (·.2.length)) :
    Filled (c.insertPages cfg key value).2.nodes := by
  refine insertPages_preserves hT (fun _ hT _ he _ _ _ hf => hf.split hT he) ?_ ?_ hf
  · intro T p s rest _ _ _ hkey hf
    refine hf.attach ?_
    rw [map_drop, hlen, ← map_drop, hkey, drop_left]
  · intro T p hs hf
    exact hf.mapData fun e => by split <;> rfl

theorem Locked.insertPages {holders : List (List Page)} (hL : Locked c.nodes holders)
    (hT : c.nodes.Shaped) : Locked (c.insertPages cfg key value).2.nodes holders := by
  refine insertPages_preserves (P := fun T => Locked T holders) hT
    (fun _ hT _ he _ hpos hlt hL => hL.split hT he hpos hlt) ?_ ?_ hL
  · exact fun T p s rest hT hp hfree _ hL => hL.attach hT hp hfree rfl
  · exact fun T p hs hL => hL.edit fun _ => rfl

theorem Evicted.preserves (hev : Evicted cfg c xs c') (h : Accounts c)
    (hP : ∀ (T : PathTree Page (RadixNode η)) (x : PathNode Page (RadixNode η)), T.Shaped → x ∈ T →
      x.data.lockRef = 0 → T.Childless x.path → P T → P (T.remove x.path)) (h0 : P c.nodes) :
    Accounts c' ∧ P c'.nodes := by
  induction hev with
  | done => exact ⟨h, h0⟩
  | next hx hl hc _ ih =>
    refine ih (h.deleteLeaf hx hl hc).recordRemoveEvent ?_
    simpa using hP _ _ h.shaped hx hl hc h0

/-- The nodes taken out are different unlocked nodes of the tree; the rest stays. -/
theorem Evicted.nodes_eq (hev : Evicted cfg c xs c') :
    (∀ x ∈ xs, x ∈ c.nodes ∧ x.data.lockRef = 0) ∧ (xs.map (·.path)).Nodup ∧
      c'.nodes = c.nodes.filter fun e => e.path ∉ xs.map (·.path) := by
  induction hev with
  | done => simp
  | next hx hl hc _ ih =>
    obtain ⟨hmem, hnd, heq⟩ := ih
    simp only [nodes_recordRemoveEvent, nodes_deleteLeaf] at hmem heq
    refine ⟨?_, ?_, ?_⟩
    · rintro y (_ | ⟨_, hy⟩)
      · exact ⟨hx, hl⟩
      · exact ⟨(PathTree.mem_remove.mp (hmem y hy).1).1, (hmem y hy).2⟩
    · rw [map_cons, nodup_cons]
      refine ⟨fun hm => ?_, hnd⟩
      obtain ⟨y, hy, hyx⟩ := mem_map.mp hm
      exact (PathTree.mem_remove.mp (hmem y hy).1).2 hyx
    · rw [heq, PathTree.remove, filter_filter]
      refine filter_congr fun e _ => ?_
      simp only [map_cons, mem_cons, not_or, Bool.decide_and]
      rw [Bool.and_comm]

end RadixCache

namespace RadixState

open RadixCache

variable {s t : RadixState η β}

/-- The accounts, the values and the locks of a cache in use. -/
structure Sound (s : RadixState η β) : Prop where
  accounts : Accounts s.cache
  filled : Filled s.cache.nodes
  locked : Locked s.cache.nodes s.holders

theorem Sound.locksUp (h : Sound s) : LocksUp s.cache.nodes :=
  fun e he f hf hpre => by
    rw [h.locked.count e he, h.locked.count f hf]
    exact countP_mono_left fun _ _ hx => by simpa using hpre.trans (by simpa using hx)

theorem sound_reset (c : RadixCache η β) : Sound (⟨c.reset cfg, []⟩ : RadixState η β) where
  accounts := by constructor <;> simp [reset, PathTree.shaped_nil, IsLeaf]
  filled := by simp [reset, Filled]
  locked := by constructor <;> simp [reset]

theorem Sound.evict (h : Sound s) (cfg : RadixConfig η β) (pick : List (List Page) → ℕ)
    (numTokens : ℕ) :
    Evicted cfg s.cache (s.cache.evict cfg pick numTokens).1 (s.cache.evict cfg pick numTokens).2 ∧
      min (numTokens : ℤ) s.cache.evictableSize ≤
        freedTokens (s.cache.evict cfg pick numTokens).1 := by
  have hspec : Evicted cfg s.cache _ _ ∧ min ((numTokens : ℤ) - (0 : ℕ)) s.cache.evictableSize ≤
      freedTokens (evictLoop cfg pick numTokens s.cache.nodes.length s.cache 0
        s.cache.evictableLeaves).1 :=
    evictLoop_spec h.accounts h.filled h.locksUp (List.Perm.refl _) le_rfl
  simpa [RadixCache.evict] using hspec

/-- Every allowed call keeps the cache sound. -/
theorem Sound.step {op : RadixOp} (h : Sound s) (hop : s.Allowed op)
    (hstep : s.step cfg op = .ok t) : Sound t := by
  have hT := h.accounts.shaped
  cases op with
  | insert key value =>
    cases hstep
    have hlen : (toPages cfg.pageSize value).map length =
        (key.pages cfg.pageSize).map (·.2.length) := by
      have hop : value.length = key.tokenIds.length := hop
      simp [RadixKey.pages, toPages, Function.comp_def, hop]
    exact ⟨h.accounts.insertPages _ _, h.filled.insertPages hT hlen, h.locked.insertPages hT⟩
  | matchPrefix key =>
    cases hstep
    refine ⟨h.accounts.matchPages _, ?_, h.locked.descend hT⟩
    exact (PathTree.descend_preserves (fun _ hT _ he _ _ _ hf => hf.split hT he) hT h.filled).2
  | evict pick numTokens =>
    cases hstep
    have hev := (h.evict cfg pick numTokens).1
    exact ⟨(hev.preserves (P := fun _ => True) h.accounts (fun _ _ _ _ _ _ _ => trivial) trivial).1,
      (hev.preserves h.accounts (fun _ _ _ _ _ _ hf => hf.remove) h.filled).2,
      (hev.preserves (P := fun T => Locked T s.holders) h.accounts
        (fun _ _ _ hx hl _ hL => hL.remove hx hl) h.locked).2⟩
  | incLockRef node =>
    cases hstep
    refine ⟨h.accounts.incLockRef hop, ?_, h.locked.inc rfl hT hop⟩
    rw [nodes_incLockRef hT hop]
    exact h.filled.mapData fun e => by split <;> rfl
  | decLockRef node =>
    cases hstep
    have hholds := h.locked.holds node hop
    refine ⟨h.accounts.decLockRef hholds fun e he hpre => h.locked.pos hop he hpre, ?_,
      h.locked.dec rfl hT hop⟩
    rw [nodes_decLockRef hT hholds]
    exact h.filled.mapData fun e => by split <;> rfl
  | reset =>
    cases hstep
    exact sound_reset _

theorem Run.sound (h : Run cfg s) : Sound s := by
  refine h.invariant ?_ fun s op t hs hop hstep => hs.step hop hstep
  rintro s rfl
  exact sound_reset _

/-- Lock counts, size counters and the leaf set are exact in every run, and eviction frees
different unlocked nodes, none of them above a locked one, until enough is freed or nothing more
can be. -/
theorem radix_accounting_exact (h : Run cfg s) :
    (∀ e ∈ s.cache.nodes, e.data.lockRef = s.holders.countP (e.path <+: ·)) ∧
    (∀ e ∈ s.cache.nodes, ∀ f ∈ s.cache.nodes, f.parent = e.path →
      f.data.lockRef ≤ e.data.lockRef) ∧
    s.cache.evictableSize = (s.cache.nodes.map evictableLen).sum ∧
    s.cache.protectedSize = (s.cache.nodes.map protectedLen).sum ∧
    s.cache.evictableLeaves.Nodup ∧
    (∀ p, p ∈ s.cache.evictableLeaves ↔ IsLeaf s.cache.nodes p) ∧
    ∀ pick numTokens, ((s.cache.evict cfg pick numTokens).1.map (·.path)).Nodup ∧
      (∀ x ∈ (s.cache.evict cfg pick numTokens).1, x ∈ s.cache.nodes ∧
        ∀ e ∈ s.cache.nodes, x.path <+: e.path → e.data.lockRef = 0) ∧
      min (numTokens : ℤ) s.cache.evictableSize ≤
        freedTokens (s.cache.evict cfg pick numTokens).1 := by
  have hs := h.sound
  refine ⟨hs.locked.count, fun e he f hf hfe => ?_, hs.accounts.evictable, hs.accounts.inUse,
    hs.accounts.leaves_nodup, hs.accounts.leaves, fun pick numTokens => ?_⟩
  · refine hs.locksUp e he f hf ?_
    rw [← hfe]
    exact take_prefix _ _
  · obtain ⟨hev, hmin⟩ := hs.evict cfg pick numTokens
    obtain ⟨hmem, hnd, -⟩ := hev.nodes_eq
    refine ⟨hnd, fun x hx => ⟨(hmem x hx).1, fun e he hpre => ?_⟩, hmin⟩
    have hup := hs.locksUp x (hmem x hx).1 e he hpre
    have hl := (hmem x hx).2
    omega

/-- Pages named by the whole chain of tokens that leads to them. -/
def chainConfig (pageSize : ℕ) : RadixConfig (List (List Token)) (List (List Token)) where
  pageSize := pageSize
  enableKvCacheEvents := true
  getHashStr page prior := prior.getD [] ++ [page]
  hashStrToInt64 := id

def sharedPageState : RadixState (List (List Token)) (List (List Token)) :=
  let c := (create (chainConfig 2)).cache
  let c := (c.insert (chainConfig 2) ⟨[1, 2, 3, 4], none⟩ [10, 11, 12, 13]).2
  let c := (c.insert (chainConfig 2) ⟨[1, 2, 5, 6], none⟩ [10, 11, 14, 15]).2
  ⟨c.incLockRef [(none, [1, 2]), (none, [3, 4])], [[(none, [1, 2]), (none, [3, 4])]]⟩

theorem run_sharedPageState : Run (chainConfig 2) sharedPageState := by
  refine .next (e := .incLockRef [(none, [1, 2]), (none, [3, 4])]) (.next
    (e := .insert ⟨[1, 2, 5, 6], none⟩ [10, 11, 14, 15]) (.next
    (e := .insert ⟨[1, 2, 3, 4], none⟩ [10, 11, 12, 13]) (.init rfl) rfl rfl) rfl rfl) ?_ rfl
  exact .inr (by decide +kernel)

/-- The page in use and the page above it stay, the other one goes. -/
theorem radix_accounting_exact_sharedPageState : sharedPageState.cache.evictableSize = 2 ∧
      min ((4 : ℕ) : ℤ) sharedPageState.cache.evictableSize ≤
        freedTokens (sharedPageState.cache.evict (chainConfig 2) (fun _ => 0) 4).1 :=
  ⟨by decide +kernel, ((radix_accounting_exact run_sharedPageState).2.2.2.2.2.2 (fun _ => 0) 4).2.2⟩

end RadixState

end LLM42
