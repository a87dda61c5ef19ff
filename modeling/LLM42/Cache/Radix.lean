import LLM42.Library.PathWalk
import LLM42.Library.Runs
import LLM42.Request.Basic

/-! # Paged radix cache

`RadixCache` of `mem_cache/radix_cache.py` for any page size, with its leaf set, size counters and
KV event queue. Keys are read page by page, as `get_child_key` and `_key_match_paged` do: the tree
branches on whole pages and a prefix ends between two pages. -/

namespace LLM42

open Library (PathNode PathTree)

/-- `[l[start : start + page_size] for start in range(0, len(l), page_size)]`. -/
def toPages {α : Type*} (pageSize : ℕ) (l : List α) : List (List α) :=
  (List.range ((l.length + pageSize - 1) / pageSize)).map fun i =>
    (l.drop (i * pageSize)).take pageSize

/-- One page of a key; `get_child_key` tags it with the namespace. -/
abbrev Page := Option String × List Token

structure RadixKey where
  tokenIds : List Token
  extraKey : Option String
deriving DecidableEq

namespace RadixKey

def pages (pageSize : ℕ) (k : RadixKey) : List Page :=
  (toPages pageSize k.tokenIds).map (k.extraKey, ·)

def pageAligned (pageSize : ℕ) (k : RadixKey) : RadixKey :=
  { k with tokenIds := k.tokenIds.take (k.tokenIds.length / pageSize * pageSize) }

end RadixKey

def tokenLen (key : List Page) : ℕ := (key.map (·.2.length)).sum

/-- What a `TreeNode` holds besides its key and its place in the tree: the slots of each page, the
lock count and, once computed, the hash of each page. -/
structure RadixNode (η : Type*) where
  value : List (List ℕ)
  lockRef : ℕ
  hashValue : Option (List η)
deriving DecidableEq

/-- How `_split_node` divides a node; hashes are cut by `split_node_hash_value`. -/
def RadixNode.cut {η : Type*} (n : ℕ) (d : RadixNode η) : RadixNode η × RadixNode η :=
  (⟨d.value.take n, d.lockRef, d.hashValue.map (·.take n)⟩,
    ⟨d.value.drop n, d.lockRef, d.hashValue.map (·.drop n)⟩)

/-- Events sent to an external index of the cache. -/
inductive KVEvent (β : Type*) where
  | blockStored (blockHash : β) (parentBlockHash : Option β) (tokenIds : List Token)
  | blockRemoved (blockHash : β)
  | allBlocksCleared
deriving DecidableEq

/-- What a cache is created with; the hash functions of `hicache_storage.py` among it. -/
structure RadixConfig (η β : Type*) where
  pageSize : ℕ
  enableKvCacheEvents : Bool
  getHashStr : List Token → Option η → η
  hashStrToInt64 : η → β

structure RadixCache (η β : Type*) where
  nodes : PathTree Page (RadixNode η) := []
  evictableSize : ℤ := 0
  protectedSize : ℤ := 0
  evictableLeaves : List (List Page) := []
  kvEventQueue : List (KVEvent β) := []

def hashChain {η : Type*} (getHashStr : List Token → Option η → η) :
    Option η → List (List Token) → List η
  | _, [] => []
  | prior, page :: pages =>
    getHashStr page prior :: hashChain getHashStr (some (getHashStr page prior)) pages

namespace RadixCache

variable {η β : Type*} (cfg : RadixConfig η β) (c : RadixCache η β)

/-- `_update_leaf_status`; the root is locked for good and never a leaf. -/
def updateLeafStatus (p : List Page) : RadixCache η β :=
  match c.nodes.node? p with
  | none => c
  | some e =>
    if e.data.lockRef = 0 ∧ c.nodes.Childless p then
      { c with evictableLeaves := c.evictableLeaves.insert p }
    else { c with evictableLeaves := c.evictableLeaves.erase p }

/-- Last page hash of the node at `p`, if it has been computed; `None` at the root. -/
def lastHash (p : List Page) : Option η :=
  (c.nodes.node? p).bind fun e => e.data.hashValue.bind List.getLast?

/-- `compute_node_hash_values`, unless the node already has them. -/
def nodeHashValues (e : PathNode Page (RadixNode η)) : List η :=
  e.data.hashValue.getD (hashChain cfg.getHashStr (c.lastHash e.parent) (e.key.map (·.2)))

def storeEvents (hashStrToInt64 : η → β) : Option β → List (List Token) → List η → List (KVEvent β)
  | parent, page :: pages, h :: hs =>
    .blockStored (hashStrToInt64 h) parent page ::
      storeEvents hashStrToInt64 (some (hashStrToInt64 h)) pages hs
  | _, _, _ => []

def recordStoreEvent (p : List Page) : RadixCache η β :=
  match cfg.enableKvCacheEvents, c.nodes.node? p with
  | true, some e =>
    let hashes := c.nodeHashValues cfg e
    { c with
      nodes := c.nodes.edit p fun d => { d with hashValue := some hashes }
      kvEventQueue := c.kvEventQueue ++ storeEvents cfg.hashStrToInt64
        ((c.lastHash e.parent).map cfg.hashStrToInt64) (e.key.map (·.2)) hashes }
  | _, _ => c

/-- `_record_remove_event` for a node that has just left the tree. -/
def recordRemoveEvent (e : PathNode Page (RadixNode η)) : RadixCache η β :=
  if cfg.enableKvCacheEvents then
    { c with kvEventQueue := c.kvEventQueue ++
        (c.nodeHashValues cfg e).map fun h => .blockRemoved (cfg.hashStrToInt64 h) }
  else c

def reset : RadixCache η β :=
  { nodes := []
    evictableSize := 0
    protectedSize := 0
    evictableLeaves := []
    kvEventQueue := c.kvEventQueue ++ if cfg.enableKvCacheEvents then [.allBlocksCleared] else [] }

/-- `_match_prefix_helper`: the slots of the pages found, the node where they end, and the tree,
cut there. A walk that has cut an edge finds no child for the next page, so it stops. -/
def matchPages (key : List Page) : List (List ℕ) × List Page × RadixCache η β :=
  let (nodes, lastNode, visited) := PathTree.descend RadixNode.cut key.length c.nodes [] key
  (visited.flatMap (·.data.value), lastNode, { c with nodes })

def matchPrefix (pageSize : ℕ) (key : RadixKey) : List ℕ × List Page × RadixCache η β :=
  let (value, lastNode, c) := c.matchPages ((key.pageAligned pageSize).pages pageSize)
  (value.flatten, lastNode, c)

/-- `_insert_helper`, in pages: how many were stored already, and the tree. -/
def insertPages (key : List Page) (value : List (List ℕ)) : ℕ × RadixCache η β :=
  let (nodes, p, _) := PathTree.descend RadixNode.cut key.length c.nodes [] key
  let c := { c with nodes }
  if key.drop p.length = [] then (p.length, c)
  else
    let c := { c with
      nodes := c.nodes.attach p (key.drop p.length) ⟨value.drop p.length, 0, none⟩
      evictableSize := c.evictableSize + tokenLen (key.drop p.length) }
    (p.length, ((c.updateLeafStatus p).updateLeafStatus key).recordStoreEvent cfg key)

def insert (key : RadixKey) (value : List ℕ) : ℕ × RadixCache η β :=
  let (n, c) := c.insertPages cfg (key.pages cfg.pageSize) (toPages cfg.pageSize value)
  (n * cfg.pageSize, c)

def lockNode (c : RadixCache η β) (e : PathNode Page (RadixNode η)) : RadixCache η β :=
  let c := if e.data.lockRef = 0 then
      { c with
        evictableSize := c.evictableSize - tokenLen e.key
        protectedSize := c.protectedSize + tokenLen e.key }
    else c
  { c with nodes := c.nodes.edit e.path fun d => { d with lockRef := d.lockRef + 1 } }
    |>.updateLeafStatus e.path

def unlockNode (c : RadixCache η β) (e : PathNode Page (RadixNode η)) : RadixCache η β :=
  let c := if e.data.lockRef = 1 then
      { c with
        evictableSize := c.evictableSize + tokenLen e.key
        protectedSize := c.protectedSize - tokenLen e.key }
    else c
  { c with nodes := c.nodes.edit e.path fun d => { d with lockRef := d.lockRef - 1 } }
    |>.updateLeafStatus e.path

def incLockRef (node : List Page) : RadixCache η β := (c.nodes.ancestors node).foldl lockNode c

def decLockRef (node : List Page) : RadixCache η β := (c.nodes.ancestors node).foldl unlockNode c

def deleteLeaf (e : PathNode Page (RadixNode η)) : RadixCache η β :=
  { c with
    nodes := c.nodes.remove e.path
    evictableSize := c.evictableSize - tokenLen e.key
    evictableLeaves := c.evictableLeaves.erase e.path }
    |>.updateLeafStatus e.parent

def becameLeaf (p : List Page) : Bool :=
  match c.nodes.node? p with
  | none => false
  | some e => decide (c.nodes.Childless p) && decide (e.data.lockRef = 0)

/-- The loop of `evict`. The heap is the list of its nodes and `pick` says which one is popped, so
any priority function is some `pick`; the nodes freed are returned in order. -/
def evictLoop (pick : List (List Page) → ℕ) (numTokens : ℕ) :
    ℕ → RadixCache η β → ℕ → List (List Page) → List (PathNode Page (RadixNode η)) × RadixCache η β
  | 0, c, _, _ => ([], c)
  | fuel + 1, c, numEvicted, heap =>
    if numEvicted < numTokens then
      match heap[pick heap % heap.length]?.bind c.nodes.node? with
      | none => ([], c)
      | some x =>
        let c := c.deleteLeaf x
        let heap := heap.erase x.path
        let heap := if c.becameLeaf x.parent then x.parent :: heap else heap
        let (freed, c) := evictLoop pick numTokens fuel (c.recordRemoveEvent cfg x)
          (numEvicted + x.data.value.flatten.length) heap
        (x :: freed, c)
    else ([], c)

/-- `evict`; every turn takes a node out, so there are at most as many turns as nodes. -/
def evict (pick : List (List Page) → ℕ) (numTokens : ℕ) :
    List (PathNode Page (RadixNode η)) × RadixCache η β :=
  evictLoop cfg pick numTokens c.nodes.length c 0 c.evictableLeaves

end RadixCache

end LLM42
