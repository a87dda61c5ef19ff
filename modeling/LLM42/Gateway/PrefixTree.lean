import LLM42.Gateway.Text
import LLM42.Library.PathWalk
import LLM42.Library.Runs
import Mathlib.Data.List.AList

/-! # The multi-tenant prefix tree of the gateway

`Tree` of `policies/tree.rs`. A node is known by its path from the root, which stands for the
pointer to it; the path says where the node hangs, and what the code stores with the node is its
data. Inserting, evicting and removing go step by step, as far as a step is one operation of a
concurrent map or one section under a lock; the calls of the interface run their steps to the end. -/

namespace LLM42.Gateway

open Library

abbrev TenantMap := AList fun _ : String => Nat

structure TreeNode where
  /-- the character under which the parent has the node among its children -/
  slot : Char
  text : NodeText
  /-- `tenant_last_access_time` -/
  tenants : TenantMap
  lastTenant : Option String
  deriving DecidableEq

/-- How a node is divided: the upper half is new and takes the place of the node, the node keeps the
rest of its text and is filed under the first character of it. -/
def TreeNode.cut (n : Nat) (d : TreeNode) : TreeNode × TreeNode :=
  ({ d with text := (d.text.splitAtChar n).1 },
    { d with
      slot := (d.text.splitAtChar n).2.text.headD d.slot
      text := (d.text.splitAtChar n).2 })

structure Tree where
  rootTenants : TenantMap
  rootLastTenant : Option String
  nodes : PathTree Char TreeNode
  tenantCharCount : AList fun _ : String => Nat
  deriving DecidableEq

namespace Tree

def new : Tree := ⟨∅, none, [], ∅⟩

def tenantsAt (t : Tree) (p : List Char) : TenantMap :=
  if p = [] then t.rootTenants else ((t.nodes.node? p).map (·.data.tenants)).getD ∅

def lastTenantAt (t : Tree) (p : List Char) : Option String :=
  if p = [] then t.rootLastTenant else (t.nodes.node? p).bind (·.data.lastTenant)

def charCountAt (t : Tree) (p : List Char) : Nat :=
  ((t.nodes.node? p).map (·.data.text.charCount)).getD 0

def editTenants (t : Tree) (p : List Char) (f : TenantMap → TenantMap) : Tree :=
  if p = [] then { t with rootTenants := f t.rootTenants }
  else { t with nodes := t.nodes.edit p fun d => { d with tenants := f d.tenants } }

def setLastTenant (t : Tree) (p : List Char) (tenant : String) : Tree :=
  if p = [] then { t with rootLastTenant := some tenant }
  else { t with nodes := t.nodes.edit p fun d => { d with lastTenant := some tenant } }

def addCount (t : Tree) (tenant : String) (n : Nat) : Tree :=
  { t with tenantCharCount :=
      t.tenantCharCount.insert tenant ((t.tenantCharCount.lookup tenant).getD 0 + n) }

def subCount (t : Tree) (tenant : String) (n : Nat) : Tree :=
  { t with tenantCharCount := match t.tenantCharCount.lookup tenant with
      | some count => t.tenantCharCount.insert tenant (count - n)
      | none => t.tenantCharCount }

def child? (t : Tree) (p : List Char) (c : Char) : Option (PathNode Char TreeNode) :=
  t.nodes.find? fun e => e.parent = p ∧ e.data.slot = c

def childCarries (t : Tree) (p : List Char) (tenant : String) : Bool :=
  t.nodes.any fun e => e.parent = p ∧ tenant ∈ e.data.tenants

/-! ## Insert -/

inductive InsertPc
  | atRoot (text : List Char)
  | atCount (text : List Char)
  | walking (prev remaining : List Char)
  | done
  deriving DecidableEq

/-- Make the tenant an owner of a node with `n` characters, if it is not one already. -/
def claim (t : Tree) (p : List Char) (n : Nat) (tenant : String) : Tree :=
  if tenant ∈ t.tenantsAt p then t
  else (t.addCount tenant n).editTenants p (·.insert tenant 0)

def attachLeaf (t : Tree) (prev remaining : List Char) (c : Char) (tenant : String)
    (epoch : Nat) : Tree :=
  { t.addCount tenant remaining.length with
    nodes := t.nodes.attach prev remaining
      ⟨c, NodeText.new remaining, AList.singleton tenant epoch, some tenant⟩ }

/-- One turn of the loop of `insert`, under the entry of the child, or what follows the loop. -/
def insertWalk (t : Tree) (tenant : String) (epoch : Nat) (prev remaining : List Char) :
    Tree × InsertPc :=
  match remaining with
  | [] => (t.editTenants prev (·.insert tenant epoch), .done)
  | c :: _ => match t.child? prev c with
    | none => (t.attachLeaf prev remaining c tenant epoch, .done)
    | some e =>
      let shared := sharedPrefixCount remaining e.data.text.text
      if shared < e.data.text.charCount then
        let new := (PathTree.upper TreeNode.cut e shared).path
        ({ t with nodes := t.nodes.split TreeNode.cut e shared }.claim new shared tenant,
          .walking new (advanceByChars remaining shared))
      else
        (t.claim e.path e.data.text.charCount tenant,
          .walking e.path (advanceByChars remaining shared))

def insertStep (tenant : String) (epoch : Nat) (t : Tree) : InsertPc → Tree × InsertPc
  | .atRoot text =>
    (if tenant ∈ t.rootTenants then t
      else { t with rootTenants := t.rootTenants.insert tenant 0 }, .atCount text)
  | .atCount text =>
    (if tenant ∈ t.tenantCharCount then t
      else { t with tenantCharCount := t.tenantCharCount.insert tenant 0 }, .walking [] text)
  | .walking prev remaining => t.insertWalk tenant epoch prev remaining
  | .done => (t, .done)

/-- `insert`; `epoch` is the value `get_epoch` returns. Every turn of the loop but the last takes a
character off the text. -/
def insert (t : Tree) (text : List Char) (tenant : String) (epoch : Nat) : Tree :=
  (runLoop (insertStep tenant epoch) (text.length + 3) t (.atRoot text)).1

/-! ## Match -/

/-- The loop of the prefix matches: the node where it ends and the characters matched. -/
def matchWalk (t : Tree) (visible : TreeNode → Bool) :
    Nat → List Char → List Char → Nat → List Char × Nat
  | fuel + 1, prev, remaining@(c :: _), matched => match t.child? prev c with
    | none => (prev, matched)
    | some e =>
      if visible e.data then
        let shared := sharedPrefixCount remaining e.data.text.text
        if shared = e.data.text.charCount then
          matchWalk t visible fuel e.path (advanceByChars remaining shared) (matched + shared)
        else (e.path, matched + shared)
      else (prev, matched)
  | _, prev, _, matched => (prev, matched)

structure PrefixMatchResult where
  tenant : String
  matchedCharCount : Nat
  inputCharCount : Nat
  deriving DecidableEq

def anyTenantAt (t : Tree) (p : List Char) (pick : Nat) : String :=
  ((t.tenantsAt p).keys[pick % (t.tenantsAt p).keys.length]?).getD "empty"

/-- The cached tenant of a node if it still is one, else one found by iteration, which is cached. -/
def tenantFor (t : Tree) (p : List Char) (pick : Nat) : String × Tree :=
  match t.lastTenantAt p with
  | some tenant =>
    if tenant ∈ t.tenantsAt p then (tenant, t)
    else (t.anyTenantAt p pick, t.setLastTenant p (t.anyTenantAt p pick))
  | none => (t.anyTenantAt p pick, t.setLastTenant p (t.anyTenantAt p pick))

/-- `prefix_match_with_counts`; `pick` says where the iteration over a tenant map begins. -/
def prefixMatchWithCounts (t : Tree) (text : List Char) (epoch pick : Nat) :
    PrefixMatchResult × Tree :=
  let (curr, matched) := t.matchWalk (fun _ => true) text.length [] text 0
  let (tenant, t) := t.tenantFor curr pick
  (⟨tenant, matched, text.length⟩,
    if epoch % 8 = 0 then t.editTenants curr (·.insert tenant epoch) else t)

def prefixMatch (t : Tree) (text : List Char) (epoch pick : Nat) :
    (List Char × String) × Tree :=
  let (result, t) := t.prefixMatchWithCounts text epoch pick
  ((takeChars text result.matchedCharCount, result.tenant), t)

def prefixMatchTenant (t : Tree) (text : List Char) (tenant : String) (epoch : Nat) :
    List Char × Tree :=
  let (curr, matched) := t.matchWalk (fun d => tenant ∈ d.tenants) text.length [] text 0
  (takeChars text matched,
    if tenant ∈ t.tenantsAt curr then t.editTenants curr (·.insert tenant epoch) else t)

/-! ## Evict and remove -/

def leafOf (t : Tree) (p : List Char) : List String :=
  (t.tenantsAt p).keys.filter fun tenant => !t.childCarries p tenant

def places (t : Tree) : List (List Char) := [] :: t.nodes.map (·.path)

def parentOf (t : Tree) (p : List Char) : Option (List Char) := (t.nodes.node? p).map (·.parent)

def removeTenantFrom (t : Tree) (p : List Char) (tenant : String) : Tree :=
  t.editTenants p (·.erase tenant)

/-- A node without children and tenants is taken out of its parent, by its first character. -/
def unlinkEmpty (t : Tree) (p : List Char) (parent : Option (List Char)) : Tree :=
  match parent, t.nodes.node? p with
  | some parent, some node =>
    if t.nodes.Childless p ∧ node.data.tenants.keys = [] then
      match node.data.text.text.head?.bind (t.child? parent) with
      | some child => { t with nodes := t.nodes.remove child.path }
      | none => t
    else t
  | _, _ => t

def becameLeaf (t : Tree) (parent : Option (List Char)) (tenant : String) :
    Option (List Char) :=
  parent.filter fun p => tenant ∈ t.tenantsAt p ∧ t.childCarries p tenant = false

structure EvictionEntry where
  timestamp : Nat
  tenant : String
  node : List Char
  deriving DecidableEq

def entryFor (t : Tree) (tenant : String) (p : List Char) : Option EvictionEntry :=
  ((t.tenantsAt p).lookup tenant).map fun timestamp => ⟨timestamp, tenant, p⟩

inductive EvictPc
  | scan
  | popping (heap : List EvictionEntry)
  | decrement (entry : EvictionEntry) (heap : List EvictionEntry)
  | removeTenant (entry : EvictionEntry) (heap : List EvictionEntry)
  | unlink (entry : EvictionEntry) (parent : Option (List Char)) (heap : List EvictionEntry)
  | push (entry : EvictionEntry) (parent : Option (List Char)) (heap : List EvictionEntry)
  | done
  deriving DecidableEq

def withinLimit (t : Tree) (maxSize : Nat) (tenant : String) : Bool :=
  match t.tenantCharCount.lookup tenant with
  | some used => used ≤ maxSize
  | none => false

/-- A step of `evict_tenant_by_size`. The heap is the list of its entries and `pick` says which one
is popped, so that any order among them is some `pick`. -/
def evictStep (maxSize : Nat) (pick : List EvictionEntry → Nat) (t : Tree) :
    EvictPc → Tree × EvictPc
  | .scan => (t, .popping (t.places.flatMap fun p =>
      (t.leafOf p).filterMap fun tenant => t.entryFor tenant p))
  | .popping heap => match heap[pick heap % heap.length]? with
    | none => (t, .done)
    | some entry =>
      let heap := heap.eraseIdx (pick heap % heap.length)
      if t.withinLimit maxSize entry.tenant then (t, .popping heap)
      else if entry.tenant ∈ t.tenantsAt entry.node ∧
          t.childCarries entry.node entry.tenant = false then (t, .decrement entry heap)
      else (t, .popping heap)
  | .decrement entry heap =>
    (t.subCount entry.tenant (t.charCountAt entry.node), .removeTenant entry heap)
  | .removeTenant entry heap =>
    (t.removeTenantFrom entry.node entry.tenant, .unlink entry (t.parentOf entry.node) heap)
  | .unlink entry parent heap => (t.unlinkEmpty entry.node parent, .push entry parent heap)
  | .push entry parent heap =>
    (t, .popping (((t.becameLeaf parent entry.tenant).bind (t.entryFor entry.tenant)).toList ++
      heap))
  | .done => (t, .done)

def ownerships (t : Tree) : Nat :=
  t.rootTenants.keys.length + (t.nodes.map fun e => e.data.tenants.keys.length).sum

/-- `evict_tenant_by_size`. An entry is popped in at most five steps, and every pair of a node and a
tenant is pushed and taken away at most once. -/
def evictTenantBySize (t : Tree) (maxSize : Nat) (pick : List EvictionEntry → Nat) : Tree :=
  (runLoop (evictStep maxSize pick) (10 * t.ownerships + 2) t .scan).1

inductive RemovePc
  | scan
  | popping (queue : List (List Char))
  | unlink (node : List Char) (parent : Option (List Char)) (queue : List (List Char))
  | push (parent : Option (List Char)) (queue : List (List Char))
  | done
  deriving DecidableEq

def removeStep (tenant : String) (t : Tree) : RemovePc → Tree × RemovePc
  | .scan => (t, .popping (t.places.filter fun p =>
      tenant ∈ t.tenantsAt p ∧ t.childCarries p tenant = false))
  | .popping (p :: queue) => (t.removeTenantFrom p tenant, .unlink p (t.parentOf p) queue)
  | .popping [] => ({ t with tenantCharCount := t.tenantCharCount.erase tenant }, .done)
  | .unlink p parent queue => (t.unlinkEmpty p parent, .push parent queue)
  | .push parent queue => (t, .popping (queue ++ (t.becameLeaf parent tenant).toList))
  | .done => (t, .done)

/-- `remove_tenant`. A node is handled in three steps. -/
def removeTenant (t : Tree) (tenant : String) : Tree :=
  (runLoop (removeStep tenant) (3 * t.places.length + 2) t .scan).1

def usedSize (t : Tree) (tenant : String) : Nat :=
  (t.nodes.map fun e => if tenant ∈ e.data.tenants then e.data.text.charCount else 0).sum

end Tree

end LLM42.Gateway
