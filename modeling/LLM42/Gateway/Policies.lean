import LLM42.Gateway.BucketPolicy
import LLM42.Gateway.PrefixTree

/-! # Load balancing policies

The policies of `policies/` that pick a worker for a request: round robin, random, power of two,
cache aware, manual and bucket. Each has a state of its own, which selections and the coming and
going of workers change. -/

namespace LLM42.Gateway

structure PolicyWorker where
  url : String
  modelId : String
  isHealthy : Bool
  /-- `circuit_breaker().can_execute()` -/
  canExecute : Bool
  load : Nat
  /-- `worker_routing_key_load().value()` -/
  routingKeyLoad : Nat
  deriving DecidableEq

def PolicyWorker.usable (w : PolicyWorker) : Bool := w.isHealthy && w.canExecute

/-- What a request says; `routingKey` is the header `X-SMG-Routing-Key`. -/
structure SelectWorkerInfo where
  requestText : Option (List Char)
  routingKey : Option String
  deriving DecidableEq

def getHealthyWorkerIndices (workers : List PolicyWorker) : List (PolicyWorker × Nat) :=
  workers.zipIdx.filter (·.1.usable)

def position (workers : List PolicyWorker) (url : String) : Option (PolicyWorker × Nat) :=
  workers.zipIdx.find? (·.1.url = url)

/-- `UNKNOWN_MODEL_ID` stands for an empty model id. -/
def normalizeModelKey (unknownModelId modelId : String) : String :=
  if modelId = "" then unknownModelId else modelId

/-! ## Round robin, random, power of two -/

structure RoundRobinPolicy where
  counter : Nat
  deriving DecidableEq

def RoundRobinPolicy.selectWorker (p : RoundRobinPolicy) (workers : List PolicyWorker) :
    Option Nat × RoundRobinPolicy :=
  match getHealthyWorkerIndices workers with
  | [] => (none, p)
  | healthy => ((pickAt healthy p.counter).map (·.2), ⟨usizeAdd p.counter 1⟩)

def randomSelect (healthy : List (PolicyWorker × Nat)) (draw : Nat) : Option Nat :=
  (pickAt healthy draw).map (·.2)

structure PowerOfTwoPolicy where
  cachedLoads : AList fun _ : String => Int
  deriving DecidableEq

/-- The worker with the lower load of two, by cached loads if both have one. -/
def PowerOfTwoPolicy.lower (p : PowerOfTwoPolicy) (x y : PolicyWorker × Nat) : PolicyWorker × Nat :=
  match p.cachedLoads.lookup x.1.url, p.cachedLoads.lookup y.1.url with
  | some load1, some load2 => if load1 ≤ load2 then x else y
  | _, _ => if x.1.load ≤ y.1.load then x else y

def PowerOfTwoPolicy.selectWorker (p : PowerOfTwoPolicy) (workers : List PolicyWorker) (d : Draws) :
    Option Nat :=
  match getHealthyWorkerIndices workers with
  | [] => none
  | [x] => some x.2
  | healthy =>
    let idx1 := d.index % healthy.length
    match healthy[idx1]?, pickAt healthy (idx1 + 1 + d.other % (healthy.length - 1)) with
    | some x, some y => some (p.lower x y).2
    | _, _ => none

/-! ## Cache aware -/

structure CacheAwareConfig where
  cacheThreshold : ℚ
  balanceAbsThreshold : Nat
  balanceRelThreshold : ℚ
  deriving DecidableEq

def CacheAwareConfig.default : CacheAwareConfig := ⟨1 / 2, 32, 11 / 10⟩

structure CacheAwarePolicy where
  config : CacheAwareConfig
  trees : AList fun _ : String => Tree

namespace CacheAwarePolicy

def isImbalanced (config : CacheAwareConfig) (workers : List PolicyWorker) : Bool :=
  let loads := workers.foldl (fun m w => (min m.1 w.load, max m.2 w.load)) (usizeMax, 0)
  let minLoad := if loads.1 = usizeMax then 0 else loads.1
  config.balanceAbsThreshold < loads.2 - minLoad ∧
    minLoad * config.balanceRelThreshold < (loads.2 : ℚ)

def matchRate (result : Tree.PrefixMatchResult) : ℚ :=
  if result.inputCharCount = 0 then 0 else result.matchedCharCount / result.inputCharCount

def setTree (p : CacheAwarePolicy) (key : String) (tree : Tree) : CacheAwarePolicy :=
  { p with trees := p.trees.insert key tree }

/-- `select_worker_min_load`: the shortest queue; the tree learns the request. -/
def selectWorkerMinLoad (p : CacheAwarePolicy) (requestText : Option (List Char))
    (healthy : List (PolicyWorker × Nat)) (key : String) (d : Draws) :
    Option Nat × CacheAwarePolicy :=
  match healthy.argmin (·.1.load) with
  | none => (none, p)
  | some x => (some x.2, match requestText, p.trees.lookup key with
    | some text, some tree => p.setTree key (tree.insert text x.1.url d.insertEpoch)
    | _, _ => p)

def selectWorker (unknownModelId : String) (p : CacheAwarePolicy) (workers : List PolicyWorker)
    (info : SelectWorkerInfo) (d : Draws) : Option Nat × CacheAwarePolicy :=
  match getHealthyWorkerIndices workers with
  | [] => (none, p)
  | first :: rest =>
    let key := normalizeModelKey unknownModelId first.1.modelId
    if isImbalanced p.config workers then
      p.selectWorkerMinLoad info.requestText (first :: rest) key d
    else
      let text := info.requestText.getD []
      match p.trees.lookup key with
      | none => (randomSelect (first :: rest) d.index, p)
      | some tree =>
        let (result, tree) := tree.prefixMatchWithCounts text d.matchEpoch d.order
        let hit := p.config.cacheThreshold < matchRate result
        let selected := if hit then (position workers result.tenant).filter (·.1.isHealthy)
          else (first :: rest).argmin (·.1.load)
        match selected with
        | some x => (some x.2, p.setTree key (tree.insert text x.1.url d.insertEpoch))
        | none =>
          -- the worker is gone or unhealthy: its texts go, the first usable worker takes the request
          (some first.2,
            p.setTree key (if hit then tree.removeTenant result.tenant else tree))

def treeOrNew (p : CacheAwarePolicy) (key : String) : Tree := (p.trees.lookup key).getD .new

/-- `add_worker`, `add_worker_by_url` and the workers of `init_workers`. -/
def addWorker (p : CacheAwarePolicy) (key url : String) (epoch : Nat) : CacheAwarePolicy :=
  p.setTree key ((p.treeOrNew key).insert [] url epoch)

def removeWorker (p : CacheAwarePolicy) (key url : String) : CacheAwarePolicy :=
  match p.trees.lookup key with
  | some tree => p.setTree key (tree.removeTenant url)
  | none => p

def removeWorkerByUrl (p : CacheAwarePolicy) (url : String) : CacheAwarePolicy :=
  p.trees.keys.foldl (fun p key => p.removeWorker key url) p

def evictCache (p : CacheAwarePolicy) (maxSize : Nat)
    (pick : List Tree.EvictionEntry → Nat) : CacheAwarePolicy :=
  p.trees.keys.foldl (fun p key => match p.trees.lookup key with
    | some tree => p.setTree key (tree.evictTenantBySize maxSize pick)
    | none => p) p

end CacheAwarePolicy

/-! ## Manual -/

inductive ManualAssignmentMode
  | random
  | minLoad
  | minGroup
  deriving DecidableEq

structure RoutingNode where
  candiWorkerUrls : List String
  lastAccess : Nat
  deriving DecidableEq

def maxCandidateWorkers : Nat := 2

def RoutingNode.pushBounded (node : RoutingNode) (url : String) : RoutingNode :=
  { node with
    candiWorkerUrls := node.candiWorkerUrls.drop
      (node.candiWorkerUrls.length + 1 - maxCandidateWorkers) ++ [url] }

structure ManualPolicy where
  routingMap : AList fun _ : String => RoutingNode
  assignmentMode : ManualAssignmentMode
  deriving DecidableEq

namespace ManualPolicy

def keepMin {α : Type*} (value : α → Nat) (best : Option Nat × List α) (x : α) :
    Option Nat × List α :=
  match best.1 with
  | none => (some (value x), [x])
  | some least =>
    if value x < least then (some (value x), [x])
    else if value x = least then (some least, best.2 ++ [x])
    else best

def selectMinBy {α : Type*} (value : α → Nat) (xs : List α) (draw : Nat) : Option α :=
  pickAt (xs.foldl (keepMin value) (none, [])).2 draw

def selectNewWorker (p : ManualPolicy) (healthy : List (PolicyWorker × Nat)) (d : Draws) :
    Option (PolicyWorker × Nat) :=
  match p.assignmentMode with
  | .random => pickAt healthy d.index
  | .minLoad => selectMinBy (·.1.load) healthy d.index
  | .minGroup => selectMinBy (·.1.routingKeyLoad) healthy d.index

def findHealthyWorker (urls : List String) (workers : List PolicyWorker)
    (healthy : List (PolicyWorker × Nat)) : Option (PolicyWorker × Nat) :=
  urls.findSome? fun url => (position workers url).filter (· ∈ healthy)

def selectByRoutingId (p : ManualPolicy) (workers : List PolicyWorker) (routingId : String)
    (healthy : List (PolicyWorker × Nat)) (d : Draws) : Option Nat × ManualPolicy :=
  match p.routingMap.lookup routingId with
  | some node =>
    let node := { node with lastAccess := d.now }
    match findHealthyWorker node.candiWorkerUrls workers healthy with
    | some x => (some x.2, { p with routingMap := p.routingMap.insert routingId node })
    | none => match p.selectNewWorker healthy d with
      | some x => (some x.2,
        { p with routingMap := p.routingMap.insert routingId (node.pushBounded x.1.url) })
      | none => (none, p)
  | none => match p.selectNewWorker healthy d with
    | some x => (some x.2,
      { p with routingMap := p.routingMap.insert routingId ⟨[x.1.url], d.now⟩ })
    | none => (none, p)

def selectWorker (p : ManualPolicy) (workers : List PolicyWorker) (info : SelectWorkerInfo)
    (d : Draws) : Option Nat × ManualPolicy :=
  match getHealthyWorkerIndices workers with
  | [] => (none, p)
  | healthy => match info.routingKey with
    | some routingId => p.selectByRoutingId workers routingId healthy d
    | none => (randomSelect healthy d.index, p)

/-- The eviction task: entries that nobody has asked for in a while go. -/
def evictIdle (p : ManualPolicy) (now maxIdle : Nat) : ManualPolicy :=
  { p with routingMap := p.routingMap.keys.foldl (fun m key => match m.lookup key with
      | some node => if now - node.lastAccess < maxIdle then m else m.erase key
      | none => m) p.routingMap }

end ManualPolicy

/-! ## Bucket -/

structure BucketPolicy where
  config : BucketConfig
  buckets : AList fun _ : String => Bucket
  deriving DecidableEq

namespace BucketPolicy

def setBucket (p : BucketPolicy) (key : String) (bucket : Bucket) : BucketPolicy :=
  { p with buckets := p.buckets.insert key bucket }

def randomUrl (healthy : List (PolicyWorker × Nat)) (draw : Nat) : String :=
  ((pickAt healthy draw).map (·.1.url)).getD ""

def prefillUrl (config : BucketConfig) (bucket : Bucket) (charCount : Nat)
    (healthy : List (PolicyWorker × Nat)) (d : Draws) : String :=
  if bucket.isImbalanced config then (bucket.minUrl d.order).getD (randomUrl healthy d.index)
  else match bucket.findBoundary charCount with
    | some url => if url ≠ "" then url else randomUrl healthy d.index
    | none => randomUrl healthy d.index

def selectWorker (unknownModelId : String) (p : BucketPolicy) (workers : List PolicyWorker)
    (info : SelectWorkerInfo) (d : Draws) : Option Nat × BucketPolicy :=
  match getHealthyWorkerIndices workers with
  | [] => (none, p)
  | first :: rest =>
    let charCount := (info.requestText.map List.length).getD 0
    let key := normalizeModelKey unknownModelId first.1.modelId
    match p.buckets.lookup key with
    | some bucket =>
      let url := prefillUrl p.config bucket charCount (first :: rest) d
      ((position workers url).map (·.2),
        p.setBucket key (bucket.postProcessRequest charCount url d.now d.uuid))
    | none => ((position workers (randomUrl (first :: rest) d.index)).map (·.2), p)

def bucketOrNew (p : BucketPolicy) (key : String) : Bucket :=
  (p.buckets.lookup key).getD (.new (p.config.bucketAdjustIntervalSecs * 1000))

def initPrefillWorkerUrls (p : BucketPolicy) (key : String) (urls : List String) : BucketPolicy :=
  p.setBucket key ((p.bucketOrNew key).initPrefillWorkerUrls urls)

def addPrefillUrl (p : BucketPolicy) (key url : String) : BucketPolicy :=
  let bucket := p.bucketOrNew key
  p.setBucket key (bucket.initPrefillWorkerUrls
    (if url ∈ bucket.prefillWorkerUrls then bucket.prefillWorkerUrls
      else bucket.prefillWorkerUrls ++ [url]))

/-- The ranges of the last worker to go stay as they are. -/
def removePrefillUrl (p : BucketPolicy) (key url : String) : BucketPolicy :=
  match p.buckets.lookup key with
  | none => p
  | some bucket =>
    let urls := bucket.prefillWorkerUrls.filter (· ≠ url)
    let bucket := { bucket with
      prefillWorkerUrls := urls
      charsPerUrl := bucket.charsPerUrl.erase url
      bucketCnt := urls.length }
    p.setBucket key (if urls = [] then bucket else bucket.initPrefillWorkerUrls urls)

def adjustBoundaries (p : BucketPolicy) : BucketPolicy :=
  p.buckets.keys.foldl (fun p key => match p.buckets.lookup key with
    | some bucket => p.setBucket key bucket.adjustBoundary
    | none => p) p

end BucketPolicy

end LLM42.Gateway
