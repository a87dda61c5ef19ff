import Mathlib.Data.List.AList
import Mathlib.Data.List.MinMax
import Mathlib.Algebra.Ring.Rat

/-! # Buckets of request lengths

`policies/bucket.rs`: the workers of a model share the request lengths out among themselves, each by
a range. What is charged to a URL is kept for a period, and from time to time the ranges are set
anew so that each covers about the same load. -/

namespace LLM42.Gateway

def usizeMax : Nat := 2 ^ 64 - 1

def usizeAdd (a b : Nat) : Nat := (a + b) % 2 ^ 64

/-- What a call takes from outside: random numbers, the epochs of the prefix tree, the order in which
a hash map is gone through, the clock and a fresh identifier. -/
structure Draws where
  index : Nat
  other : Nat
  matchEpoch : Nat
  insertEpoch : Nat
  order : Nat
  now : Nat
  uuid : Nat
  deriving DecidableEq

def pickAt {α : Type*} (xs : List α) (draw : Nat) : Option α := xs[draw % xs.length]?

structure BucketConfig where
  balanceAbsThreshold : Nat
  balanceRelThreshold : ℚ
  bucketAdjustIntervalSecs : Nat
  deriving DecidableEq

def BucketConfig.default : BucketConfig := ⟨32, 10001 / 10000, 5⟩

/-- The lengths from `low` to `high` go to the worker with this URL. -/
structure Boundary where
  url : String
  low : Nat
  high : Nat
  deriving DecidableEq

structure SequencerRequest where
  id : Nat
  charCnt : Nat
  timestamp : Nat
  prefillWorkerUrl : String
  deriving DecidableEq

structure Bucket where
  lMax : Nat
  bucketCnt : Nat
  prefillWorkerUrls : List String
  loadTotal : Nat
  period : Nat
  bucketLoad : Nat
  boundary : List Boundary
  requestList : List SequencerRequest
  tReqLoads : AList fun _ : Nat => Nat
  charsPerUrl : AList fun _ : String => Nat
  deriving DecidableEq

namespace Bucket

def new (period : Nat) : Bucket :=
  { lMax := 4096, bucketCnt := 0, prefillWorkerUrls := [], loadTotal := 0, period := period,
    bucketLoad := 0, boundary := [], requestList := [], tReqLoads := ∅, charsPerUrl := ∅ }

/-- Ranges of equal width, the last one open; from the second time on the whole range of `usize` is
shared out. -/
def initPrefillWorkerUrls (b : Bucket) (urls : List String) : Bucket :=
  { b with
    bucketCnt := urls.length
    prefillWorkerUrls := urls
    charsPerUrl := urls.foldl (fun m url => m.insert url 0) ∅
    lMax := if urls = [] then b.lMax else usizeMax
    boundary := urls.zipIdx.map fun (url, i) =>
      ⟨url, i * (b.lMax / urls.length),
        if i = urls.length - 1 then usizeMax
        else usizeAdd ((i + 1) * (b.lMax / urls.length)) usizeMax⟩ }

def expire (now : Nat) : List SequencerRequest → Bucket → Bucket
  | [], b => { b with requestList := [] }
  | req :: rest, b =>
    if now < req.timestamp ∨ b.period < now - req.timestamp then
      expire now rest { b with
        tReqLoads := b.tReqLoads.erase req.id
        loadTotal := b.loadTotal - req.charCnt
        charsPerUrl := match b.charsPerUrl.lookup req.prefillWorkerUrl with
          | some count => b.charsPerUrl.insert req.prefillWorkerUrl (count - req.charCnt)
          | none => b.charsPerUrl }
    else { b with requestList := req :: rest }

def postProcessRequest (b : Bucket) (charCnt : Nat) (prefillUrl : String) (now uuid : Nat) :
    Bucket :=
  let b := { b with
    charsPerUrl := b.charsPerUrl.insert prefillUrl
      (usizeAdd ((b.charsPerUrl.lookup prefillUrl).getD 0) charCnt) }
  let b := expire now b.requestList b
  { b with
    tReqLoads := b.tReqLoads.insert uuid charCnt
    requestList := b.requestList ++ [⟨uuid, charCnt, now, prefillUrl⟩]
    loadTotal := min (b.loadTotal + charCnt) usizeMax }

def searchBoundary (boundary : List Boundary) (charCount : Nat) : Nat → Nat → Nat → Option String
  | 0, _, _ => none
  | fuel + 1, left, right =>
    if left < right then
      let mid := left + (right - left) / 2
      match boundary[mid]? with
      | none => none
      | some range =>
        if charCount < range.low then searchBoundary boundary charCount fuel left mid
        else if range.high < charCount then
          searchBoundary boundary charCount fuel (mid + 1) right
        else some range.url
    else none

def findBoundary (b : Bucket) (charCount : Nat) : Option String :=
  searchBoundary b.boundary charCount (b.boundary.length + 1) 0 b.boundary.length

def updateWorkersCnt (b : Bucket) : Bucket :=
  let added := (b.prefillWorkerUrls.filter (· ∉ b.charsPerUrl)).foldl
    (fun m url => m.insert url 0) b.charsPerUrl
  { b with
    bucketCnt := b.prefillWorkerUrls.length
    charsPerUrl := (b.charsPerUrl.keys.filter (· ∉ b.prefillWorkerUrls)).foldl
      (fun m url => if m.lookup url = some 0 then m.erase url else m) added }

/-- Go on through the loads until `single` of them is reached: the load that reaches it and those
after it. -/
def consume (single : Nat) : Nat → List Nat → Option (Nat × List Nat)
  | _, [] => none
  | acc, load :: rest =>
    if single ≤ usizeAdd acc load then some (load, rest)
    else consume single (usizeAdd acc load) rest

/-- The loop of `adjust_boundary` over the workers; `loads` are the loads that are left. -/
def shareOut (single : Nat) : List String → Nat → List Nat → List Boundary
  | [], _, _ => []
  | [url], upperBound, _ => [⟨url, upperBound, usizeMax⟩]
  | url :: next :: rest, upperBound, loads => match consume single 0 loads with
    | some (load, loads) =>
      let high := if load ≤ upperBound then usizeAdd upperBound single else load
      ⟨url, upperBound, high⟩ :: shareOut single (next :: rest) (usizeAdd high 1) loads
    | none =>
      ⟨url, upperBound, usizeAdd upperBound single⟩ ::
        shareOut single (next :: rest) (usizeAdd (usizeAdd upperBound single) 1) []

def adjustBoundary (b : Bucket) : Bucket :=
  if b.tReqLoads.keys = [] then b
  else
    let b := b.updateWorkersCnt
    if b.bucketCnt = 0 then b
    else
      let single := b.loadTotal / b.bucketCnt
      if single ≤ usizeAdd b.bucketLoad b.bucketLoad ∧ b.bucketLoad ≤ usizeAdd single single ∧
          b.bucketLoad ≠ 0 then b
      else { b with
        bucketLoad := single
        boundary := shareOut single b.prefillWorkerUrls 0
          ((b.tReqLoads.entries.map (·.2)).mergeSort (· ≤ ·)) }

def isImbalanced (b : Bucket) (config : BucketConfig) : Bool :=
  let charges := b.charsPerUrl.entries.map (·.2)
  let maxLoad := charges.max?.getD 0
  let minLoad := charges.min?.getD 0
  config.balanceAbsThreshold < maxLoad - minLoad ∧
    config.balanceRelThreshold * minLoad < (maxLoad : ℚ)

/-- A URL with the least charge; `order` decides among several. -/
def minUrl (b : Bucket) (order : Nat) : Option String :=
  pickAt ((b.charsPerUrl.entries.filter fun entry =>
    (b.charsPerUrl.entries.map (·.2)).min? = some entry.2).map (·.1)) order

end Bucket

end LLM42.Gateway
