import LLM42.Library.Runs
import LLM42.Request.Basic

/-! # The n-gram draft cache and its insert thread

`Ngram` keeps a trie of recent token windows. Its owner hands token vectors to a queue; a worker
thread takes them out and inserts them under a mutex of its own, while the owner waits for an empty
queue before it asks for drafts. -/

namespace LLM42.Ngram

open Library

abbrev DraftTree := List (List (Token × ℕ))

structure Result where
  token : List Token
  mask : List (List Bool)
  deriving DecidableEq

/-- Positions of the tree in the order of a breadth-first walk, each with that of its parent.
`order` is the iteration order of `std::unordered_map`. -/
def fillTokens (order : List (Token × ℕ) → List (Token × ℕ)) (tree : DraftTree) :
    ℕ → List (Token × ℕ × ℕ) → List (Token × Option ℕ) → List (Token × Option ℕ)
  | 0, _, info => info
  | _, [], info => info
  | fuel + 1, (token, next, prev) :: queue, info =>
    fillTokens order tree fuel
      (queue ++ (order (tree.getD next [])).map fun (t, n) => (t, n, info.length))
      (info ++ [(token, some prev)])

/-- A row sees what its parent sees up to the parent itself, and itself. -/
def fillMask (n : ℕ) (prevs : List (Option ℕ)) : List (List Bool) :=
  prevs.foldl (fun mask prev =>
    let seen := match prev with
      | none => []
      | some p => (mask.getD p []).take (p + 1)
    mask ++ [(seen ++ List.replicate (n - seen.length) false).set mask.length true]) []

def fillResult (order : List (Token × ℕ) → List (Token × ℕ)) (lastToken : Token)
    (draftTokenNum : ℕ) (tree : DraftTree) : Result :=
  let info := fillTokens order tree tree.length
    ((order (tree.getD 0 [])).map fun (t, n) => (t, n, 0)) [(lastToken, none)]
  let info := info ++ List.replicate (draftTokenNum - info.length) (0, some 0)
  ⟨info.map Prod.fst, fillMask info.length (info.map Prod.snd)⟩

/-- Nodes are known by their path from the root. -/
structure Trie where
  /-- most recent first -/
  globalLru : List (List Token)
  /-- children of a node, most recent first -/
  lru : List Token → List Token
  freq : List Token → ℕ

structure Param where
  capacity : ℕ
  minMatchWindowSize : ℕ
  maxMatchWindowSize : ℕ
  branchLength : ℕ
  draftTokenNum : ℕ
  /-- entries of `batch_draft_token_num` that are set -/
  batchDraftTokenNum : ℕ → Option ℕ
  /-- what `match_type` selects; the searches read the trie only -/
  matchFunc : Trie → List Token → ℕ → Result

inductive NgramError
  | insufficientNodes | hasChildren | emptyLru | waits
  deriving DecidableEq

def Param.getDraftTokenNum (p : Param) (batchSize : ℕ) : ℕ :=
  (p.batchDraftTokenNum batchSize).getD (p.draftTokenNum - 1)

namespace Trie

variable (p : Param)

def empty : Trie := ⟨[], fun _ => [], fun _ => 0⟩

def freeNodeCount (t : Trie) : ℕ := p.capacity - 1 - t.globalLru.length

def release : ℕ → Trie → Except NgramError Trie
  | 0, t => .ok t
  | count + 1, t => match t.globalLru.getLast? with
    | none => .error .emptyLru
    | some last =>
      if t.lru last ≠ [] then .error .hasChildren
      else release count { t with
        globalLru := t.globalLru.dropLast
        lru := Function.update t.lru last.dropLast ((t.lru last.dropLast).erase (last.getLastD 0)) }

def squeeze (t : Trie) (count : ℕ) : Except NgramError Trie :=
  if p.capacity < t.freeNodeCount p + count then .error .insufficientNodes else t.release count

def visit (t : Trie) (node : List Token) (token : Token) : Trie :=
  if token ∈ t.lru node then
    { t with
      lru := Function.update t.lru node (token :: (t.lru node).erase token)
      freq := Function.update t.freq (node ++ [token]) (t.freq (node ++ [token]) + 1) }
  else
    { globalLru := t.globalLru ++ [node ++ [token]]
      lru := Function.update (Function.update t.lru (node ++ [token]) []) node (token :: t.lru node)
      freq := Function.update t.freq (node ++ [token]) 1 }

/-- A branch from the root; its nodes become the most recent ones, the first of them in front. -/
def insertBranch (t : Trie) (branch : List Token) : Trie :=
  let t := (List.range branch.length).foldl (fun t i => t.visit (branch.take i) (branch.getD i 0)) t
  let path := (List.range branch.length).map fun i => branch.take (i + 1)
  { t with globalLru := path.foldr (fun node lru => node :: lru.erase node) t.globalLru }

def insert (t : Trie) (data : List Token) : Except NgramError Trie :=
  (List.range (data.length - p.minMatchWindowSize)).foldlM (fun t i =>
    let branch := (data.drop i).take p.branchLength
    (if t.freeNodeCount p < branch.length then t.squeeze p (branch.length - t.freeNodeCount p)
      else .ok t).map fun t => t.insertBranch branch) t

def insertAll (t : Trie) (vectors : List (List Token)) : Except NgramError Trie :=
  vectors.foldlM (insert p) t

def hasPath (t : Trie) (node : List Token) : List Token → Bool
  | [] => true
  | token :: tokens => token ∈ t.lru node && t.hasPath (node ++ [token]) tokens

/-- The ends of `tokens` that the trie has, longest first. -/
def matchNodes (t : Trie) (tokens : List Token) : List (List Token) :=
  let longest := min tokens.length p.maxMatchWindowSize
  ((List.range (longest + 1 - p.minMatchWindowSize)).map fun i =>
    tokens.drop (tokens.length - (longest - i))).filter (t.hasPath [])

/-- The first `breadth` children of a node enter the draft tree below `parent`. -/
def expand (t : Trie) (draftTokenNum parent level breadth : ℕ) (node : List Token)
    (tree : DraftTree) : DraftTree × List (ℕ × ℕ × List Token) :=
  ((t.lru node).take breadth).foldl (fun (tree, queue) token =>
    if draftTokenNum < tree.length then (tree, queue)
    else match (tree.getD parent []).lookup token with
      | some pos => (tree, queue ++ [(pos, level + 1, node ++ [token])])
      | none => (tree.modify parent (· ++ [(token, tree.length)]) ++ [[]],
          queue ++ [(tree.length, level + 1, node ++ [token])])) (tree, [])

def bfs (t : Trie) (draftTokenNum : ℕ) (breadth : ℕ → ℕ) :
    ℕ → List (ℕ × ℕ × List Token) → DraftTree → DraftTree
  | 0, _, tree => tree
  | _, [], tree => tree
  | fuel + 1, (parent, level, node) :: queue, tree =>
    if draftTokenNum < tree.length then tree
    else
      let (tree, more) := t.expand draftTokenNum parent level (breadth level) node tree
      bfs t draftTokenNum breadth fuel (queue ++ more) tree

/-- `breadth depth level` is `max(1, int32_t(cur_breadth))` after a match of `depth` tokens, `level`
steps below it. The source computes it in doubles; nothing here depends on how they round. -/
def matchBFS (breadth : ℕ → ℕ → ℕ) (order : List (Token × ℕ) → List (Token × ℕ)) (t : Trie)
    (tokens : List Token) (batchSize : ℕ) : Result :=
  let draftTokenNum := p.getDraftTokenNum batchSize
  let tree := (t.matchNodes p tokens).foldl (fun tree node =>
    t.bfs draftTokenNum (breadth node.length) (t.globalLru.length + 1) [(0, 0, node)] tree) [[]]
  fillResult order (tokens.getLastD 0) (draftTokenNum + 1) tree

def batchMatch (t : Trie) (tokens : List (List Token)) : Result :=
  let results := tokens.map fun tks => p.matchFunc t tks tokens.length
  ⟨results.flatMap Result.token, results.flatMap Result.mask⟩

end Trie

/-! ## The two threads -/

/-- The cache, and what its owner did: the vectors handed over since the last `reset`, and whether
`synchronize` has returned after the last of them. -/
structure Cache where
  trie : Trie
  insertQueue : List (List Token)
  /-- the vector that the worker took and has not inserted -/
  data : Option (List Token)
  handedOver : List (List Token)
  synchronized : Bool

/-- Queue operations and guarded sections; `asyncInsert` is one `enqueue` for each vector. -/
inductive CacheEvent
  | enqueue (tokens : List Token)
  | synchronize
  | batchMatch (tokens : List (List Token))
  | reset
  | dequeue
  | insert

namespace Cache

variable (p : Param)

def start : Cache := ⟨.empty, [], none, [], false⟩

def step (s : Cache) : CacheEvent → Except NgramError Cache
  | .enqueue tokens => .ok { s with
      insertQueue := s.insertQueue ++ [tokens]
      handedOver := s.handedOver ++ [tokens]
      synchronized := false }
  | .synchronize => if s.insertQueue.isEmpty then .ok { s with synchronized := true } else .error .waits
  | .batchMatch _ => .ok s
  | .reset => .ok { s with trie := .empty, handedOver := [] }
  | .dequeue => match s.data, s.insertQueue with
    | none, tokens :: queue => .ok { s with data := some tokens, insertQueue := queue }
    | _, _ => .error .waits
  | .insert => match s.data with
    | some tokens => (s.trie.insert p tokens).map fun trie => { s with trie, data := none }
    | none => .error .waits

/-- The worker has nothing in hand when `synchronize` sees an empty queue, and nothing left to
insert when the trie is reset. -/
def Quiet (s : Cache) : CacheEvent → Prop
  | .synchronize => s.data = none
  | .reset => s.data = none ∧ s.insertQueue = []
  | _ => True

instance (s : Cache) (e : CacheEvent) : Decidable (s.Quiet e) := by
  unfold Quiet
  split <;> infer_instance

/-- What is in the trie, in the worker's hand and in the queue was handed over in this order. -/
structure InOrder (s : Cache) : Prop where
  order : ∃ done, Trie.insertAll p .empty done = .ok s.trie ∧
    s.handedOver = done ++ s.data.toList ++ s.insertQueue
  idle : s.synchronized = true → s.data = none ∧ s.insertQueue = []

variable {p} {s t : Cache}

/-- No quiet event drops or reorders what was handed over. -/
theorem InOrder.step {e : CacheEvent} (h : s.InOrder p) (hquiet : s.Quiet e)
    (hstep : s.step p e = .ok t) : t.InOrder p := by
  obtain ⟨⟨done, hdone, horder⟩, hidle⟩ := h
  cases e with
  | enqueue tokens =>
    cases hstep
    exact ⟨⟨done, hdone, by simp [horder]⟩, nofun⟩
  | synchronize =>
    simp only [Cache.step] at hstep
    split at hstep
    next hempty =>
      cases hstep
      exact ⟨⟨done, hdone, horder⟩, fun _ => ⟨hquiet, List.isEmpty_iff.mp hempty⟩⟩
    · cases hstep
  | batchMatch tokens =>
    cases hstep
    exact ⟨⟨done, hdone, horder⟩, hidle⟩
  | reset =>
    cases hstep
    refine ⟨⟨[], rfl, ?_⟩, fun _ => hquiet⟩
    simp [hquiet.1, hquiet.2]
  | dequeue =>
    simp only [Cache.step] at hstep
    split at hstep
    next tokens queue hdata hqueue =>
      cases hstep
      refine ⟨⟨done, hdone, by simp [horder, hdata, hqueue]⟩, fun hsync => ?_⟩
      -- a synchronized cache has nothing to take
      have hnil := (hidle hsync).2
      rw [hqueue] at hnil
      cases hnil
    · cases hstep
  | insert =>
    simp only [Cache.step] at hstep
    split at hstep
    next tokens hdata =>
      cases hins : s.trie.insert p tokens with
      | error x =>
        rw [hins] at hstep
        cases hstep
      | ok trie =>
        rw [hins] at hstep
        cases hstep
        refine ⟨⟨done ++ [tokens], ?_, by simp [horder, hdata]⟩, fun hsync => ?_⟩
        · rw [Trie.insertAll] at hdone
          rw [Trie.insertAll, List.foldlM_append, hdone]
          exact (bind_pure _).trans hins
        · exact ⟨rfl, (hidle hsync).2⟩
    · cases hstep

theorem inOrder_of_reachable (h : Reachable (step p) (· = start) Quiet s) : s.InOrder p :=
  h.invariant (fun _ hs => hs ▸ ⟨⟨[], rfl, rfl⟩, nofun⟩) fun _ _ _ hinv hquiet hstep =>
    hinv.step hquiet hstep

theorem InOrder.insertAll_eq (h : s.InOrder p) (hsync : s.synchronized = true) :
    Trie.insertAll p .empty s.handedOver = .ok s.trie := by
  obtain ⟨⟨done, hdone, horder⟩, hidle⟩ := h
  obtain ⟨hdata, hqueue⟩ := hidle hsync
  rw [horder, hdata, hqueue]
  simpa using hdone

/-- Drafts asked for after `synchronize` are those of a trie with every vector inserted in order,
so ranks that made the same calls get the same drafts. -/
theorem drafts_after_synchronize (h : Reachable (step p) (· = start) Quiet s)
    (hsync : s.synchronized = true) :
    (∃ trie, Trie.insertAll p .empty s.handedOver = .ok trie ∧
      ∀ tokens, s.trie.batchMatch p tokens = trie.batchMatch p tokens) ∧
    ∀ r, Reachable (step p) (· = start) Quiet r → r.synchronized = true →
      r.handedOver = s.handedOver → ∀ tokens, r.trie.batchMatch p tokens = s.trie.batchMatch p tokens := by
  have heq := (inOrder_of_reachable h).insertAll_eq hsync
  refine ⟨⟨s.trie, heq, fun _ => rfl⟩, fun r hr hrsync hsame tokens => ?_⟩
  have heq' := (inOrder_of_reachable hr).insertAll_eq hrsync
  rw [hsame, heq] at heq'
  rw [Except.ok.inj heq']

def smallParam : Param where
  capacity := 8
  minMatchWindowSize := 1
  maxMatchWindowSize := 1
  branchLength := 2
  draftTokenNum := 2
  batchDraftTokenNum _ := none
  matchFunc := Trie.matchBFS ⟨8, 1, 1, 2, 2, fun _ => none, fun _ _ _ => ⟨[], []⟩⟩ (fun _ _ => 1) id

/-- A reset between two rounds; in the second the worker takes a vector while others are handed
over, and has inserted all of them before the owner looks at the queue. -/
def insertedScript : List CacheEvent :=
  [.enqueue [1, 2], .dequeue, .insert, .synchronize, .reset,
    .enqueue [1, 3], .enqueue [3, 1], .dequeue, .enqueue [1, 2], .insert, .dequeue, .insert,
    .dequeue, .insert, .synchronize]

theorem drafts_after_synchronize_inserted :
    ∃ s, runEvents (step smallParam) start insertedScript = .ok s ∧
      s.handedOver = [[1, 3], [3, 1], [1, 2]] ∧
      ∃ trie, Trie.insertAll smallParam .empty s.handedOver = .ok trie ∧
        ∀ tokens, s.trie.batchMatch smallParam tokens = trie.batchMatch smallParam tokens :=
  exists_runEvents_imp (p := fun s => s.handedOver = [[1, 3], [3, 1], [1, 2]] ∧
      s.synchronized = true) (by rfl) (by decide +kernel)
    fun _ hreach h => ⟨h.1, (drafts_after_synchronize hreach h.2).1⟩

/-- The queue is empty while the worker still waits for the mutex. -/
def missedScript : List CacheEvent := [.enqueue [1, 2], .dequeue, .synchronize]

theorem draft_missed_after_synchronize :
    ∃ s, Reachable (step smallParam) (· = start) (fun _ _ => True) s ∧ s.synchronized = true ∧
      ∃ trie, Trie.insertAll smallParam .empty s.handedOver = .ok trie ∧
        s.trie.batchMatch smallParam [[1]] ≠ trie.batchMatch smallParam [[1]] :=
  exists_reachable rfl missedScript (by decide +kernel)

end Cache

end LLM42.Ngram
