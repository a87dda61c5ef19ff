import Mathlib.Algebra.Order.Group.Int

/-! # Grammar masks for a draft tree

All tokens of a draft tree are verified in one forward pass, so each node needs its vocabulary mask
beforehand. `traverse_tree` walks the tree depth first with the request's own grammar object: it
accepts a node's token, fills the node's row, visits the children and rolls the token back. -/

namespace LLM42.Speculative

variable {σ : Type} {vocabSize : Option ℕ}

abbrev MaskRow := ℕ → BitVec 32

abbrev Bitmask := ℕ → MaskRow

def MaskRow.allows (row : MaskRow) (token : ℕ) : Bool :=
  row (token / 32) &&& 1#32 <<< (token % 32) != 0

def MaskRow.allocated : MaskRow := fun _ => BitVec.allOnes 32

theorem allows_allocated (token : ℕ) : MaskRow.allocated.allows token = true := by
  have hbit : ∀ i < 32, 1#32 <<< i ≠ 0 := by decide
  simp only [MaskRow.allows, MaskRow.allocated, BitVec.allOnes_and, bne_iff_ne]
  exact hbit _ (Nat.mod_lt token (by decide))

def inVocab (vocabSize : Option ℕ) (token : ℕ) : Bool :=
  vocabSize.all fun size => size == 0 || token < size

/-- A grammar object with states `σ`: the operations the traversal calls and what they promise,
`allows s` being the tokens the grammar allows next in state `s`. -/
structure GrammarObject (σ : Type) (vocabSize : Option ℕ) where
  acceptToken : σ → ℕ → σ
  rollback : σ → ℕ → σ
  isTerminated : σ → Bool
  fillVocabMask : σ → Bitmask → ℕ → Bitmask
  allows : σ → ℕ → Bool
  rollback_accept : ∀ s token, isTerminated s = false → allows s token →
    rollback (acceptToken s token) 1 = s
  fill_other : ∀ s mask i j, j ≠ i → fillVocabMask s mask i j = mask j
  fill_self : ∀ s mask i token, isTerminated s = false → mask i = .allocated →
    inVocab vocabSize token → (fillVocabMask s mask i i).allows token = allows s token

structure ReasonerState (σ : Type) where
  grammar : σ
  tokensAfterThinkEnd : ℤ

def transferState (thinkEndId : ℕ) (n : ℤ) (token : ℕ) : ℤ :=
  if n = -1 ∧ token = thinkEndId then 0 else if 0 ≤ n then n + 1 else n

def rollbackState (n : ℤ) : ℤ :=
  if n = 0 then -1 else if 0 < n then n - 1 else n

/-- `ReasonerGrammarObject`: the wrapped grammar sees no token until thinking has ended, and until
then every token is allowed. -/
def reasonerGrammarObject (G : GrammarObject σ vocabSize) (thinkEndId : ℕ) :
    GrammarObject (ReasonerState σ) vocabSize where
  acceptToken s token :=
    ⟨if 0 ≤ s.tokensAfterThinkEnd then G.acceptToken s.grammar token else s.grammar,
      transferState thinkEndId s.tokensAfterThinkEnd token⟩
  rollback s k :=
    let stepsAfterThink := min (k : ℤ) s.tokensAfterThinkEnd
    ⟨if 0 < stepsAfterThink then G.rollback s.grammar stepsAfterThink.toNat else s.grammar,
      rollbackState^[k] s.tokensAfterThinkEnd⟩
  isTerminated s := G.isTerminated s.grammar
  fillVocabMask s mask idx :=
    if 0 ≤ s.tokensAfterThinkEnd then G.fillVocabMask s.grammar mask idx else mask
  allows s token := s.tokensAfterThinkEnd < 0 || G.allows s.grammar token
  rollback_accept := by
    rintro ⟨g, n⟩ token hopen hallow
    by_cases hn : 0 ≤ n
    · have hg := G.rollback_accept g token hopen (by simpa [Int.not_lt.mpr hn] using hallow)
      have hne : n ≠ -1 := by omega
      have hzero : n + 1 ≠ 0 := by omega
      have hpos : 0 < n + 1 := by omega
      simp [transferState, rollbackState, hn, hne, hg, hpos, hzero]
    · by_cases hend : n = -1 ∧ token = thinkEndId
      · simp [transferState, rollbackState, hend]
      · have hpos : ¬ 0 < n := by omega
        have hzero : n ≠ 0 := by omega
        simp [transferState, rollbackState, hn, hend, hpos, hzero]
  fill_other s mask i j hj := by
    split
    · exact G.fill_other _ mask i j hj
    · rfl
  fill_self s mask i token hopen hmask hin := by
    split
    next hn => simpa [Int.not_lt.mpr hn] using G.fill_self _ mask i token hopen hmask hin
    next hn => simp [hmask, allows_allocated, Int.not_le.mp hn]

/-- A draft tree in first-child/next-sibling form: `nil` is the −1 of the source, a node has its
position, its draft token, `retrieve_next_token` and `retrieve_next_sibling`. -/
inductive DraftTree
  | nil
  | node (curr token : ℕ) (nextToken nextSibling : DraftTree)

def DraftTree.positions : DraftTree → List ℕ
  | nil => []
  | node curr _ nextToken nextSibling => curr :: (nextToken.positions ++ nextSibling.positions)

section
variable (G : GrammarObject σ vocabSize)

/-- The walk from a node, with the row of its parent; position 0 is the root. -/
def dfs : DraftTree → ℕ → σ × Bitmask → σ × Bitmask
  | .nil, _, state => state
  | .node curr token nextToken nextSibling, parentPos, (s, mask) =>
    let visit (s : σ) :=
      if G.isTerminated s then (s, mask) else dfs nextToken curr (s, G.fillVocabMask s mask curr)
    dfs nextSibling parentPos <|
      if curr = 0 then visit s
      else if inVocab vocabSize token && (mask parentPos).allows token then
        let (s, mask) := visit (G.acceptToken s token)
        (G.rollback s 1, mask)
      else (s, mask)

def traverseTree (tree : DraftTree) (s : σ) (mask : Bitmask) : σ × Bitmask :=
  dfs G tree 0 (s, mask)

/-- From the state `s` at the parent, tokens allowed one after another lead to position `p` and state
`s'`, none but the last ending the grammar. -/
def Reached : DraftTree → σ → ℕ → σ → Prop
  | .nil, _, _, _ => False
  | .node curr token nextToken nextSibling, s, p, s' =>
    inVocab vocabSize token ∧ G.allows s token ∧
        (p = curr ∧ s' = G.acceptToken s token ∨
          G.isTerminated (G.acceptToken s token) = false ∧
            Reached nextToken (G.acceptToken s token) p s') ∨
      Reached nextSibling s p s'

/-- A row holds exactly the tokens allowed in state `s`, unless the grammar has ended there. -/
def RowOf (row : MaskRow) (s : σ) : Prop :=
  G.isTerminated s = false → ∀ token, inVocab vocabSize token → row.allows token = G.allows s token

/-- A walk over `positions` ends in the state `s`, leaves the other rows alone and makes the row of
whatever is reached exact. -/
def Fills (positions : List ℕ) (reached : ℕ → σ → Prop) (s : σ) (mask : Bitmask)
    (result : σ × Bitmask) : Prop :=
  ∃ mask', result = (s, mask') ∧ (∀ p ∉ positions, mask' p = mask p) ∧
    ∀ p s', reached p s' → RowOf G (mask' p) s'

/-- What `dfs` does from the state `s` at the parent. -/
def Walked (tree : DraftTree) : Prop :=
  ∀ parent s mask, parent ∉ tree.positions → G.isTerminated s = false →
    (∀ p ∈ tree.positions, mask p = .allocated) → RowOf G (mask parent) s →
    Fills G tree.positions (Reached G tree s) s mask (dfs G tree parent (s, mask))

end

variable {G : GrammarObject σ vocabSize}

theorem Reached.mem {tree : DraftTree} {s s' : σ} {p : ℕ} (h : Reached G tree s p s') :
    p ∈ tree.positions := by
  induction tree generalizing s with
  | nil => exact h.elim
  | node curr token nextToken nextSibling ih ih' =>
    simp only [DraftTree.positions, List.mem_cons, List.mem_append]
    rcases h with ⟨-, -, h | h⟩ | h
    · exact .inl h.1
    · exact .inr (.inl (ih h.2))
    · exact .inr (.inr (ih' h))

/-- Filling the row of `curr` and walking its children, with the grammar in state `s` after `curr`. -/
theorem Walked.visit {tree : DraftTree} (h : Walked G tree) {curr : ℕ} (hc : curr ∉ tree.positions)
    (s : σ) {mask : Bitmask} (hmask : ∀ p ∈ curr :: tree.positions, mask p = .allocated) :
    Fills G (curr :: tree.positions)
      (fun p s' => p = curr ∧ s' = s ∨ G.isTerminated s = false ∧ Reached G tree s p s') s mask
      (if G.isTerminated s then (s, mask) else dfs G tree curr (s, G.fillVocabMask s mask curr)) := by
  cases hterm : G.isTerminated s with
  | true =>
    refine ⟨mask, rfl, fun _ _ => rfl, ?_⟩
    rintro p s' (⟨rfl, rfl⟩ | hp)
    · intro hopen
      simp [hterm] at hopen
    · simp at hp
  | false =>
    have hother : ∀ p ≠ curr, G.fillVocabMask s mask curr p = mask p := G.fill_other s mask curr
    have hrow : RowOf G (G.fillVocabMask s mask curr curr) s := fun hopen token hin =>
      G.fill_self s mask curr token hopen (hmask curr (by simp)) hin
    obtain ⟨mask', hwalk, hframe, hrows⟩ := h curr s _ hc hterm
      (fun p hp => (hother p (by rintro rfl; exact hc hp)).trans (hmask p (by simp [hp]))) hrow
    refine ⟨mask', hwalk, fun p hp => ?_, ?_⟩
    · rw [List.mem_cons, not_or] at hp
      rw [hframe p hp.2, hother p hp.1]
    · rintro p s' (⟨rfl, rfl⟩ | hp)
      · rwa [hframe p hc]
      · exact hrows p s' hp.2

-- By induction on the tree: the children are walked from the state after their parent, and the
-- siblings from the state the rollback restores.
theorem walked_of_nodup (tree : DraftTree) (hnodup : tree.positions.Nodup)
    (hroot : 0 ∉ tree.positions) : Walked G tree := by
  induction tree with
  | nil => exact fun _ _ mask _ _ _ _ => ⟨mask, rfl, fun _ _ => rfl, nofun⟩
  | node curr token nextToken nextSibling ih ih' =>
    intro parent s mask hparent hopen hmask hrow
    simp only [DraftTree.positions, List.nodup_cons, List.nodup_append, List.mem_cons,
      List.mem_append, not_or] at hnodup hroot hparent
    obtain ⟨⟨hcb, hcs⟩, hnb, hns, hdisj⟩ := hnodup
    have hapart : ∀ p ∈ curr :: nextToken.positions, p ∉ nextSibling.positions := by
      intro p hp hp'
      rcases List.mem_cons.mp hp with rfl | hp
      · exact hcs hp'
      · exact hdisj p hp p hp' rfl
    -- the node itself with its children
    obtain ⟨mask₁, hvisit, hframe, hrows⟩ : Fills G (curr :: nextToken.positions)
        (fun p s' => inVocab vocabSize token ∧ G.allows s token ∧
          (p = curr ∧ s' = G.acceptToken s token ∨
            G.isTerminated (G.acceptToken s token) = false ∧
              Reached G nextToken (G.acceptToken s token) p s')) s mask
        (if inVocab vocabSize token && (mask parent).allows token then
          let x := if G.isTerminated (G.acceptToken s token) then (G.acceptToken s token, mask)
            else dfs G nextToken curr (G.acceptToken s token, G.fillVocabMask _ mask curr)
          (G.rollback x.1 1, x.2)
        else (s, mask)) := by
      split
      next haccept =>
        obtain ⟨hin, hallow⟩ := Bool.and_eq_true_iff.mp haccept
        rw [hrow hopen _ hin] at hallow
        obtain ⟨mask₁, hvisit, hframe, hrows⟩ := (ih hnb hroot.2.1).visit hcb
          (G.acceptToken s token) fun p hp => hmask p (List.mem_append_left nextSibling.positions hp)
        refine ⟨mask₁, ?_, hframe, fun p s' hp => hrows p s' hp.2.2⟩
        rw [hvisit]
        exact Prod.ext (G.rollback_accept s token hopen hallow) rfl
      next haccept =>
        refine ⟨mask, rfl, fun _ _ => rfl, fun p s' hp => absurd ?_ haccept⟩
        rw [hrow hopen _ hp.1, hp.1, hp.2.1, Bool.and_self]
    obtain ⟨mask₂, hwalk, hframe₂, hrows₂⟩ := ih' hns hroot.2.2 parent s mask₁ hparent.2.2 hopen
      (fun p hp => (hframe p fun hp' => hapart p hp' hp).trans
        (hmask p (List.mem_append_right (curr :: nextToken.positions) hp)))
      (by rwa [hframe parent (by simp [hparent])])
    refine ⟨mask₂, ?_, fun p hp => ?_, ?_⟩
    · rw [dfs, if_neg (Ne.symm hroot.1)]
      exact (congrArg _ hvisit).trans hwalk
    · simp only [DraftTree.positions, List.mem_cons, List.mem_append, not_or] at hp
      rw [hframe₂ p hp.2.2, hframe p (by simp [hp])]
    · rintro p s' (hp | hp)
      · rw [hframe₂ p (hapart p (by
          rcases hp.2.2 with h | h
          · simp [h.1]
          · simp [h.2.mem]))]
        exact hrows p s' hp
      · exact hrows₂ p s' hp

/-- A traversal from any state leaves the state as it was and gives the root, and every position that
allowed tokens lead to before the grammar ends, a row with exactly the tokens allowed there. -/
def TraversedExactly (G : GrammarObject σ vocabSize) (token : ℕ) (children : DraftTree)
    (mask : Bitmask) : Prop :=
  ∀ s, ∃ mask', traverseTree G (.node 0 token children .nil) s mask = (s, mask') ∧
    RowOf G (mask' 0) s ∧
    ∀ p s', G.isTerminated s = false → Reached G children s p s' → RowOf G (mask' p) s'

theorem traversedExactly {token : ℕ} {children : DraftTree}
    (hnodup : (DraftTree.node 0 token children .nil).positions.Nodup) {mask : Bitmask}
    (hmask : ∀ p, mask p = .allocated) : TraversedExactly G token children mask := by
  intro s
  rw [DraftTree.positions, DraftTree.positions, List.append_nil, List.nodup_cons] at hnodup
  obtain ⟨mask', hvisit, -, hrows⟩ := (walked_of_nodup children hnodup.2 hnodup.1).visit hnodup.1 s
    fun p _ => hmask p
  exact ⟨mask', hvisit, hrows 0 s (.inl ⟨rfl, rfl⟩), fun p s' hopen hp => hrows p s' (.inr ⟨hopen, hp⟩)⟩

/-! ## Behind the reasoning wrapper -/

/-- The draft tokens on the way from the root's children to a position. -/
def DraftTree.Path : DraftTree → List ℕ → ℕ → Prop
  | .nil, _, _ => False
  | .node curr token nextToken nextSibling, path, p =>
    (∃ rest, path = token :: rest ∧ (rest = [] ∧ p = curr ∨ nextToken.Path rest p)) ∨
      nextSibling.Path path p

/-- Each token of a path is allowed after those before it, and none of these ends the grammar. -/
def Follows (vocabSize : Option ℕ) (allows : List ℕ → ℕ → Bool) (terminated : List ℕ → Bool)
    (path : List ℕ) : Prop :=
  ∀ i : Fin path.length, inVocab vocabSize path[i] ∧ allows (path.take i) path[i] ∧
    terminated (path.take i) = false
deriving Decidable

/-- The tokens that belong to the grammar: all of them if the model does not think at the start, else
those behind the first think-end token. Without one there are none, not even an empty list. -/
def seenTokens (thinkEndId : ℕ) (thinking : Bool) : List ℕ → Option (List ℕ)
  | [] => if thinking then none else some []
  | token :: rest =>
    if thinking then
      if token = thinkEndId then some rest else seenTokens thinkEndId true rest
    else some (token :: rest)

/-- The state after the tokens of a path. -/
def GrammarObject.after (G : GrammarObject σ vocabSize) (s : σ) (path : List ℕ) : σ :=
  path.foldl G.acceptToken s

section
variable (G : GrammarObject σ vocabSize) (thinkEndId : ℕ) (thinking : Bool) (g : σ)

/-- All tokens while thinking goes on, then what the grammar allows after the tokens it has seen. -/
def allowedAfter (path : List ℕ) (token : ℕ) : Bool :=
  (seenTokens thinkEndId thinking path).all fun seen => G.allows (G.after g seen) token

def terminatedAfter (path : List ℕ) : Bool :=
  G.isTerminated (G.after g ((seenTokens thinkEndId thinking path).getD []))

end

/-- A traversal behind the wrapper leaves the state as it was, and the row of every position that
allowed tokens lead to before the grammar ends holds exactly the tokens that the wrapped grammar
allows there, or all while thinking goes on. -/
def ReasonedExactly (G : GrammarObject σ vocabSize) (thinkEndId token : ℕ) (children : DraftTree)
    (mask : Bitmask) : Prop :=
  ∀ g n, -1 ≤ n → ∃ mask',
    traverseTree (reasonerGrammarObject G thinkEndId) (.node 0 token children .nil) ⟨g, n⟩ mask =
      (⟨g, n⟩, mask') ∧
    ∀ path p, (path = [] ∧ p = 0 ∨ children.Path path p) →
      Follows vocabSize (allowedAfter G thinkEndId (n = -1) g)
        (terminatedAfter G thinkEndId (n = -1) g) path →
      terminatedAfter G thinkEndId (n = -1) g path = false →
      ∀ token, inVocab vocabSize token →
        (mask' p).allows token = allowedAfter G thinkEndId (n = -1) g path token

@[simp] theorem seenTokens_false (thinkEndId : ℕ) (path : List ℕ) :
    seenTokens thinkEndId false path = some path := by
  cases path <;> rfl

section Wrapper

variable {thinkEndId : ℕ} {n : ℤ} (hn : -1 ≤ n) (g : σ) (path : List ℕ)

include hn

variable (thinkEndId) in
/-- The wrapped grammar has accepted the tokens that belong to it, and the counter tells whether
thinking has ended. -/
theorem after_reasonerGrammarObject :
    ((reasonerGrammarObject G thinkEndId).after ⟨g, n⟩ path).grammar =
        G.after g ((seenTokens thinkEndId (n = -1) path).getD []) ∧
      (0 ≤ ((reasonerGrammarObject G thinkEndId).after ⟨g, n⟩ path).tokensAfterThinkEnd ↔
        (seenTokens thinkEndId (n = -1) path).isSome) := by
  simp only [GrammarObject.after]
  induction path generalizing g n with
  | nil =>
    by_cases hthink : n = -1
    · simp [seenTokens, hthink]
    · have h0 : 0 ≤ n := by omega
      simp [hthink, h0]
  | cons token path ih =>
    rw [List.foldl_cons]
    by_cases hthink : n = -1
    · subst hthink
      by_cases hend : token = thinkEndId
      · -- the grammar does not see the think-end token itself
        simpa [reasonerGrammarObject, transferState, seenTokens, hend] using
          ih (n := 0) (by decide) g
      · simpa [reasonerGrammarObject, transferState, seenTokens, hend] using
          ih (n := -1) (by decide) g
    · have h0 : 0 ≤ n := by omega
      have hnext : n + 1 ≠ -1 := by omega
      simpa [reasonerGrammarObject, transferState, hthink, h0, hnext] using
        ih (n := n + 1) (by omega) (G.acceptToken g token)

theorem allows_after (token : ℕ) : (reasonerGrammarObject G thinkEndId).allows
      ((reasonerGrammarObject G thinkEndId).after ⟨g, n⟩ path) token =
    allowedAfter G thinkEndId (n = -1) g path token := by
  obtain ⟨hgrammar, hended⟩ := after_reasonerGrammarObject (G := G) thinkEndId hn g path
  generalize (reasonerGrammarObject G thinkEndId).after ⟨g, n⟩ path = s at *
  cases hseen : seenTokens thinkEndId (n = -1) path with
  | none =>
    have hthink : s.tokensAfterThinkEnd < 0 := by simpa [hseen] using hended
    simp [reasonerGrammarObject, allowedAfter, hseen, hthink]
  | some seen =>
    have hthink : 0 ≤ s.tokensAfterThinkEnd := by simpa [hseen] using hended
    simp [reasonerGrammarObject, allowedAfter, hseen, Int.not_lt.mpr hthink, hgrammar]

theorem isTerminated_after : (reasonerGrammarObject G thinkEndId).isTerminated
      ((reasonerGrammarObject G thinkEndId).after ⟨g, n⟩ path) =
    terminatedAfter G thinkEndId (n = -1) g path :=
  congrArg G.isTerminated (after_reasonerGrammarObject thinkEndId hn g path).1

end Wrapper

theorem DraftTree.Path.length_pos {tree : DraftTree} {path : List ℕ} {p : ℕ}
    (h : tree.Path path p) : 0 < path.length := by
  induction tree with
  | nil => exact h.elim
  | node curr token nextToken nextSibling ih ih' =>
    rcases h with ⟨rest, rfl, -⟩ | h
    · simp
    · exact ih' h

/-- Tokens allowed one after another lead to the position at the end of their path. -/
theorem reached_of_path {tree : DraftTree} {path : List ℕ} {p : ℕ} (hpath : tree.Path path p) {s : σ}
    (hfollows : Follows vocabSize (fun path => G.allows (G.after s path))
      (fun path => G.isTerminated (G.after s path)) path) :
    Reached G tree s p (G.after s path) := by
  induction tree generalizing path s with
  | nil => exact hpath.elim
  | node curr token nextToken nextSibling ih ih' =>
    rcases hpath with ⟨rest, rfl, hrest⟩ | hpath
    · obtain ⟨hin, hallow, -⟩ := hfollows ⟨0, by simp⟩
      refine .inl ⟨hin, hallow, ?_⟩
      rcases hrest with ⟨rfl, rfl⟩ | hrest
      · exact .inl ⟨rfl, rfl⟩
      · have htail := fun i : Fin rest.length => hfollows i.succ
        exact .inr ⟨(htail ⟨0, hrest.length_pos⟩).2.2, ih hrest htail⟩
    · exact .inr (ih' hpath hfollows)

theorem reasonedExactly {thinkEndId token : ℕ} {children : DraftTree}
    (hnodup : (DraftTree.node 0 token children .nil).positions.Nodup) {mask : Bitmask}
    (hmask : ∀ p, mask p = .allocated) : ReasonedExactly G thinkEndId token children mask := by
  intro g n hn
  obtain ⟨mask', hwalk, hroot, hrows⟩ := traversedExactly
    (G := reasonerGrammarObject G thinkEndId) hnodup hmask ⟨g, n⟩
  refine ⟨mask', hwalk, fun path p hpath hfollows hopen token hin => ?_⟩
  simp only [Follows, ← allows_after hn, ← isTerminated_after hn] at hfollows hopen ⊢
  rcases hpath with ⟨rfl, rfl⟩ | hpath
  · exact hroot hopen token hin
  · have hstart := (hfollows ⟨0, hpath.length_pos⟩).2.2
    exact hrows p _ hstart (reached_of_path hpath hfollows) hopen token hin

/-- The masks of a draft tree are exact and the walk leaves no trace: for a grammar, and for the same
grammar behind the reasoning wrapper, thinking or not, with the think-end token anywhere. -/
theorem traverseTree_exact (G : GrammarObject σ vocabSize) (token : ℕ) (children : DraftTree)
    (hnodup : (DraftTree.node 0 token children .nil).positions.Nodup) (mask : Bitmask)
    (hmask : ∀ p, mask p = .allocated) : TraversedExactly G token children mask ∧
      ∀ thinkEndId, ReasonedExactly G thinkEndId token children mask :=
  ⟨traversedExactly hnodup hmask, fun _ => reasonedExactly hnodup hmask⟩

/-- A grammar of two tokens that wants token 1 twice. -/
def twoOnes : GrammarObject ℕ (some 2) where
  acceptToken s _ := s + 1
  rollback s k := s - k
  isTerminated s := s == 2
  fillVocabMask _ mask idx := Function.update mask idx fun _ => 2
  allows _ token := token == 1
  rollback_accept _ _ _ _ := rfl
  fill_other _ _ _ _ hj := Function.update_of_ne hj _ _
  fill_self _ mask i token _ _ hin := by
    have hrow : ∀ token < 2, MaskRow.allows (fun _ => 2) token = (token == 1) := by decide
    rw [Function.update_self]
    exact hrow token (by simpa [inVocab] using hin)

/-- A model that thinks at the start: the root and the token beside the think-end token have all
tokens, and behind the think-end token only what `twoOnes` wants next. -/
theorem traverseTree_exact_twoOnes : ∃ mask',
    traverseTree (reasonerGrammarObject twoOnes 0)
      (.node 0 7 (.node 1 0 (.node 2 1 .nil .nil) (.node 3 1 .nil .nil)) .nil) ⟨0, -1⟩
      (fun _ => .allocated) = (⟨0, -1⟩, mask') ∧
    (mask' 0).allows 0 = true ∧ (mask' 1).allows 0 = false ∧ (mask' 1).allows 1 = true ∧
      (mask' 2).allows 0 = false ∧ (mask' 3).allows 0 = true := by
  obtain ⟨mask', hwalk, hrows⟩ := (traverseTree_exact twoOnes 7
    (.node 1 0 (.node 2 1 .nil .nil) (.node 3 1 .nil .nil)) (by decide) _ fun _ => rfl).2 0 0 (-1)
    (by decide)
  refine ⟨mask', hwalk, ?_, ?_, ?_, ?_, ?_⟩
  · exact hrows [] 0 (.inl ⟨rfl, rfl⟩) (by decide) (by decide) 0 (by decide)
  · exact hrows [0] 1 (by simp [DraftTree.Path]) (by decide) (by decide) 0 (by decide)
  · exact hrows [0] 1 (by simp [DraftTree.Path]) (by decide) (by decide) 1 (by decide)
  · exact hrows [0, 1] 2 (by simp [DraftTree.Path]) (by decide) (by decide) 0 (by decide)
  · exact hrows [1] 3 (by simp [DraftTree.Path]) (by decide) (by decide) 0 (by decide)

end LLM42.Speculative
