import Mathlib.Algebra.GroupWithZero.Nat
import Mathlib.Data.List.Infix

/-! # Radix trees with reference counts

A compressed prefix tree whose edges carry one value for each symbol and a lock count. A forest is
the child table of one node: its first child, what is below that child, and the other children.
Lookup and insertion split an edge where a key leaves it. Seen symbol by symbol, a split changes
nothing: the same values are stored and every stored prefix keeps its lock count. -/

namespace LLM42.Library

open List

variable {κ ν : Type*} [DecidableEq κ]

def keyMatch : List κ → List κ → ℕ
  | a :: as, b :: bs => if a = b then keyMatch as bs + 1 else 0
  | _, _ => 0

section KeyMatch

@[simp] theorem keyMatch_nil_left (bs : List κ) : keyMatch [] bs = 0 := rfl

theorem keyMatch_cons (a b : κ) (as bs : List κ) :
    keyMatch (a :: as) (b :: bs) = if a = b then keyMatch as bs + 1 else 0 := rfl

@[simp] theorem keyMatch_nil_right (as : List κ) : keyMatch as [] = 0 := by
  cases as <;> rfl

theorem keyMatch_comm (as bs : List κ) : keyMatch as bs = keyMatch bs as := by
  induction as generalizing bs with
  | nil => simp
  | cons a as ih =>
    cases bs with
    | nil => simp
    | cons b bs => simp only [keyMatch, ih, eq_comm]

theorem keyMatch_le_left (as bs : List κ) : keyMatch as bs ≤ as.length := by
  fun_induction keyMatch as bs with
  | case1 as a bs ih => simpa using ih
  | case2 => exact Nat.zero_le _
  | case3 => exact Nat.zero_le _

theorem keyMatch_le_right (as bs : List κ) : keyMatch as bs ≤ bs.length :=
  keyMatch_comm as bs ▸ keyMatch_le_left bs as

theorem keyMatch_take (as bs : List κ) (n : ℕ) :
    keyMatch (as.take n) bs = min n (keyMatch as bs) := by
  induction n generalizing as bs with
  | zero => simp
  | succ n ih =>
    cases as with
    | nil => simp
    | cons a as =>
      cases bs with
      | nil => simp
      | cons b bs =>
        simp only [take_succ_cons, keyMatch]
        split
        · rw [ih]
          omega
        · simp

variable {as bs : List κ}

theorem keyMatch_drop {n : ℕ} (h : n ≤ keyMatch as bs) :
    keyMatch (as.drop n) (bs.drop n) = keyMatch as bs - n := by
  fun_induction keyMatch as bs generalizing n with
  | case1 as a bs ih =>
    cases n with
    | zero => simp [keyMatch]
    | succ n => simpa using ih (by omega)
  | case2 a as b bs hab =>
    obtain rfl := Nat.le_zero.mp h
    simp [keyMatch, hab]
  | case3 as bs hne =>
    obtain rfl := Nat.le_zero.mp h
    grind [keyMatch]

theorem head?_drop_keyMatch (ha : keyMatch as bs < as.length) :
    (as.drop (keyMatch as bs)).head? ≠ (bs.drop (keyMatch as bs)).head? := by
  fun_induction keyMatch as bs with
  | case1 as a bs ih => exact ih (by simpa using ha)
  | case2 a as b bs hab => simpa using hab
  | case3 as bs hne =>
    cases as <;> cases bs <;> grind

theorem keyMatch_pos (h : as.head? = bs.head?) (hb : bs ≠ []) : 0 < keyMatch as bs := by
  fun_cases keyMatch as bs with
  | case1 => exact Nat.succ_pos _
  | case2 a as b bs hab => simp [hab] at h
  | case3 hne => cases as <;> cases bs <;> grind

theorem head?_eq_of_keyMatch_pos (h : 0 < keyMatch as bs) : as.head? = bs.head? ∧ bs ≠ [] := by
  fun_cases keyMatch as bs with
  | case1 => simp
  | case2 a as b bs hab => simp [keyMatch, hab] at h
  | case3 hne => grind [keyMatch]

theorem keyMatch_eq_length_iff : keyMatch as bs = as.length ↔ as <+: bs := by
  fun_induction keyMatch as bs with
  | case1 as a bs ih => simp [cons_prefix_cons, ih]
  | case2 a as b bs hab => simp [cons_prefix_cons, hab]
  | case3 as bs hne => cases as <;> cases bs <;> grind

theorem take_keyMatch (as bs : List κ) : as.take (keyMatch as bs) = bs.take (keyMatch as bs) := by
  fun_induction keyMatch as bs with
  | case1 as a bs ih => simp [ih]
  | case2 => rfl
  | case3 => rfl

theorem length_le_keyMatch {q as bs : List κ} (ha : q <+: as) (hb : q <+: bs) :
    q.length ≤ keyMatch as bs := by
  induction q generalizing as bs with
  | nil => simp
  | cons t q ih =>
    obtain ⟨as, rfl⟩ := ha
    obtain ⟨bs, rfl⟩ := hb
    have := ih (prefix_append q as) (prefix_append q bs)
    simp only [cons_append, keyMatch_cons, if_true, length_cons]
    omega

end KeyMatch

/-- The child table of a node: one child with its edge, lock count and own children, then the
remaining children. An edge has as many values as symbols. -/
inductive RadixForest (κ ν : Type*) where
  | nil
  | node (key : List κ) (value : List ν) (len : value.length = key.length) (lockRef : ℕ)
      (children siblings : RadixForest κ ν)

namespace RadixForest

def values : RadixForest κ ν → List ν
  | nil => []
  | node _ v _ _ ch sib => v ++ ch.values ++ sib.values

/-- A child is followed when its edge begins with the first symbol of the key. -/
abbrev Follows (edge key : List κ) : Prop := edge.head? = key.head? ∧ key ≠ []

/-- A node cut after `n` symbols; `rest` are further children of the upper half. -/
def splitNode (k : List κ) (v : List ν) (h : v.length = k.length) (l : ℕ)
    (ch rest sib : RadixForest κ ν) (n : ℕ) : RadixForest κ ν :=
  node (k.take n) (v.take n) (by simp [h]) l
    (node (k.drop n) (v.drop n) (by simp [h]) l ch rest) sib

/-- Longest stored beginning of a key: its values, and the tree with a boundary where it ends. -/
def matchPrefix : RadixForest κ ν → List κ → List ν × RadixForest κ ν
  | nil, _ => ([], nil)
  | node k v h l ch sib, key =>
    if Follows k key then
      let n := keyMatch k key
      if n < k.length then (v.take n, splitNode k v h l ch nil sib n)
      else
        let (vs, ch') := matchPrefix ch (key.drop n)
        (v ++ vs, node k v h l ch' sib)
    else
      let (vs, sib') := matchPrefix sib key
      (vs, node k v h l ch sib')

def leaf (key : List κ) (val : List ν) (h : val.length = key.length) : RadixForest κ ν :=
  if key = [] then nil else node key val h 0 nil nil

/-- Store a key; the number is the length of the part that was stored before. -/
def insert : RadixForest κ ν → (key : List κ) → (val : List ν) → val.length = key.length →
    ℕ × RadixForest κ ν
  | nil, key, val, h => (0, leaf key val h)
  | node k v hk l ch sib, key, val, h =>
    if Follows k key then
      let n := keyMatch k key
      if n < k.length then
        (n, splitNode k v hk l ch (leaf (key.drop n) (val.drop n) (by simp [h])) sib n)
      else
        let (m, ch') := insert ch (key.drop n) (val.drop n) (by simp [h])
        (n + m, node k v hk l ch' sib)
    else
      let (m, sib') := insert sib key val h
      (m, node k v hk l ch sib')

/-- Change the lock count of every node on the way to `path`. -/
def adjustLock (f : ℕ → ℕ) : RadixForest κ ν → List κ → RadixForest κ ν
  | nil, _ => nil
  | node k v h l ch sib, path =>
    if Follows k path then
      if keyMatch k path = k.length then
        node k v h (f l) (adjustLock f ch (path.drop k.length)) sib
      else node k v h l ch sib
    else node k v h l ch (adjustLock f sib path)

/-- Remove the unlocked leaf at `path`, if there is one, and return its values. -/
def deleteLeaf : RadixForest κ ν → List κ → Option (List ν × RadixForest κ ν)
  | nil, _ => none
  | node k v h l ch sib, path =>
    if Follows k path then
      if keyMatch k path = k.length then
        if path.length = k.length then
          match ch with
          | nil => if l = 0 then some (v, sib) else none
          | node .. => none
        else (deleteLeaf ch (path.drop k.length)).map fun x => (x.1, node k v h l x.2 sib)
      else none
    else (deleteLeaf sib path).map fun x => (x.1, node k v h l ch x.2)

def depth : RadixForest κ ν → List κ → ℕ
  | nil, _ => 0
  | node k _ _ _ ch sib, key =>
    if Follows k key then
      if keyMatch k key < k.length then keyMatch k key
      else keyMatch k key + depth ch (key.drop (keyMatch k key))
    else depth sib key

/-- Lock count of the node that holds the last symbol of `q`, zero when `q` is not stored. -/
def lockAt : RadixForest κ ν → List κ → ℕ
  | nil, _ => 0
  | node k _ _ l ch sib, q =>
    if Follows k q then
      if keyMatch k q = q.length then l
      else if keyMatch k q < k.length then 0
      else lockAt ch (q.drop (keyMatch k q))
    else lockAt sib q

/-- Some node ends at `path`, so that a lock on `path` covers exactly its beginnings. -/
def AtBoundary : RadixForest κ ν → List κ → Prop
  | _, [] => True
  | nil, _ :: _ => False
  | node k _ _ _ ch sib, t :: path =>
    if Follows k (t :: path) then
      keyMatch k (t :: path) = k.length ∧ AtBoundary ch ((t :: path).drop k.length)
    else AtBoundary sib (t :: path)

section Values

variable (f : RadixForest κ ν)

omit [DecidableEq κ] in
theorem values_splitNode (k : List κ) (v : List ν) (h : v.length = k.length) (l : ℕ)
    (ch rest sib : RadixForest κ ν) (n : ℕ) :
    (splitNode k v h l ch rest sib n).values = v ++ ch.values ++ rest.values ++ sib.values := by
  simp [splitNode, values, ← append_assoc]

omit [DecidableEq κ] in
theorem values_leaf (key : List κ) (val : List ν) (h : val.length = key.length) :
    (leaf key val h).values = val := by
  unfold leaf
  split
  next hk =>
    rw [hk, length_nil, length_eq_zero_iff] at h
    rw [h, values]
  · simp [values]

theorem values_matchPrefix (key : List κ) : (f.matchPrefix key).2.values = f.values := by
  fun_induction matchPrefix f key with
  | case1 => rfl
  | case2 => simp [values_splitNode, values]
  | case3 _ _ _ _ _ _ _ _ _ _ _ _ heq ih => simp [values, ← ih, heq]
  | case4 _ _ _ _ _ _ _ _ _ _ heq ih => simp [values, ← ih, heq]

theorem mem_values_of_mem_matchPrefix {key : List κ} {x : ν} (h : x ∈ (f.matchPrefix key).1) :
    x ∈ f.values := by
  fun_induction matchPrefix f key with
  | case1 => exact h
  | case2 => simp [values, mem_of_mem_take h]
  | case3 k v _ _ _ _ _ _ _ _ vs _ heq ih =>
    rcases mem_append.mp h with h | h
    · simp [values, h]
    · simp [values, ih (heq ▸ h)]
  | case4 _ _ _ _ _ _ _ _ _ _ heq ih => simp [values, ih (heq ▸ h)]

theorem length_matchPrefix (key : List κ) : (f.matchPrefix key).1.length = f.depth key := by
  induction f generalizing key with
  | nil => rfl
  | node k v h l ch sib ihc ihs =>
    unfold matchPrefix depth
    dsimp only
    have hle := keyMatch_le_left k key
    split
    · split
      · simp only [length_take, h]
        omega
      · simp only [length_append, ihc, h]
        omega
    · exact ihs key

theorem insert_fst (key : List κ) (val : List ν) (h : val.length = key.length) :
    (f.insert key val h).1 = f.depth key := by
  induction f generalizing key val with
  | nil => rfl
  | node k v hk l ch sib ihc ihs =>
    unfold insert depth
    dsimp only
    split
    · split
      · rfl
      · rw [ihc]
    · exact ihs key val h

/-- An insertion adds the values past the depth already stored. -/
theorem values_insert (key : List κ) (val : List ν) (h : val.length = key.length) :
    (f.insert key val h).2.values.Perm (val.drop (f.depth key) ++ f.values) := by
  induction f generalizing key val with
  | nil => simp [insert, values_leaf, depth, values]
  | node k v hk l ch sib ihc ihs =>
    classical
    rw [perm_iff_count]
    intro x
    unfold insert depth
    dsimp only
    split
    · split
      · simp only [values_splitNode, values_leaf, values, count_append]
        omega
      · have hc := (ihc (key.drop (keyMatch k key)) (val.drop (keyMatch k key))
          (by simp [h])).count_eq x
        rw [drop_drop] at hc
        simp only [values, count_append] at hc ⊢
        omega
    · have hs := (ihs key val h).count_eq x
      simp only [values, count_append] at hs ⊢
      omega

theorem values_adjustLock (g : ℕ → ℕ) (path : List κ) :
    (f.adjustLock g path).values = f.values := by
  fun_induction adjustLock g f path with
  | case1 => rfl
  | case2 _ _ _ _ _ _ _ _ _ ih => simp [values, ih]
  | case3 => rfl
  | case4 _ _ _ _ _ _ _ _ ih => simp [values, ih]

theorem values_deleteLeaf {path : List κ} {vs : List ν} {f' : RadixForest κ ν}
    (h : f.deleteLeaf path = some (vs, f')) : (vs ++ f'.values).Perm f.values := by
  classical
  rw [perm_iff_count]
  intro x
  fun_induction deleteLeaf f path generalizing vs f' with
  | case1 | case3 | case4 | case6 => cases h
  | case2 =>
    cases h
    simp [values]
  | case5 _ _ _ _ _ _ _ _ _ _ ih | case7 _ _ _ _ _ _ _ _ ih =>
    obtain ⟨⟨vs', rest⟩, hrest, h⟩ := Option.map_eq_some_iff.mp h
    cases h
    have := ih hrest
    simp only [values, count_append] at this ⊢
    omega

end Values

section Locks

variable (f : RadixForest κ ν)

theorem lockAt_leaf (key : List κ) (val : List ν) (h : val.length = key.length) (q : List κ) :
    (leaf key val h).lockAt q = 0 := by
  unfold leaf
  split
  · rfl
  · unfold lockAt
    split_ifs <;> rfl

theorem lockAt_splitNode {k : List κ} {v : List ν} {h : v.length = k.length} {l : ℕ}
    {ch rest sib : RadixForest κ ν} {n : ℕ} (hpos : 0 < n) (hlt : n < k.length)
    (hrest : ∀ q, rest.lockAt q = 0) (q : List κ) :
    (splitNode k v h l ch rest sib n).lockAt q = (node k v h l ch sib).lockAt q := by
  have hhead : (k.take n).head? = k.head? := by
    cases k with
    | nil => simp
    | cons a k =>
      obtain ⟨n, rfl⟩ : ∃ m, n = m + 1 := ⟨n - 1, by omega⟩
      simp
  have hmin := keyMatch_take k q n
  have hq := keyMatch_le_right k q
  have htake : (k.take n).length = n := by simp; omega
  simp only [splitNode, lockAt, Follows, hhead, hmin, htake]
  by_cases hf : k.head? = q.head? ∧ q ≠ []
  · rw [if_pos hf, if_pos hf]
    rcases lt_trichotomy (keyMatch k q) n with hm | hm | hm
    · -- the key leaves the edge above the cut
      rw [Nat.min_eq_right hm.le]
      split_ifs with h1 h2
      · rfl
      · rfl
      · omega
    · -- the key ends or leaves the edge at the cut
      rw [Nat.min_eq_left hm.ge]
      by_cases hlen : n = q.length
      · rw [if_pos hlen, if_pos (hm.trans hlen)]
      · have hne : ¬ ((k.drop n).head? = (q.drop n).head? ∧ q.drop n ≠ []) := by
          have := head?_drop_keyMatch (show keyMatch k q < k.length by omega)
          rw [hm] at this
          tauto
        rw [if_neg hlen, if_neg (by omega), if_neg hne, hrest, if_neg (by omega), if_pos (by omega)]
    · -- the key goes on below the cut
      have hdrop := keyMatch_drop (show n ≤ keyMatch k q by omega)
      have hfol := head?_eq_of_keyMatch_pos (show 0 < keyMatch (k.drop n) (q.drop n) by omega)
      rw [Nat.min_eq_left hm.le, if_neg (by omega), if_neg (by omega), if_pos hfol, hdrop]
      simp only [length_drop, drop_drop]
      by_cases hlen : keyMatch k q = q.length
      · rw [if_pos (by omega), if_pos hlen]
      · rw [if_neg (by omega), if_neg hlen]
        by_cases hfull : keyMatch k q < k.length
        · rw [if_pos (by omega), if_pos hfull]
        · rw [if_neg (by omega), if_neg hfull, show n + (keyMatch k q - n) = keyMatch k q by omega]
  · rw [if_neg hf, if_neg hf]

theorem lockAt_matchPrefix (key q : List κ) : (f.matchPrefix key).2.lockAt q = f.lockAt q := by
  induction f generalizing key q with
  | nil => rfl
  | node k v h l ch sib ihc ihs =>
    unfold matchPrefix
    dsimp only
    split
    next hf =>
      split
      next hn => exact lockAt_splitNode (keyMatch_pos hf.1 hf.2) hn (fun _ => rfl) q
      · simp only [lockAt, ihc]
    · simp only [lockAt, ihs]

theorem lockAt_insert (key : List κ) (val : List ν) (h : val.length = key.length) (q : List κ) :
    (f.insert key val h).2.lockAt q = f.lockAt q := by
  induction f generalizing key val q with
  | nil => exact lockAt_leaf key val h q
  | node k v hk l ch sib ihc ihs =>
    unfold insert
    dsimp only
    split
    next hf =>
      split
      next hn => exact lockAt_splitNode (keyMatch_pos hf.1 hf.2) hn (lockAt_leaf _ _ _) q
      · simp only [lockAt, ihc]
    · simp only [lockAt, ihs]

theorem lockAt_le_deleteLeaf {path : List κ} {vs : List ν} {f' : RadixForest κ ν}
    (h : f.deleteLeaf path = some (vs, f')) (q : List κ) : f.lockAt q ≤ f'.lockAt q := by
  fun_induction deleteLeaf f path generalizing vs f' q with
  | case1 | case3 | case4 | case6 => cases h
  | case2 =>
    cases h
    simp only [lockAt]
    split_ifs <;> omega
  | case5 _ _ _ _ _ _ _ _ _ _ ih | case7 _ _ _ _ _ _ _ _ ih =>
    obtain ⟨⟨vs', rest⟩, hrest, h⟩ := Option.map_eq_some_iff.mp h
    cases h
    have hle := ih hrest
    simp only [lockAt]
    split_ifs <;> first | exact le_rfl | exact hle _

omit [DecidableEq κ] in
theorem follows_iff_of_begins {k q key : List κ} (h : q <+: key) (hq : q ≠ []) :
    Follows k q ↔ Follows k key := by
  obtain ⟨rest, rfl⟩ := h
  cases q with
  | nil => exact absurd rfl hq
  | cons t q => simp [Follows]

omit [DecidableEq κ] in
theorem drop_prefix_drop {q key : List κ} (n : ℕ) (h : q <+: key) : q.drop n <+: key.drop n := by
  obtain ⟨rest, rfl⟩ := h
  rw [drop_append]
  exact prefix_append _ _

theorem lockAt_adjustLock_or (g : ℕ → ℕ) (path q : List κ) :
    (q <+: path ∧ (f.adjustLock g path).lockAt q = g (f.lockAt q)) ∨
      (f.adjustLock g path).lockAt q = f.lockAt q := by
  induction f generalizing path q with
  | nil => exact .inr rfl
  | node k v h l ch sib ihc ihs =>
    unfold adjustLock
    split
    next hf =>
      split
      next hfull =>
        have hk : k <+: path := keyMatch_eq_length_iff.mp hfull
        simp only [lockAt]
        split_ifs with hfq hlen hlt
        · refine .inl ⟨?_, rfl⟩
          rw [keyMatch_comm, keyMatch_eq_length_iff] at hlen
          exact hlen.trans hk
        · exact .inr rfl
        · have hkq : keyMatch k q = k.length := le_antisymm (keyMatch_le_left k q) (not_lt.mp hlt)
          rw [hkq]
          refine (ihc (path.drop k.length) (q.drop k.length)).imp_left fun ⟨hp, he⟩ => ⟨?_, he⟩
          obtain ⟨q', rfl⟩ := keyMatch_eq_length_iff.mp hkq
          obtain ⟨p', rfl⟩ := hk
          simpa using hp
        · exact .inr rfl
      · exact .inr rfl
    next hf =>
    simp only [lockAt]
    split_ifs
    · exact .inr rfl
    · exact .inr rfl
    · exact .inr rfl
    · exact ihs path q

theorem atBoundary_node {k : List κ} {v : List ν} {h : v.length = k.length} {l : ℕ}
    {ch sib : RadixForest κ ν} {path : List κ} (hp : path ≠ []) :
    (node k v h l ch sib).AtBoundary path ↔
      if Follows k path then keyMatch k path = k.length ∧ ch.AtBoundary (path.drop k.length)
      else sib.AtBoundary path := by
  cases path with
  | nil => exact absurd rfl hp
  | cons => rfl

theorem lockAt_adjustLock {g : ℕ → ℕ} {path q : List κ} (hb : f.AtBoundary path) (hq : q ≠ [])
    (h : q <+: path) : (f.adjustLock g path).lockAt q = g (f.lockAt q) := by
  induction f generalizing path q with
  | nil =>
    cases path with
    | nil => exact absurd (prefix_nil.mp h) hq
    | cons => exact hb.elim
  | node k v hk l ch sib ihc ihs =>
    have hp : path ≠ [] := by
      rintro rfl
      exact hq (prefix_nil.mp h)
    have hfol := follows_iff_of_begins (k := k) h hq
    rw [atBoundary_node hp] at hb
    by_cases hf : Follows k path
    · rw [if_pos hf] at hb
      simp only [adjustLock, if_pos hf, if_pos hb.1, lockAt, if_pos (hfol.mpr hf)]
      have hkp : k <+: path := keyMatch_eq_length_iff.mp hb.1
      split_ifs with hlen hlt
      · rfl
      · -- both begin `path`, so one begins the other
        exfalso
        rcases prefix_or_prefix_of_prefix h hkp with hqk | hkq
        · exact hlen (by rw [keyMatch_comm]; exact keyMatch_eq_length_iff.mpr hqk)
        · exact hlt.ne (keyMatch_eq_length_iff.mpr hkq)
      · have hkq : keyMatch k q = k.length := le_antisymm (keyMatch_le_left k q) (not_lt.mp hlt)
        rw [hkq]
        refine ihc hb.2 ?_ (drop_prefix_drop _ h)
        rw [ne_eq, drop_eq_nil_iff, not_le]
        have := keyMatch_le_right k q
        omega
    · rw [if_neg hf] at hb
      simp only [adjustLock, if_neg hf, lockAt, if_neg (fun h' => hf (hfol.mp h'))]
      exact ihs hb hq h

theorem atBoundary_adjustLock (g : ℕ → ℕ) (path q : List κ) :
    (f.adjustLock g path).AtBoundary q ↔ f.AtBoundary q := by
  induction f generalizing path q with
  | nil => rfl
  | node k v h l ch sib ihc ihs =>
    cases q with
    | nil => cases (node k v h l ch sib).adjustLock g path <;> simp [AtBoundary]
    | cons t q =>
      unfold adjustLock
      split_ifs
      · simp only [atBoundary_node (cons_ne_nil t q), ihc]
      · rfl
      · simp only [atBoundary_node (cons_ne_nil t q), ihs]

theorem atBoundary_matchPrefix (key : List κ) :
    (f.matchPrefix key).2.AtBoundary (key.take (f.depth key)) := by
  induction f generalizing key with
  | nil => trivial
  | node k v h l ch sib ihc ihs =>
    unfold matchPrefix depth
    by_cases hf : Follows k key
    · have hpos := keyMatch_pos hf.1 hf.2
      have hlek := keyMatch_le_left k key
      simp only [if_pos hf]
      split
      next hn =>
        have hne : key.take (keyMatch k key) ≠ [] := by
          rw [ne_eq, take_eq_nil_iff]
          rintro (h0 | hnil)
          · omega
          · exact hf.2 hnil
        rw [splitNode, atBoundary_node hne, take_keyMatch, if_pos ⟨rfl, hne⟩, drop_length]
        exact ⟨keyMatch_eq_length_iff.mpr (prefix_refl _), trivial⟩
      next hn =>
      have hfull : keyMatch k key = k.length := le_antisymm hlek (not_lt.mp hn)
      have hk : k <+: key := keyMatch_eq_length_iff.mp hfull
      rw [hfull] at hpos ⊢
      set d := ch.depth (key.drop k.length) with hd
      have hbeg : k <+: key.take (k.length + d) := prefix_take_iff.mpr ⟨hk, by omega⟩
      have hne : key.take (k.length + d) ≠ [] := by
        rintro h0
        rw [h0, prefix_nil] at hbeg
        simp [hbeg] at hpos
      have hbegins := take_prefix (k.length + d) key
      have hfol := follows_iff_of_begins (k := k) hbegins hne
      rw [atBoundary_node hne, if_pos (hfol.mpr hf)]
      refine ⟨keyMatch_eq_length_iff.mpr hbeg, ?_⟩
      rw [drop_take, Nat.add_sub_cancel_left, hd]
      exact ihc (key.drop k.length)
    · simp only [if_neg hf]
      cases hd : key.take (sib.depth key) with
      | nil => trivial
      | cons t path =>
        have hne : key.take (sib.depth key) ≠ [] := by simp [hd]
        have hbegins := take_prefix (sib.depth key) key
        have hfol := follows_iff_of_begins (k := k) hbegins hne
        rw [← hd, atBoundary_node hne, if_neg fun h' => hf (hfol.mp h')]
        exact ihs key

theorem depth_le (key : List κ) : f.depth key ≤ key.length := by
  fun_induction depth f key with
  | case1 => exact Nat.zero_le _
  | case2 => exact keyMatch_le_right _ _
  | case3 k _ _ _ _ _ key _ _ ih =>
    have hle := keyMatch_le_right k key
    rw [length_drop] at ih
    omega
  | case4 _ _ _ _ _ _ _ _ ih => exact ih

theorem length_le_depth {q key : List κ} (hlock : 0 < f.lockAt q) (h : q <+: key) :
    q.length ≤ f.depth key := by
  induction f generalizing q key with
  | nil => exact absurd hlock (lt_irrefl 0)
  | node k v hk l ch sib ihc ihs =>
    cases hq : q with
    | nil => simp
    | cons t q' =>
      rw [← hq]
      have hfol := follows_iff_of_begins (k := k) h (by simp [hq])
      unfold lockAt at hlock
      unfold depth
      by_cases hf : Follows k q
      · rw [if_pos hf] at hlock
        rw [if_pos (hfol.mp hf)]
        split at hlock
        next hlen =>
          have hqk : q <+: k := by
            rw [← keyMatch_eq_length_iff, keyMatch_comm]
            exact hlen
          have := length_le_keyMatch hqk h
          split_ifs <;> omega
        next hlen =>
        split at hlock
        · omega
        next hlt =>
        have hkq : keyMatch k q = k.length := le_antisymm (keyMatch_le_left k q) (not_lt.mp hlt)
        have hkk : keyMatch k key = k.length :=
          keyMatch_eq_length_iff.mpr ((keyMatch_eq_length_iff.mp hkq).trans h)
        rw [hkq] at hlock
        rw [hkk, if_neg (lt_irrefl _)]
        have := ihc hlock (drop_prefix_drop k.length h)
        rw [length_drop] at this
        omega
      · rw [if_neg hf] at hlock
        rw [if_neg fun h' => hf (hfol.mpr h')]
        exact ihs hlock h

end Locks

end RadixForest

end LLM42.Library
