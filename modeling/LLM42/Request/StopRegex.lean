import LLM42.Request.Basic
import Mathlib.Tactic.Linarith

/-! # Stop patterns

The syntax trees that `sre_parse` makes of stop patterns, what the matcher finds with them, and
`get_max_seq_length`, which bounds how much text a match takes up. -/

namespace LLM42

open List

/-- The positions that `AT` tests for. `\b` and `\B` come with the word characters. -/
inductive AtCode where
  | beginning
  | beginningLine
  | beginningString
  | textEnd
  | endLine
  | endString
  | boundary (isWord : Char → Bool)
  | nonBoundary (isWord : Char → Bool)

namespace AtCode

def wordEdge (isWord : Char → Bool) (text : Text) (pos : ℕ) : Bool :=
  (pos != 0 && (text[pos - 1]?).any isWord) != (text[pos]?).any isWord

def holds (text : Text) (pos : ℕ) : AtCode → Bool
  | beginning | beginningString => pos = 0
  | beginningLine => pos = 0 || text[pos - 1]? = some '\n'
  | textEnd => pos = text.length || (pos + 1 = text.length && text[pos]? = some '\n')
  | endLine => pos = text.length || text[pos]? = some '\n'
  | endString => pos = text.length
  | boundary isWord => wordEdge isWord text pos
  | nonBoundary isWord => !wordEdge isWord text pos

end AtCode

/-- Where the matcher stands, with the groups it has recorded. -/
structure MatchState where
  pos : ℕ
  groups : List (ℕ × ℕ × ℕ) := []
  deriving DecidableEq

/-- A pattern as `sre_parse` gives it. A test of one character is taken with the flags in force; a
sequence and the branches of an alternative are nested pairs. -/
inductive Pattern where
  | empty
  | seq (first rest : Pattern)
  | literal (test : Char → Bool)
  | inSet (test : Char → Bool)
  | any (test : Char → Bool)
  | subpattern (group : Option ℕ) (inner : Pattern)
  | branch (left right : Pattern)
  /-- `MAX_REPEAT` and `MIN_REPEAT`; without `most` the upper bound is `MAXREPEAT` -/
  | repeats (greedy : Bool) (least : ℕ) (most : Option ℕ) (inner : Pattern)
  | position (code : AtCode)
  /-- everything else (references to groups, assertions, atomic groups, ...), by what the matcher
  makes of it -/
  | other (next : Text → MatchState → List MatchState)

namespace Pattern

def maxLen : ℕ := 2 ^ 30

def getMaxSeqLength : Pattern → ℕ
  | empty => 0
  | seq first rest => first.getMaxSeqLength + rest.getMaxSeqLength
  | literal _ | inSet _ | any _ => 1
  | subpattern _ inner => inner.getMaxSeqLength
  | branch left right => max left.getMaxSeqLength right.getMaxSeqLength
  | repeats _ _ none _ => maxLen
  | repeats _ _ (some most) inner => most * inner.getMaxSeqLength
  | position _ => 0
  | other _ => maxLen

def rounds (body : MatchState → List MatchState) : ℕ → MatchState → List MatchState
  | 0, s => [s]
  | n + 1, s => (body s).flatMap (rounds body n)

/-- Where a match that begins at `s` can end, the first choice of the matcher first. An unbounded
repeat makes at most one round a character beyond those it has to make. -/
def run (text : Text) : Pattern → MatchState → List MatchState
  | empty, s => [s]
  | seq first rest, s => (run text first s).flatMap (run text rest)
  | literal test, s | inSet test, s | any test, s =>
    if (text[s.pos]?).any test then [{ s with pos := s.pos + 1 }] else []
  | subpattern group inner, s =>
    (run text inner s).map fun t =>
      match group with
      | none => t
      | some n => { t with groups := (n, s.pos, t.pos) :: t.groups }
  | branch left right, s => run text left s ++ run text right s
  | repeats greedy least most inner, s =>
    let counts := range' least (most.getD (least + text.length) + 1 - least)
    (if greedy then counts.reverse else counts).flatMap fun n => rounds (run text inner) n s
  | position code, s => if code.holds text s.pos then [s] else []
  | other next, s => next text s

def search (p : Pattern) (text : Text) : Bool :=
  (range (text.length + 1)).any fun i => !(p.run text ⟨i, []⟩).isEmpty

variable {s t : MatchState} {text : Text} {p : Pattern} {test : Char → Bool} {inner : Pattern}
  {most : Option ℕ}

theorem search_iff : p.search text = true ↔ ∃ i ≤ text.length, ∃ s, s ∈ p.run text ⟨i, []⟩ := by
  simp only [search, any_eq_true, mem_range, Nat.lt_succ_iff, Bool.not_eq_true',
    isEmpty_eq_false_iff_exists_mem]

/-! ## How long a match is -/

theorem mem_run_repeats {greedy : Bool} {least : ℕ} :
    t ∈ run text (repeats greedy least most inner) s ↔
      ∃ n, least ≤ n ∧ n ≤ most.getD (least + text.length) ∧ t ∈ rounds (run text inner) n s := by
  have hcounts : ∀ n counts, (n ∈ if greedy then reverse counts else counts) ↔
      n ∈ (counts : List ℕ) := by
    intro n counts
    split_ifs
    · exact mem_reverse
    · rfl
  simp only [run, mem_flatMap, hcounts, mem_range'_1]
  constructor
  · rintro ⟨n, hn, ht⟩
    exact ⟨n, hn.1, by omega, ht⟩
  · rintro ⟨n, hle, hmost, ht⟩
    exact ⟨n, ⟨hle, by omega⟩, ht⟩

theorem mem_charTest : (t ∈ if (text[s.pos]?).any test then [{ s with pos := s.pos + 1 }] else []) ↔
      (text[s.pos]?).any test = true ∧ t = { s with pos := s.pos + 1 } := by
  split_ifs with h
  · simp [h]
  · simp [h]

theorem mem_run_subpattern {group : Option ℕ} (h : t ∈ run text (subpattern group inner) s) :
    ∃ u ∈ run text inner s, t.pos = u.pos := by
  obtain ⟨u, hu, rfl⟩ := mem_map.mp h
  cases group with
  | none => exact ⟨u, hu, rfl⟩
  | some n => exact ⟨u, hu, rfl⟩

theorem mem_run_position {code : AtCode} :
    t ∈ run text (position code) s ↔ t = s ∧ code.holds text s.pos = true := by
  simp only [run]
  split_ifs with h
  · simp [h]
  · simp [h]

/-- A step forward in the text by at most `len` characters. -/
def Advances (text : Text) (len : ℕ) (s t : MatchState) : Prop :=
  s.pos ≤ t.pos ∧ t.pos ≤ s.pos + len ∧ (s.pos ≤ text.length → t.pos ≤ text.length)

theorem advances_charTest
    (h : t ∈ if (text[s.pos]?).any test then [{ s with pos := s.pos + 1 }] else []) :
    Advances text 1 s t := by
  obtain ⟨htest, rfl⟩ := mem_charTest.mp h
  refine ⟨Nat.le_succ _, le_rfl, fun _ => ?_⟩
  by_contra hlt
  have hout : text.length ≤ s.pos := Nat.lt_succ_iff.mp (Nat.not_le.mp hlt)
  simp [getElem?_eq_none hout] at htest

theorem advances_rounds {len : ℕ} {body : MatchState → List MatchState}
    (hbody : ∀ s t, t ∈ body s → Advances text len s t) {n : ℕ} (h : t ∈ rounds body n s) :
    Advances text (n * len) s t := by
  induction n generalizing s with
  | zero =>
    obtain rfl : t = s := by simpa [rounds] using h
    exact ⟨le_rfl, by omega, id⟩
  | succ n ih =>
    obtain ⟨u, hu, hn⟩ := mem_flatMap.mp h
    obtain ⟨h1, h2, h3⟩ := hbody s u hu
    obtain ⟨h4, h5, h6⟩ := ih hn
    refine ⟨h1.trans h4, ?_, fun hs => h6 (h3 hs)⟩
    rw [Nat.add_mul, Nat.one_mul]
    omega

theorem getMaxSeqLength_inner_lt {greedy : Bool} {least n : ℕ} (hn : 0 < n)
    (hmost : n ≤ most.getD (least + text.length))
    (h : (repeats greedy least most inner).getMaxSeqLength < maxLen) :
    ∃ m, most = some m ∧ n ≤ m ∧ inner.getMaxSeqLength < maxLen := by
  cases most with
  | none => exact absurd h (lt_irrefl _)
  | some m =>
    refine ⟨m, rfl, hmost, ?_⟩
    simp only [getMaxSeqLength, Option.getD_some] at h hmost
    exact lt_of_le_of_lt (Nat.le_mul_of_pos_left _ (by omega)) h

/-- A match takes at most `get_max_seq_length` characters, unless that is `MAX_LEN` or more. -/
theorem advances_run (hp : p.getMaxSeqLength < maxLen) (h : t ∈ p.run text s) :
    Advances text p.getMaxSeqLength s t := by
  induction p generalizing s t with
  | empty =>
    obtain rfl : t = s := by simpa [run] using h
    exact ⟨le_rfl, by omega, id⟩
  | seq first rest ih1 ih2 =>
    simp only [getMaxSeqLength] at hp ⊢
    obtain ⟨u, hu, ht⟩ := mem_flatMap.mp h
    obtain ⟨h1, h2, h3⟩ := ih1 (by omega) hu
    obtain ⟨h4, h5, h6⟩ := ih2 (by omega) ht
    exact ⟨h1.trans h4, by omega, fun hs => h6 (h3 hs)⟩
  | literal test | inSet test | any test => exact advances_charTest h
  | subpattern group inner ih =>
    obtain ⟨u, hu, hpos⟩ := mem_run_subpattern h
    obtain ⟨h1, h2, h3⟩ := ih hp hu
    simp only [Advances, hpos]
    exact ⟨h1, h2, h3⟩
  | branch left right ih1 ih2 =>
    simp only [getMaxSeqLength] at hp ⊢
    rcases mem_append.mp h with h | h
    · obtain ⟨h1, h2, h3⟩ := ih1 (by omega) h
      exact ⟨h1, by omega, h3⟩
    · obtain ⟨h1, h2, h3⟩ := ih2 (by omega) h
      exact ⟨h1, by omega, h3⟩
  | repeats greedy least most inner ih =>
    obtain ⟨n, hleast, hmost, hrounds⟩ := mem_run_repeats.mp h
    rcases Nat.eq_zero_or_pos n with rfl | hn
    · obtain rfl : t = s := by simpa [rounds] using hrounds
      exact ⟨le_rfl, by omega, id⟩
    · obtain ⟨m, rfl, hm, hinner⟩ := getMaxSeqLength_inner_lt hn hmost hp
      obtain ⟨h1, h2, h3⟩ := advances_rounds (fun s t ht => ih hinner ht) hrounds
      refine ⟨h1, h2.trans ?_, h3⟩
      exact Nat.add_le_add_left (Nat.mul_le_mul_right _ hm) _
  | position code =>
    obtain ⟨rfl, -⟩ := mem_run_position.mp h
    exact ⟨le_rfl, by omega, id⟩
  | other next => exact absurd hp (lt_irrefl _)

/-! ## The same match in another text -/

/-- Between `lo` and `hi` the text `u` looks like `v` does `k` characters before. -/
structure Alike (u v : Text) (k lo hi : ℕ) : Prop where
  char : ∀ j, lo ≤ j + k → j + k < hi → u[j + k]? = v[j]?
  holds : ∀ j (code : AtCode), lo ≤ j + k → j + k ≤ hi → code.holds u (j + k) = true →
    code.holds v j = true

variable {u v : Text} {k lo hi : ℕ}

/-- From `s` in `u` and the same place in `v`, the body leads to the same places up to `hi`. -/
def Carries (k lo hi : ℕ) (body body' : MatchState → List MatchState) : Prop :=
  ∀ s s' t, lo ≤ s.pos → t.pos ≤ hi → s'.pos + k = s.pos → t ∈ body s →
    ∃ t' ∈ body' s', t'.pos + k = t.pos

theorem Alike.charTest (h : Alike u v k lo hi) : Carries k lo hi
      (fun s => if (u[s.pos]?).any test then [{ s with pos := s.pos + 1 }] else [])
      (fun s => if (v[s.pos]?).any test then [{ s with pos := s.pos + 1 }] else []) := by
  intro s s' t hlo hhi hpos ht
  obtain ⟨htest, rfl⟩ := mem_charTest.mp ht
  simp only at hhi
  refine ⟨_, mem_charTest.mpr ⟨?_, rfl⟩, ?_⟩
  · rwa [← h.char s'.pos (by omega) (by omega), hpos]
  · simp only
    omega

theorem Carries.rounds {len : ℕ} {body body' : MatchState → List MatchState}
    (hbody : Carries k lo hi body body') (hadv : ∀ s t, t ∈ body s → Advances u len s t) (n : ℕ) :
    Carries k lo hi (rounds body n) (rounds body' n) := by
  induction n with
  | zero =>
    intro s s' t _ _ hpos ht
    obtain rfl : t = s := by simpa [Pattern.rounds] using ht
    exact ⟨s', by simp [Pattern.rounds], hpos⟩
  | succ n ih =>
    intro s s' t hlo hhi hpos ht
    obtain ⟨w, hw, hn⟩ := mem_flatMap.mp ht
    have hle := (hadv s w hw).1
    have hle' := (advances_rounds hadv hn).1
    obtain ⟨w', hw', hwpos⟩ := hbody s s' w hlo (hle'.trans hhi) hpos hw
    obtain ⟨t', ht', htpos⟩ := ih w w' t (hlo.trans hle) hhi hwpos hn
    exact ⟨t', mem_flatMap.mpr ⟨w', hw', ht'⟩, htpos⟩

/-- A pattern of bounded length matches alike where the texts look alike. -/
theorem Alike.run (h : Alike u v k lo hi) (hp : p.getMaxSeqLength < maxLen) :
    Carries k lo hi (p.run u) (p.run v) := by
  induction p with
  | empty =>
    intro s s' t _ _ hpos ht
    obtain rfl : t = s := by simpa [Pattern.run] using ht
    exact ⟨s', by simp [Pattern.run], hpos⟩
  | seq first rest ih1 ih2 =>
    simp only [getMaxSeqLength] at hp
    intro s s' t hlo hhi hpos ht
    obtain ⟨w, hw, ht⟩ := mem_flatMap.mp ht
    have hle := (advances_run (by omega) hw).1
    have hle' := (advances_run (by omega) ht).1
    obtain ⟨w', hw', hwpos⟩ := ih1 (by omega) s s' w hlo (hle'.trans hhi) hpos hw
    obtain ⟨t', ht', htpos⟩ := ih2 (by omega) w w' t (hlo.trans hle) hhi hwpos ht
    exact ⟨t', mem_flatMap.mpr ⟨w', hw', ht'⟩, htpos⟩
  | literal test | inSet test | any test => exact h.charTest
  | subpattern group inner ih =>
    intro s s' t hlo hhi hpos ht
    obtain ⟨w, hw, hwpos⟩ := mem_run_subpattern ht
    obtain ⟨w', hw', hwpos'⟩ := ih hp s s' w hlo (hwpos ▸ hhi) hpos hw
    refine ⟨_, mem_map_of_mem hw', ?_⟩
    cases group with
    | none => exact hwpos'.trans hwpos.symm
    | some n => exact hwpos'.trans hwpos.symm
  | branch left right ih1 ih2 =>
    simp only [getMaxSeqLength] at hp
    intro s s' t hlo hhi hpos ht
    rcases mem_append.mp ht with ht | ht
    · obtain ⟨t', ht', htpos⟩ := ih1 (by omega) s s' t hlo hhi hpos ht
      exact ⟨t', mem_append_left _ ht', htpos⟩
    · obtain ⟨t', ht', htpos⟩ := ih2 (by omega) s s' t hlo hhi hpos ht
      exact ⟨t', mem_append_right _ ht', htpos⟩
  | repeats greedy least most inner ih =>
    intro s s' t hlo hhi hpos ht
    obtain ⟨n, hleast, hmost, hrounds⟩ := mem_run_repeats.mp ht
    rcases Nat.eq_zero_or_pos n with rfl | hn
    · obtain rfl : t = s := by simpa [Pattern.rounds] using hrounds
      exact ⟨s', mem_run_repeats.mpr ⟨0, hleast, Nat.zero_le _, by simp [Pattern.rounds]⟩, hpos⟩
    · obtain ⟨m, rfl, hm, hinner⟩ := getMaxSeqLength_inner_lt hn hmost hp
      obtain ⟨t', ht', htpos⟩ := (ih hinner).rounds (fun s t ht => advances_run hinner ht) n
        s s' t hlo hhi hpos hrounds
      exact ⟨t', mem_run_repeats.mpr ⟨n, hleast, hm, ht'⟩, htpos⟩
  | position code =>
    intro s s' t hlo hhi hpos ht
    obtain ⟨rfl, hcode⟩ := mem_run_position.mp ht
    refine ⟨s', mem_run_position.mpr ⟨rfl, ?_⟩, hpos⟩
    exact h.holds s'.pos code (by omega) (by omega) (by rwa [hpos])
  | other next => exact absurd hp (lt_irrefl _)

/-- Whether a code holds at a place depends on the characters around it and on the ends. -/
theorem holds_of_around {j : ℕ} {code : AtCode} (hchar : v[j]? = u[j + k]?)
    (hbefore : v[j - 1]? = u[j + k - 1]?) (hzero : j = 0 ↔ j + k = 0)
    (hend : ∀ n ≤ 1, j + k + n = u.length → j + n = v.length) (h : code.holds u (j + k) = true) :
    code.holds v j = true := by
  have hword : ∀ isWord, AtCode.wordEdge isWord v j = AtCode.wordEdge isWord u (j + k) := by
    intro isWord
    have hne : (j != 0) = (j + k != 0) := by simp only [bne, Bool.beq_eq_decide_eq, hzero]
    simp only [AtCode.wordEdge, hchar, hbefore, hne]
  cases code with
  | boundary isWord | nonBoundary isWord => simpa only [AtCode.holds, hword] using h
  | beginning | beginningString | endString =>
    simp only [AtCode.holds, decide_eq_true_eq] at h ⊢
    first | exact hzero.mpr h | exact hend 0 zero_le_one h
  | beginningLine | endLine =>
    simp only [AtCode.holds, hchar, hbefore, Bool.or_eq_true, decide_eq_true_eq] at h ⊢
    first | exact h.imp hzero.mpr id | exact h.imp (hend 0 zero_le_one) id
  | textEnd =>
    simp only [AtCode.holds, hchar, Bool.or_eq_true, Bool.and_eq_true, decide_eq_true_eq] at h ⊢
    exact h.imp (hend 0 zero_le_one) (And.imp (hend 1 le_rfl) id)

theorem alike_drop (text : Text) (k : ℕ) : Alike text (text.drop k) k (k + 1) text.length where
  char j _ _ := by rw [getElem?_drop, Nat.add_comm]
  holds j code hlo hhi := by
    refine holds_of_around (by rw [getElem?_drop, Nat.add_comm]) ?_ (by omega) fun n _ hn => ?_
    · rw [getElem?_drop]
      congr 1
      omega
    · rw [length_drop]
      omega

theorem alike_append (text new : Text) (h : text ≠ []) :
    Alike (text ++ new) text 0 0 (text.length - 1) where
  char j _ hj := by rw [getElem?_append_left (by omega), Nat.add_zero]
  holds j code _ hj := by
    have hpos := length_pos_of_ne_nil h
    refine holds_of_around (getElem?_append_left (by omega)).symm
      (getElem?_append_left (by omega)).symm Iff.rfl fun n _ hn => ?_
    rw [length_append] at hn
    omega

theorem length_le_of_not_search {text new : Text} (hp : p.getMaxSeqLength < maxLen)
    (hnot : p.search text = false) {i : ℕ} {s : MatchState} (h : s ∈ p.run (text ++ new) ⟨i, []⟩) :
    text.length ≤ s.pos := by
  by_contra hlt
  have hle : i ≤ s.pos := (advances_run hp h).1
  have hne : text ≠ [] := by
    rintro rfl
    simp at hlt
  obtain ⟨t, ht, -⟩ := (alike_append text new hne).run hp ⟨i, []⟩ ⟨i, []⟩ s (Nat.zero_le _)
    (by omega) rfl h
  have : p.search text = true := search_iff.mpr ⟨i, by omega, t, ht⟩
  rw [hnot] at this
  cases this

/-- A match that is new in `before ++ text ++ new` is found without `before`, if `text` is longer
than any match. -/
theorem search_without {before text new : Text} (hp : p.getMaxSeqLength < maxLen)
    (hlen : p.getMaxSeqLength + 1 ≤ text.length) (hnot : p.search (before ++ text) = false)
    (h : p.search (before ++ text ++ new) = true) : p.search (text ++ new) = true := by
  obtain ⟨i, hi, s, hs⟩ := search_iff.mp h
  have hend := length_le_of_not_search hp hnot hs
  obtain ⟨-, hadv, hin⟩ := advances_run hp hs
  simp only [length_append] at hend hadv hi hin
  have halike := alike_drop (before ++ text ++ new) before.length
  rw [append_assoc, drop_left] at halike
  rw [append_assoc] at hs
  obtain ⟨t, ht, -⟩ := halike.run hp ⟨i, []⟩ ⟨i - before.length, []⟩ s (by simp only; omega)
    (by simp only [length_append]; omega) (by simp only; omega) hs
  exact search_iff.mpr ⟨i - before.length, by simp only [length_append]; omega, t, ht⟩

end Pattern

end LLM42
