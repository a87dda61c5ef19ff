import Mathlib.Data.List.Infix
import Mathlib.Data.List.DropRight
import Mathlib.Data.Nat.Find

/-! # Occurrences of a pattern in a text

Cutting a text at the first occurrence of a pattern, erasing every occurrence and stripping the
ends, and how these operations go through a text that is given piece by piece. -/

namespace LLM42.Library

open List

variable {α : Type*} {p : α → Bool}

/-! ## Occurrences across a cut -/

/-- An occurrence of `pat` begins in `u` and ends in `v`. -/
def Crosses (pat u v : List α) : Prop :=
  ∃ i < pat.length, 0 < i ∧ pat.take i <:+ u ∧ pat.drop i <+: v

instance [DecidableEq α] (pat u v : List α) : Decidable (Crosses pat u v) :=
  inferInstanceAs (Decidable (∃ i < pat.length, _))

theorem append_eq_cases {pat u v b a : List α} (h : u ++ v = b ++ (pat ++ a)) :
    (∃ a', u = b ++ (pat ++ a') ∧ a = a' ++ v) ∨ (∃ b', b = u ++ b' ∧ v = b' ++ (pat ++ a)) ∨
      Crosses pat u v := by
  rcases append_eq_append_iff.mp h with ⟨b', rfl, hv⟩ | ⟨c, rfl, hc⟩
  · exact .inr (.inl ⟨b', rfl, hv⟩)
  · rcases append_eq_append_iff.mp hc with ⟨a', rfl, rfl⟩ | ⟨d, rfl, hd⟩
    · exact .inl ⟨a', rfl, rfl⟩
    · -- the pattern is `c ++ d`: its first part ends `u`, the rest begins `v`
      by_cases hcnil : c = []
      · subst hcnil
        exact .inr (.inl ⟨[], by simp, by simpa using hd⟩)
      · by_cases hdnil : d = []
        · subst hdnil
          exact .inl ⟨[], by simp, by simpa using hd.symm⟩
        · have hcpos := length_pos_of_ne_nil hcnil
          have hdpos := length_pos_of_ne_nil hdnil
          refine .inr (.inr ⟨c.length, ?_, hcpos, ?_, ?_⟩)
          · rw [length_append]
            omega
          · simp
          · simp [hd]

theorem infix_append_cases {pat u v : List α} (h : pat <:+: u ++ v) :
    pat <:+: u ∨ pat <:+: v ∨ Crosses pat u v := by
  obtain ⟨b, a, h⟩ := h
  rw [append_assoc] at h
  rcases append_eq_cases h.symm with ⟨a', rfl, -⟩ | ⟨b', -, rfl⟩ | hcross
  · exact .inl ⟨b, a', by simp⟩
  · exact .inr (.inl ⟨b', a, by simp⟩)
  · exact .inr (.inr hcross)

/-! ## The first occurrence -/

/-- No occurrence of `pat` in `b ++ pat` begins before the one at the end. -/
def IsFirst (pat b : List α) : Prop :=
  ∀ b' a', b ++ pat = b' ++ (pat ++ a') → b' = b

theorem IsFirst.of_append {pat u b : List α} (h : IsFirst pat (u ++ b)) : IsFirst pat b := by
  intro b' a' heq
  have := h (u ++ b') a' (by simp [heq])
  exact append_cancel_left this

theorem IsFirst.length_le {pat b a b' a' : List α} (h : IsFirst pat b)
    (heq : b ++ (pat ++ a) = b' ++ (pat ++ a')) : b.length ≤ b'.length := by
  by_contra hlt
  have hpre : b' ++ pat <+: b ++ pat := by
    have hb' : b' ++ pat <+: b ++ (pat ++ a) := ⟨a', by simp [heq]⟩
    have hb : b ++ pat <+: b ++ (pat ++ a) := ⟨a, by simp⟩
    apply prefix_of_prefix_length_le hb' hb
    simp only [length_append]
    omega
  obtain ⟨c, hc⟩ := hpre
  obtain rfl := h b' c (by rw [← hc, append_assoc])
  exact hlt le_rfl

section

variable [BEq α] [LawfulBEq α]

theorem dropInfix?_eq_some {pat t b a : List α} :
    t.dropInfix? pat = some (b, a) ↔ t = b ++ (pat ++ a) ∧ IsFirst pat b := by
  rw [dropInfix?_eq_some_iff]
  constructor
  · rintro ⟨⟨i, rfl, hi⟩, hmin⟩
    obtain rfl := eq_of_beq hi
    refine ⟨by simp, fun b' a' heq => ?_⟩
    have hle := hmin b' i (a' ++ a) (by rw [heq]; simp) (by simp)
    have hlen := congrArg length heq
    simp only [length_append] at hlen
    exact (append_inj_left (by simpa using heq) (by omega)).symm
  · rintro ⟨rfl, hfirst⟩
    refine ⟨⟨pat, by simp, by simp⟩, fun b' i a' heq hi => ?_⟩
    obtain rfl := eq_of_beq hi
    exact hfirst.length_le (by simpa using heq)

theorem dropInfix?_isSome {pat t : List α} : (t.dropInfix? pat).isSome ↔ pat <:+: t := by
  constructor
  · rw [Option.isSome_iff_exists]
    rintro ⟨⟨b, a⟩, h⟩
    obtain ⟨rfl, -⟩ := dropInfix?_eq_some.mp h
    exact ⟨b, a, by simp⟩
  · intro h
    classical
    -- the shortest text before an occurrence
    have hex : ∃ n, ∃ b a, t = b ++ (pat ++ a) ∧ b.length = n := by
      obtain ⟨b, a, rfl⟩ := h
      exact ⟨_, b, a, by simp, rfl⟩
    obtain ⟨b, a, rfl, hlen⟩ := Nat.find_spec hex
    have hmin := fun m => Nat.find_min' hex (m := m)
    have hcut : (b ++ (pat ++ a)).dropInfix? pat = some (b, a) := by
      rw [dropInfix?_eq_some_iff]
      refine ⟨⟨pat, by simp, by simp⟩, fun b' i a' heq hi => ?_⟩
      obtain rfl := eq_of_beq hi
      rw [hlen]
      exact hmin _ ⟨b', a', by simpa using heq, rfl⟩
    rw [hcut]
    rfl

theorem dropInfix?_eq_none {pat t : List α} : t.dropInfix? pat = none ↔ ¬ pat <:+: t := by
  rw [← dropInfix?_isSome (α := α), Option.not_isSome_iff_eq_none]

theorem dropInfix?_append_right {pat t b a : List α} (h : t.dropInfix? pat = some (b, a))
    (s : List α) : (t ++ s).dropInfix? pat = some (b, a ++ s) := by
  obtain ⟨rfl, hfirst⟩ := dropInfix?_eq_some.mp h
  exact dropInfix?_eq_some.mpr ⟨by simp, hfirst⟩

/-- A text without the pattern may stand before, as long as no occurrence crosses the cut. -/
theorem dropInfix?_append_left {pat u v b a : List α} (hu : ¬ pat <:+: u)
    (hcross : ¬ Crosses pat u v) (h : v.dropInfix? pat = some (b, a)) :
    (u ++ v).dropInfix? pat = some (u ++ b, a) := by
  obtain ⟨rfl, hfirst⟩ := dropInfix?_eq_some.mp h
  refine dropInfix?_eq_some.mpr ⟨by simp, fun b' a' heq => ?_⟩
  have heq' : u ++ (b ++ (pat ++ a)) = b' ++ (pat ++ (a' ++ a)) := by
    have := congrArg (· ++ a) heq
    simpa using this
  rcases append_eq_cases heq' with ⟨c, rfl, -⟩ | ⟨c, rfl, hc⟩ | hbad
  · exact absurd ⟨b', c, by simp⟩ hu
  · have : b ++ pat = c ++ (pat ++ a') := by
      rw [append_assoc, append_assoc] at heq
      exact append_cancel_left heq
    rw [hfirst c a' this]
  · exact absurd hbad hcross

end

/-! ## Erasing every occurrence -/

section

variable [DecidableEq α]

/-- The occurrences of `pat` are taken out from left to right; `skip` counts the elements still to
be passed over of the one that was met last. -/
def eraseFrom (pat : List α) : ℕ → List α → List α
  | _, [] => []
  | skip + 1, _ :: t => eraseFrom pat skip t
  | 0, c :: t => if pat <+: c :: t then eraseFrom pat (pat.length - 1) t
    else c :: eraseFrom pat 0 t

def eraseAll (pat t : List α) : List α := eraseFrom pat 0 t

@[simp] theorem eraseAll_nil (pat : List α) : eraseAll pat [] = [] := rfl

theorem eraseAll_of_absent {pat t : List α} (h : ¬ pat <:+: t) : eraseAll pat t = t := by
  induction t with
  | nil => rfl
  | cons c t ih =>
    have hpre : ¬ pat <+: c :: t := fun hp => h hp.isInfix
    have ht : eraseFrom pat 0 t = t := ih fun hi => h (hi.trans (suffix_cons c t).isInfix)
    simp only [eraseAll, eraseFrom, if_neg hpre, ht]

theorem prefix_append_iff_of_not_crosses {pat w u v : List α} (hwu : w <:+ u) (hw : w ≠ [])
    (hcross : ¬ Crosses pat u v) : pat <+: w ++ v ↔ pat <+: w := by
  constructor
  · intro h
    by_contra hnot
    have hlt : w.length < pat.length := by
      by_contra hle
      exact hnot (prefix_of_prefix_length_le h (prefix_append w v) (by omega))
    have hwp : w <+: pat := prefix_of_prefix_length_le (prefix_append w v) h hlt.le
    obtain ⟨d, rfl⟩ := hwp
    apply hcross
    refine ⟨w.length, hlt, length_pos_of_ne_nil hw, by simpa using hwu, ?_⟩
    simpa using (prefix_append_right_inj w).mp h
  · exact fun h => h.trans (prefix_append w v)

theorem eraseFrom_append {pat u v : List α} (hv : ¬ pat <:+: v) (hcross : ¬ Crosses pat u v)
    {w : List α} (hwu : w <:+ u) {skip : ℕ} (hskip : skip ≤ w.length) :
    eraseFrom pat skip (w ++ v) = eraseFrom pat skip w ++ v := by
  induction w generalizing skip with
  | nil =>
    obtain rfl : skip = 0 := by simpa using hskip
    exact eraseAll_of_absent hv
  | cons c w ih =>
    have hw : w <:+ u := (suffix_cons c w).trans hwu
    cases skip with
    | succ skip =>
      simp only [length_cons] at hskip
      simpa only [cons_append, eraseFrom] using ih hw (by omega)
    | zero =>
      have hiff := prefix_append_iff_of_not_crosses hwu (by simp) hcross
      rw [cons_append] at hiff
      by_cases hpre : pat <+: c :: w
      · have hlen := hpre.length_le
        simp only [length_cons] at hlen
        simp only [cons_append, eraseFrom, if_pos hpre, if_pos (hiff.mpr hpre)]
        exact ih hw (by omega)
      · have hih := ih hw (Nat.zero_le _)
        simp only [cons_append, eraseFrom, if_neg hpre, if_neg (mt hiff.mp hpre), hih]

theorem eraseAll_append {pat u v : List α} (hv : ¬ pat <:+: v) (hcross : ¬ Crosses pat u v) :
    eraseAll pat (u ++ v) = eraseAll pat u ++ v :=
  eraseFrom_append hv hcross suffix_rfl (Nat.zero_le _)

end

/-! ## Stripping the ends -/

/-- `strip`: what `p` holds of is taken away at both ends. -/
def strip (p : α → Bool) (t : List α) : List α := (t.dropWhile p).rdropWhile p

@[simp] theorem strip_nil (p : α → Bool) : strip p [] = [] := rfl

theorem rdropWhile_append_of_ne_nil (u : List α) {v : List α} (h : v.rdropWhile p ≠ []) :
    (u ++ v).rdropWhile p = u ++ v.rdropWhile p := by
  induction v using reverseRecOn with
  | nil => exact absurd (rdropWhile_nil p) h
  | append_singleton v c ih =>
    rw [← append_assoc, rdropWhile_concat, rdropWhile_concat] at *
    split_ifs at h ⊢ with hc
    · exact ih h
    · simp

theorem rdropWhile_append_of_eq_nil (u : List α) {v : List α} (h : v.rdropWhile p = []) :
    (u ++ v).rdropWhile p = u.rdropWhile p := by
  induction v using reverseRecOn with
  | nil => simp
  | append_singleton v c ih =>
    rw [← append_assoc, rdropWhile_concat] at *
    split_ifs at h ⊢ with hc
    · exact ih h
    · simp at h

theorem strip_dropWhile (p : α → Bool) (t : List α) : strip p (t.dropWhile p) = strip p t := by
  rw [strip, dropWhile_idempotent, strip]

theorem strip_rdropWhile (p : α → Bool) (t : List α) : strip p (t.rdropWhile p) = strip p t := by
  have hw : (t.rtakeWhile p).rdropWhile p = [] :=
    rdropWhile_eq_nil_iff.mpr fun x hx => mem_rtakeWhile_imp hx
  have hd : (t.rtakeWhile p).dropWhile p = [] :=
    dropWhile_eq_nil_iff.mpr fun x hx => mem_rtakeWhile_imp hx
  conv_rhs => rw [← rdropWhile_append_rtakeWhile (p := p) (l := t)]
  rw [strip, strip, dropWhile_append]
  split_ifs with h
  · rw [hd, isEmpty_iff.mp h]
  · rw [rdropWhile_append_of_eq_nil _ hw]

theorem strip_strip (p : α → Bool) (t : List α) : strip p (strip p t) = strip p t :=
  (strip_rdropWhile p (t.dropWhile p)).trans (strip_dropWhile p t)

theorem strip_around {m : List α} (hm : m ≠ []) (hhead : m.dropWhile p = m)
    (hlast : m.rdropWhile p = m) (b a : List α) :
    strip p (b ++ (m ++ a)) = b.dropWhile p ++ (m ++ a.rdropWhile p) := by
  have hma : (m ++ a).dropWhile p = m ++ a := by
    rw [dropWhile_append, hhead, if_neg (by simpa using hm)]
  have hb : (b ++ (m ++ a)).dropWhile p = b.dropWhile p ++ (m ++ a) := by
    rw [dropWhile_append]
    split_ifs with h
    · rw [hma, isEmpty_iff.mp h, nil_append]
    · rfl
  have hma' : (m ++ a).rdropWhile p = m ++ a.rdropWhile p := by
    by_cases ha : a.rdropWhile p = []
    · rw [rdropWhile_append_of_eq_nil m ha, ha, hlast, append_nil]
    · exact rdropWhile_append_of_ne_nil m ha
  rw [strip, hb, rdropWhile_append_of_ne_nil _ (by simp [hma', hm]), hma']

theorem strip_isInfix (p : α → Bool) (t : List α) : strip p t <:+: t :=
  (List.rdropWhile_prefix p _).isInfix.trans (dropWhile_suffix p).isInfix

end LLM42.Library
