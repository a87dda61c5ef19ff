import LLM42.Library.RadixForest

/-! # Texts as characters and as bytes

The prefix tree counts characters but looks at bytes where a prefix is plain ASCII. A text is the
list of its characters; the operations on bytes are those of the source, and each of them is shown
to be the one on characters. -/

namespace LLM42.Gateway

open Library List

def utf8Bytes (s : List Char) : List UInt8 := s.flatMap String.utf8EncodeChar

def isAscii (bytes : List UInt8) : Bool := bytes.all (· < 128)

def charIndices (start : Nat) : List Char → List (Nat × Char)
  | [] => []
  | c :: cs => (start, c) :: charIndices (start + c.utf8Size) cs

/-- `&s[i..]`, for a byte `i` where a character starts. -/
def sliceFrom : List Char → Nat → List Char
  | s, 0 => s
  | [], _ => []
  | c :: cs, i => sliceFrom cs (i - c.utf8Size)

def sliceTo : List Char → Nat → List Char
  | _, 0 => []
  | [], _ => []
  | c :: cs, i => c :: sliceTo cs (i - c.utf8Size)

def advanceByChars (s : List Char) (n : Nat) : List Char :=
  if n = 0 then s
  else if (utf8Bytes s).length ≤ n then []
  else if isAscii ((utf8Bytes s).take n) then sliceFrom s n
  else match (charIndices 0 s)[n]? with
    | some (i, _) => sliceFrom s i
    | none => []

def takeChars (s : List Char) (n : Nat) : List Char :=
  if n = 0 then []
  else match (charIndices 0 s)[n]? with
    | some (i, _) => sliceTo s i
    | none => s

def sharedPrefixCountChars (a b : List Char) : Nat :=
  ((a.zip b).takeWhile fun x => x.1 = x.2).length

def sharedPrefixCount (a b : List Char) : Nat :=
  let common := (((utf8Bytes a).zip (utf8Bytes b)).findIdx? fun x => x.1 ≠ x.2).getD
    (min (utf8Bytes a).length (utf8Bytes b).length)
  if isAscii ((utf8Bytes a).take common) then common else sharedPrefixCountChars a b

/-- A text with its number of characters. -/
structure NodeText where
  text : List Char
  charCount : Nat
  deriving DecidableEq

namespace NodeText

def new (text : List Char) : NodeText := ⟨text, text.length⟩

def empty : NodeText := ⟨[], 0⟩

def splitAtChar (t : NodeText) (charIdx : Nat) : NodeText × NodeText :=
  if charIdx = 0 then (empty, t)
  else if t.charCount ≤ charIdx then (t, empty)
  else
    let byteIdx := match (charIndices 0 t.text)[charIdx]? with
      | some (i, _) => i
      | none => (utf8Bytes t.text).length
    (⟨sliceTo t.text byteIdx, charIdx⟩, ⟨sliceFrom t.text byteIdx, t.charCount - charIdx⟩)

end NodeText

/-! ## The same on characters -/

theorem utf8Size_of_ascii {c : Char} {b : UInt8} {bs : List UInt8}
    (h : String.utf8EncodeChar c = b :: bs) (hb : b < 128) :
    bs = [] ∧ c.utf8Size = 1 ∧ c.val.toNat = b.toNat := by
  have hlen := String.length_utf8EncodeChar c
  rw [h] at hlen
  simp only [String.utf8EncodeChar] at h
  have hbig : ∀ n : Nat, 128 ≤ n → n < 256 → ¬ UInt8.ofNat n < 128 := by
    intro n hn hn'
    rw [UInt8.lt_iff_toNat_lt, UInt8.toNat_ofNat_of_lt' hn']
    exact not_lt.mpr hn
  split at h
  · next hv =>
    obtain ⟨rfl, rfl⟩ := List.cons.inj h
    exact ⟨rfl, hlen.symm, (UInt8.toNat_ofNat_of_lt' (Nat.lt_of_le_of_lt hv (by decide))).symm⟩
  all_goals
    exfalso
    (try split at h) <;> (try split at h) <;> obtain ⟨rfl, -⟩ := List.cons.inj h <;>
      exact hbig _ (by omega) (by omega) hb

theorem utf8Bytes_cons (c : Char) (cs : List Char) :
    utf8Bytes (c :: cs) = String.utf8EncodeChar c ++ utf8Bytes cs := rfl

theorem getElem?_charIndices (s : List Char) (start n : Nat) :
    (charIndices start s)[n]? = (s[n]?).map fun c =>
      (start + ((s.take n).map Char.utf8Size).sum, c) := by
  induction s generalizing start n with
  | nil => simp [charIndices]
  | cons c cs ih => cases n with
    | zero => simp [charIndices]
    | succ n => simp [charIndices, ih, Nat.add_assoc]

theorem sliceFrom_cons (c : Char) (cs : List Char) {i : Nat} (hi : 0 < i) :
    sliceFrom (c :: cs) i = sliceFrom cs (i - c.utf8Size) := by
  obtain ⟨k, rfl⟩ := Nat.exists_eq_succ_of_ne_zero hi.ne'
  rfl

theorem sliceTo_cons (c : Char) (cs : List Char) {i : Nat} (hi : 0 < i) :
    sliceTo (c :: cs) i = c :: sliceTo cs (i - c.utf8Size) := by
  obtain ⟨k, rfl⟩ := Nat.exists_eq_succ_of_ne_zero hi.ne'
  rfl

theorem sliceFrom_sum (s : List Char) (n : Nat) :
    sliceFrom s ((s.take n).map Char.utf8Size).sum = s.drop n := by
  induction s generalizing n with
  | nil => cases n <;> simp [sliceFrom]
  | cons c cs ih => cases n with
    | zero => simp [sliceFrom]
    | succ n =>
      have hpos := c.utf8Size_pos
      simp only [take_succ_cons, map_cons, sum_cons, drop_succ_cons]
      rw [sliceFrom_cons c cs (by omega), Nat.add_sub_cancel_left, ih]

theorem sliceTo_sum (s : List Char) (n : Nat) :
    sliceTo s ((s.take n).map Char.utf8Size).sum = s.take n := by
  induction s generalizing n with
  | nil => cases n <;> simp [sliceTo]
  | cons c cs ih => cases n with
    | zero => simp [sliceTo]
    | succ n =>
      have hpos := c.utf8Size_pos
      simp only [take_succ_cons, map_cons, sum_cons]
      rw [sliceTo_cons c cs (by omega), Nat.add_sub_cancel_left, ih]

theorem sliceFrom_of_ascii (s : List Char) (n : Nat) (h : isAscii ((utf8Bytes s).take n)) :
    sliceFrom s n = s.drop n := by
  induction s generalizing n with
  | nil => cases n <;> simp [sliceFrom]
  | cons c cs ih => cases n with
    | zero => rfl
    | succ n =>
      obtain ⟨b, bs, hc⟩ := exists_cons_of_ne_nil (@String.utf8EncodeChar_ne_nil c)
      rw [utf8Bytes_cons, hc] at h
      simp only [cons_append, take_succ_cons, isAscii, all_cons, Bool.and_eq_true,
        decide_eq_true_eq] at h
      obtain ⟨rfl, hsize, -⟩ := utf8Size_of_ascii hc h.1
      rw [sliceFrom_cons c cs (Nat.succ_pos n), hsize, drop_succ_cons]
      exact ih n h.2

theorem length_le_utf8Bytes (s : List Char) : s.length ≤ (utf8Bytes s).length := by
  induction s with
  | nil => simp
  | cons c cs ih =>
    have := c.utf8Size_pos
    rw [utf8Bytes_cons, length_append, String.length_utf8EncodeChar, length_cons]
    omega

theorem advanceByChars_eq (s : List Char) (n : Nat) : advanceByChars s n = s.drop n := by
  unfold advanceByChars
  split
  · next h => simp [h]
  split
  · next h => exact (drop_eq_nil_of_le ((length_le_utf8Bytes s).trans h)).symm
  split
  · next h => exact sliceFrom_of_ascii s n h
  · rw [getElem?_charIndices]
    cases hn : s[n]? with
    | none => simpa using (List.getElem?_eq_none_iff.mp hn)
    | some c => simpa using sliceFrom_sum s n

theorem takeChars_eq (s : List Char) (n : Nat) : takeChars s n = s.take n := by
  unfold takeChars
  split
  · next h => simp [h]
  · rw [getElem?_charIndices]
    cases hn : s[n]? with
    | none => exact (take_of_length_le (List.getElem?_eq_none_iff.mp hn)).symm
    | some c => simpa using sliceTo_sum s n

theorem NodeText.splitAtChar_eq (t : NodeText) {n : Nat} (hcount : t.charCount = t.text.length)
    (hpos : 0 < n) (hlt : n < t.charCount) :
    t.splitAtChar n = (⟨t.text.take n, n⟩, ⟨t.text.drop n, t.charCount - n⟩) := by
  have hn : t.text[n]? = some (t.text.get ⟨n, hcount ▸ hlt⟩) :=
    getElem?_eq_getElem (hcount ▸ hlt)
  have hto := sliceTo_sum t.text n
  have hfrom := sliceFrom_sum t.text n
  simp only [splitAtChar, hpos.ne', not_le.mpr hlt, if_false, getElem?_charIndices, hn,
    Option.map_some, Nat.zero_add, hto, hfrom]

theorem findIdx?_zip_ne {α : Type*} [DecidableEq α] (a b : List α) :
    ((a.zip b).findIdx? fun x => x.1 ≠ x.2).getD (min a.length b.length) = keyMatch a b := by
  induction a generalizing b with
  | nil => simp
  | cons x a ih => cases b with
    | nil => simp
    | cons y b =>
      rw [keyMatch_cons, zip_cons_cons, findIdx?_cons]
      by_cases h : x = y
      · rw [if_pos h, ← ih b]
        cases hidx : (a.zip b).findIdx? (fun x => x.1 ≠ x.2) <;> simp_all
      · simp [h]

theorem sharedPrefixCountChars_eq (a b : List Char) :
    sharedPrefixCountChars a b = keyMatch a b := by
  unfold sharedPrefixCountChars
  induction a generalizing b with
  | nil => simp
  | cons x a ih => cases b with
    | nil => simp
    | cons y b =>
      rw [keyMatch_cons, zip_cons_cons, takeWhile_cons]
      by_cases h : x = y
      · simp [h, ih]
      · simp [h]

theorem keyMatch_utf8Bytes (a b : List Char)
    (h : isAscii ((utf8Bytes a).take (keyMatch (utf8Bytes a) (utf8Bytes b)))) :
    keyMatch (utf8Bytes a) (utf8Bytes b) = keyMatch a b := by
  induction a generalizing b with
  | nil => simp [utf8Bytes]
  | cons c cs ih => cases b with
    | nil => simp [utf8Bytes]
    | cons d ds =>
      obtain ⟨x, xs, hc⟩ := exists_cons_of_ne_nil (@String.utf8EncodeChar_ne_nil c)
      obtain ⟨y, ys, hd⟩ := exists_cons_of_ne_nil (@String.utf8EncodeChar_ne_nil d)
      rw [utf8Bytes_cons, utf8Bytes_cons, hc, hd, cons_append, cons_append,
        keyMatch_cons] at h ⊢
      rw [keyMatch_cons]
      by_cases hxy : x = y
      · subst hxy
        simp only [if_true, take_succ_cons, isAscii, all_cons, Bool.and_eq_true,
          decide_eq_true_eq] at h
        obtain ⟨rfl, -, hcx⟩ := utf8Size_of_ascii hc h.1
        obtain ⟨rfl, -, hdx⟩ := utf8Size_of_ascii hd h.1
        have hcd : c = d := Char.ext (UInt32.toNat_inj.mp (hcx.trans hdx.symm))
        rw [if_pos rfl, if_pos hcd]
        exact congrArg (· + 1) (ih ds h.2)
      · have hcd : c ≠ d := by
          rintro rfl
          rw [hc] at hd
          exact hxy (List.cons.inj hd).1
        rw [if_neg hxy, if_neg hcd]

theorem sharedPrefixCount_eq (a b : List Char) : sharedPrefixCount a b = keyMatch a b := by
  unfold sharedPrefixCount
  simp only [findIdx?_zip_ne]
  split
  · next h => exact keyMatch_utf8Bytes a b h
  · exact sharedPrefixCountChars_eq a b

end LLM42.Gateway
