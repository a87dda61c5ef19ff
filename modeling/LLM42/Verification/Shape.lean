import Mathlib.Algebra.Order.BigOperators.Group.List
import LLM42.Verification.PerRequest

/-! # Shape of a verification batch

A pass builds its input tokens and its cache locations separately. The two lists agree in length
exactly when no request of the group has more unverified tokens than rows. -/

namespace LLM42

open List ReqToTokenPool

def Req.contextIdx (r : Req) : ℕ := r.originInputIds.length + r.llm42VerifiedTokens - 1

def Req.currentSeqLen (r : Req) : ℕ := r.originInputIds.length + r.outputIds.length - 1

namespace LLM42Info

variable (align force : Bool) {w : ℕ} {r : Req} {pool : ReqToTokenPool}
  {dummies : Option (DummyData × ℕ × ℕ)} {rows : List (Req × ℕ × ℕ)} {locs : Option (List ℕ)}
  {heap : ReqId → Req} {reqIds : List ReqId} {batch : VerifyBatch}

theorem window_eq_or (r : Req) : (window force w r = r.unverified) ∨
      (force ∧ w < r.unverified.length ∧ window force w r = r.unverified.take w) := by
  unfold window
  split
  next h =>
    simp only [Bool.and_eq_true, decide_eq_true_eq] at h
    exact .inr ⟨h.1, h.2, rfl⟩
  · exact .inl rfl

theorem length_window_le_unverified (r : Req) :
    (window force w r).length ≤ r.unverified.length := by
  rcases window_eq_or force (w := w) r with h | ⟨_, hlt, h⟩
  · rw [h]
  · rw [h, length_take]
    omega

theorem window_pos (hw : 0 < w) (h : r.unverified ≠ []) : 0 < (window force w r).length := by
  have hpos := length_pos_iff.mpr h
  rcases window_eq_or force (w := w) r with h | ⟨_, hlt, h⟩
  · rw [h]
    exact hpos
  · rw [h, length_take]
    omega

theorem paddedLen_pos (hw : 0 < w) (h : r.unverified ≠ []) : 0 < paddedLen align force w r :=
  (window_pos force hw h).trans_le (length_window_le_paddedLen align force w r)

theorem window_of_lt_paddedLen (h : (window force w r).length < paddedLen align force w r) :
    window force w r = r.unverified := by
  rcases window_eq_or force (w := w) r with h' | ⟨_, hlt, h'⟩
  · exact h'
  · have hlen : (window force w r).length = w := by
      rw [h', length_take]
      omega
    unfold paddedLen at h
    split at h
    · omega
    · omega

/-- Input tokens of one request: its rows, or more when the window was cut short. -/
theorem length_rowInputIds (hw : 0 < w) (hu : r.unverified ≠ []) (hctx : (contextToken r).isSome) :
    (rowInputIds r (paddedLen align force w r) (window force w r).length).length =
      max (paddedLen align force w r) r.unverified.length := by
  have hpos := paddedLen_pos align force hw hu
  obtain ⟨c, hc⟩ := Option.isSome_iff_exists.mp hctx
  unfold rowInputIds windowIds
  rw [if_neg (by omega), hc]
  dsimp only
  split
  next hlt =>
    have hfull := window_of_lt_paddedLen align force hlt
    rw [hfull] at hlt ⊢
    split
    · simp only [length_cons, length_append, length_dropLast, length_replicate]
      omega
    · simp only [length_cons, nil_append, length_nil, length_replicate]
      omega
  next hnlt =>
  have hwle := length_window_le_unverified force (w := w) r
  simp only [length_cons, length_dropLast]
  omega

theorem length_cacheLocs_le {offset : ℕ} {xs : List ℕ} (hpos : ∀ x ∈ rows, 0 < x.2.1)
    (h : cacheLocs pool locs offset rows = .ok xs) : xs.length ≤ (rows.map (·.2.1)).sum := by
  induction rows generalizing offset xs with
  | nil =>
    simp only [cacheLocs, Except.ok.injEq] at h
    simp [← h]
  | cons x rest ih =>
    obtain ⟨r, p, a⟩ := x
    have hp : 0 < p := hpos (r, p, a) (by simp)
    have hrest := fun y hy => hpos y (mem_cons_of_mem _ hy)
    unfold cacheLocs at h
    dsimp only at h
    split at h
    · cases h
    split at h
    · cases h
    split at h
    · obtain ⟨tail, ht, h⟩ := Library.bind_eq_ok h
      have hlen := ih hrest ht
      simp only [Except.ok.injEq] at h
      simp only [← h, length_cons, length_append, length_slice, map_cons, sum_cons]
      omega
    · obtain ⟨tail, ht, h⟩ := Library.bind_eq_ok h
      have hlen := ih hrest ht
      simp only [Except.ok.injEq] at h
      simp only [← h, length_cons, length_append, length_slice,
        length_take, length_drop, map_cons, sum_cons]
      omega

/-- Enough padding slots for every row after a context row. -/
def EnoughPadding (locs : Option (List ℕ)) (offset : ℕ) (rows : List (Req × ℕ × ℕ)) : Prop :=
  match locs with
  | none => ∀ x ∈ rows, x.2.1 = 1
  | some ls => offset + (rows.map (·.2.1 - 1)).sum ≤ ls.length

structure Verifiable (r : Req) : Prop where
  unverified : r.unverified ≠ []
  context : 0 < r.llm42VerifiedTokens ∨ r.originInputIds ≠ []
  row : r.kv.reqPoolIdx.isSome

section

variable (h : Verifiable r)

include h

theorem Verifiable.contextToken : (contextToken r).isSome := by
  unfold LLM42Info.contextToken
  split
  · rfl
  next hv =>
  rcases h.context with h | h
  · exact absurd h hv
  · simpa using h

theorem Verifiable.lt : r.llm42VerifiedTokens < r.outputIds.length := by
  have := length_pos_iff.mpr h.unverified
  rw [Req.length_unverified] at this
  omega

theorem Verifiable.one_le : 1 ≤ r.originInputIds.length + r.llm42VerifiedTokens := by
  rcases h.context with h | h
  · omega
  · have := length_pos_iff.mpr h
    omega

theorem Verifiable.contextIdx_lt : r.contextIdx < r.currentSeqLen := by
  have hlt := h.lt
  have hone := h.one_le
  simp only [Req.contextIdx, Req.currentSeqLen]
  omega

end

/-- The slots that the rows of a request write to as far as decode has written. -/
def ownSlots (pool : ReqToTokenPool) (r : Req) (p : ℕ) : List ℕ :=
  pool.slice (r.kv.reqPoolIdx.getD 0) r.contextIdx (min (r.contextIdx + p) r.currentSeqLen)

theorem ownSlots_eq (hr : Verifiable r) {p row : ℕ} (hp : 0 < p)
    (hrow : r.kv.reqPoolIdx = some row) :
    ownSlots pool r p = pool.reqToToken row r.contextIdx ::
      pool.slice row (r.originInputIds.length + r.llm42VerifiedTokens)
        (min (r.originInputIds.length + r.llm42VerifiedTokens + (p - 1)) r.currentSeqLen) := by
  have hlt := hr.contextIdx_lt
  have hone := hr.one_le
  have hstart : r.originInputIds.length + r.llm42VerifiedTokens = r.contextIdx + 1 := by
    rw [Req.contextIdx]
    omega
  have hstop : r.contextIdx + 1 + (p - 1) = r.contextIdx + p := by omega
  rw [ownSlots, hrow, Option.getD_some, hstart, hstop,
    ← pool.slice_append (Nat.le_succ r.contextIdx) (by omega), pool.slice_succ le_rfl,
    pool.slice_of_le le_rfl]
  rfl

/-- Each request's own slots, then its share of the padding slots, which are used up in order. -/
theorem cacheLocs_eq (pool : ReqToTokenPool) {offset : ℕ}
    (hrows : ∀ x ∈ rows, 0 < x.2.1 ∧ Verifiable x.1) (henough : EnoughPadding locs offset rows) :
    ∃ pads : List (List ℕ), pads.length = rows.length ∧ cacheLocs pool locs offset rows =
        .ok ((rows.zip pads).flatMap fun x => ownSlots pool x.1.1 x.1.2.1 ++ x.2) ∧
      ∀ x ∈ rows.zip pads, (ownSlots pool x.1.1 x.1.2.1 ++ x.2).length = x.1.2.1 := by
  induction rows generalizing offset with
  | nil => exact ⟨[], rfl, rfl, by simp⟩
  | cons x rest ih =>
    obtain ⟨r, p, a⟩ := x
    obtain ⟨hp, hv⟩ := hrows (r, p, a) mem_cons_self
    dsimp only at hp hv
    have hrest := fun y hy => hrows y (mem_cons_of_mem _ hy)
    obtain ⟨row, hrow⟩ := Option.isSome_iff_exists.mp hv.row
    have hlt := hv.contextIdx_lt
    have hown : ownSlots pool r p = _ := ownSlots_eq hv hp hrow
    have hlen := congrArg length hown
    rw [length_cons, length_slice] at hlen
    have hctx : ¬ r.originInputIds.length + r.outputIds.length - 1 ≤
        r.originInputIds.length + r.llm42VerifiedTokens - 1 := Nat.not_le.mpr hlt
    cases locs with
    | none =>
      obtain rfl : p = 1 := henough (r, p, a) mem_cons_self
      obtain ⟨pads, hpads, htail, hsum⟩ :=
        @ih offset hrest fun y hy => henough y (mem_cons_of_mem _ hy)
      refine ⟨[] :: pads, by simp [hpads], ?_, ?_⟩
      · simp only [cacheLocs, if_neg hctx, hrow, htail]
        rw [zip_cons_cons, flatMap_cons, hown, append_nil]
        rfl
      · rintro y (_ | ⟨_, hy⟩)
        · dsimp only
          rw [append_nil, hlen]
          omega
        · exact hsum y hy
    | some ls =>
      simp only [EnoughPadding, map_cons, sum_cons] at henough
      set remaining := p - 1 - (min (r.originInputIds.length + r.llm42VerifiedTokens + (p - 1))
        (r.originInputIds.length + r.outputIds.length - 1) -
          (r.originInputIds.length + r.llm42VerifiedTokens)) with hrem
      obtain ⟨pads, hpads, htail, hsum⟩ := @ih (offset + remaining) hrest (by
        simp only [EnoughPadding]
        omega)
      refine ⟨(ls.drop offset).take remaining :: pads, by simp [hpads], ?_, ?_⟩
      · simp only [cacheLocs, if_neg hctx, hrow, ← hrem, htail]
        rw [zip_cons_cons, flatMap_cons, hown]
        simp [Req.contextIdx, Req.currentSeqLen, bind, Except.bind]
      · rintro y (_ | ⟨_, hy⟩)
        · have hcur : r.currentSeqLen = r.originInputIds.length + r.outputIds.length - 1 := rfl
          dsimp only
          rw [length_append, hlen, length_take, length_drop]
          omega
        · exact hsum y hy

variable {align force} {info : LLM42Info} {n dummyLen : ℕ} {reqs : List Req}

theorem Describes.rows_eq (h : Describes align force w reqs n dummyLen info) :
    info.rows reqs = reqs.map fun r => (r, paddedLen align force w r, (window force w r).length) := by
  rw [rows, h.padded, h.lens]
  clear h
  induction reqs with
  | nil => rfl
  | cons r reqs ih => simp [ih]

theorem prepareVerifyBatch_ok (h : info.prepareVerifyBatch pool heap reqIds dummies = .ok batch) :
    ∃ locs, cacheLocs pool info.paddingCacheLocs 0 (info.rows (reqIds.map heap)) = .ok locs ∧
      batch = info.assemble heap reqIds dummies locs ∧
      batch.outCacheLoc.length = batch.inputIds.length := by
  unfold prepareVerifyBatch at h
  split at h
  · cases h
  obtain ⟨locs, hlocs, h⟩ := Library.bind_eq_ok h
  dsimp only at h
  split at h
  · cases h
  next hne =>
    simp only [Except.ok.injEq] at h
    exact ⟨locs, hlocs, h.symm, by simpa [← h] using hne⟩

theorem Describes.length_inputs (h : Describes align force w reqs n dummyLen info) (hw : 0 < w)
    (hreqs : ∀ r ∈ reqs, Verifiable r) :
    ((info.rows reqs).flatMap fun x => rowInputIds x.1 x.2.1 x.2.2).length =
      (reqs.map fun r => max (paddedLen align force w r) r.unverified.length).sum := by
  rw [h.rows_eq, length_flatMap, map_map]
  congr 1
  refine map_congr_left fun r hr => ?_
  exact length_rowInputIds align force hw (hreqs r hr).unverified (hreqs r hr).contextToken

theorem rowShape_verifiable (h : Verifiable r) {p : ℕ} (hp : 0 < p) : ∃ row, rowShape r p =
      some (row, r.originInputIds.length + r.llm42VerifiedTokens - 1, p) := by
  obtain ⟨c, hc⟩ := Option.isSome_iff_exists.mp h.contextToken
  obtain ⟨row, hrow⟩ := Option.isSome_iff_exists.mp h.row
  exact ⟨row, by simp [rowShape, hc, hrow, Nat.ne_of_gt hp]⟩

theorem Describes.shapes_eq (h : Describes align force w reqs n dummyLen info) (hw : 0 < w)
    (hreqs : ∀ r ∈ reqs, Verifiable r) :
    ((info.rows reqs).filterMap fun x => rowShape x.1 x.2.1).map (·.2) = reqs.map fun r =>
      (r.originInputIds.length + r.llm42VerifiedTokens - 1, paddedLen align force w r) := by
  rw [h.rows_eq]
  clear h
  induction reqs with
  | nil => rfl
  | cons r reqs ih =>
    obtain ⟨row, hrow⟩ := rowShape_verifiable (hreqs r (by simp))
      (paddedLen_pos align force hw (hreqs r (by simp)).unverified)
    simp only [map_cons, filterMap_cons, hrow]
    rw [ih fun r' hr => hreqs r' (by simp [hr])]

section

variable (h : Describes align force w (reqIds.map heap) n dummyLen info)

include h

/-- Lengths of the batch, row by row; dummies have no prefix. -/
theorem Describes.lens_assemble (hw : 0 < w) (hreqs : ∀ id ∈ reqIds, Verifiable (heap id))
    (dummies : Option (DummyData × ℕ × ℕ)) (locs : List ℕ) :
    let b := info.assemble heap reqIds dummies locs
    b.prefixLens = reqIds.map (fun id => (heap id).contextIdx) ++
        replicate (dummies.elim 0 (·.2.1)) 0 ∧
      b.extendLens = reqIds.map (fun id => paddedLen align force w (heap id)) ++
        replicate (dummies.elim 0 (·.2.1)) (dummies.elim 0 (·.2.2)) := by
  have hshapes := h.shapes_eq hw (by simpa using hreqs)
  have hpre := congrArg (map Prod.fst) hshapes
  have hext := congrArg (map Prod.snd) hshapes
  simp only [map_map, Function.comp_def] at hpre hext
  simp only [assemble, hpre, hext]
  exact ⟨rfl, trivial⟩

theorem Describes.inputIds_assemble (dummies : Option (DummyData × ℕ × ℕ)) (locs : List ℕ) :
    ∃ extra, (info.assemble heap reqIds dummies locs).inputIds =
      (reqIds.flatMap fun id => rowInputIds (heap id) (paddedLen align force w (heap id))
        (window force w (heap id)).length) ++ extra := by
  simp only [assemble, h.rows_eq, map_map, flatMap_map, Function.comp_def]
  exact ⟨_, rfl⟩

end

theorem rowInputIds_eq_cons {c : Token} {p : ℕ} (hu : r.unverified ≠ [])
    (hc : contextToken r = some c) (hp : r.unverified.length ≤ p) :
    ∃ pad, rowInputIds r p r.unverified.length = c :: (r.unverified.dropLast ++ pad) := by
  have hpos := length_pos_iff.mpr hu
  unfold rowInputIds windowIds
  rw [if_neg (by omega), hc]
  dsimp only
  split
  · split
    · exact ⟨_, rfl⟩
    next h1 =>
    have hnil : r.unverified.dropLast = [] := by
      rw [← length_eq_zero_iff, length_dropLast]
      omega
    exact ⟨_, by rw [hnil]⟩
  · exact ⟨[], by simp⟩

theorem window_eq_unverified (hw : 0 < w)
    (hd : Describes align force w (reqIds.map heap) n dummyLen info)
    (hreqs : ∀ id ∈ reqIds, Verifiable (heap id))
    (hdummies : ∀ d, dummies = some d → (d.1.cacheLocs.take (d.2.1 * d.2.2)).length ≤
      (d.1.inputIds.take (d.2.1 * d.2.2)).length)
    (h : info.prepareVerifyBatch pool heap reqIds dummies = .ok batch) :
    ∀ id ∈ reqIds, window force w (heap id) = (heap id).unverified := by
  have hreqs' : ∀ r ∈ reqIds.map heap, Verifiable r := by
    simpa using hreqs
  obtain ⟨locs, hlocs, rfl, heq⟩ := prepareVerifyBatch_ok h
  have hle := length_cacheLocs_le (by
    rw [hd.rows_eq]
    intro x hx
    obtain ⟨r, hr, rfl⟩ := mem_map.mp hx
    exact paddedLen_pos align force hw (hreqs' r hr).unverified) hlocs
  have hin := hd.length_inputs hw hreqs'
  rw [hd.rows_eq, map_map] at hle
  have hsum : ((reqIds.map heap).map fun r =>
      max (paddedLen align force w r) r.unverified.length).sum ≤
      ((reqIds.map heap).map (paddedLen align force w)).sum := by
    refine le_trans ?_ hle
    simp only [assemble, length_append, hin] at heq
    cases dummies with
    | none =>
      simp only [Option.elim_none, length_nil] at heq
      omega
    | some d =>
      have := hdummies d rfl
      simp only [Option.elim_some] at heq
      omega
  intro id hid
  have hmem : heap id ∈ reqIds.map heap := mem_map_of_mem hid
  have hu : (heap id).unverified.length ≤ paddedLen align force w (heap id) := by
    by_contra hlt
    refine absurd (sum_lt_sum _ _ ?_ ⟨heap id, hmem, ?_⟩) (not_lt.mpr hsum)
    · intro r _
      exact le_max_left _ _
    · exact lt_max_of_lt_right (not_le.mp hlt)
  rcases window_eq_or force (w := w) (heap id) with h | ⟨_, hlt, h⟩
  · exact h
  · by_cases hp : (window force w (heap id)).length < paddedLen align force w (heap id)
    · exact window_of_lt_paddedLen align force hp
    · rw [h, length_take] at hp
      omega

end LLM42Info

namespace LLM42Worker

open LLM42Info

variable {w : LLM42Worker} {K : Type} {forward : VerifyBatch → K → VerifyOutput × K}
  {pool : ReqToTokenPool} {group : List ReqId} {force : Bool} {numDummies : ℕ}
  {s s' : VerifyState K} {results : List (ReqId × ℕ)}

theorem PassResult.describes (p : w.PassResult forward pool group force numDummies s s' results)
    (hall : ∀ id ∈ group, (s.heap id).unverified ≠ []) :
    ∃ dummyLen, Describes w.alwaysAlign force w.windowSize (group.map s.heap) numDummies dummyLen
      p.info := by
  have hreqs : ∀ r ∈ group.map s.heap, r.unverified ≠ [] := by simpa using hall
  obtain ⟨dummyLen, hd⟩ := w.describes_buildInfo force hreqs (w.dummyRows_ok p.dummyRows_eq)
  exact ⟨dummyLen, w.describes_assignPadding force hd p.assigned⟩

theorem length_dummies {d : DummyData × ℕ × ℕ} (h : w.dummyRows numDummies = .ok (some d)) :
    (d.1.cacheLocs.take (d.2.1 * d.2.2)).length ≤ (d.1.inputIds.take (d.2.1 * d.2.2)).length := by
  unfold dummyRows at h
  split at h
  · cases h
  split at h
  · cases h
  next p hp =>
  obtain ⟨data, hdata, h⟩ := Library.bind_eq_ok h
  cases h
  unfold FixedSizeVerificationPool.getDummyData at hdata
  split at hdata
  · cases hdata
  · cases hdata
    simp [p.length_dummyCacheLocs, p.length_dummyInputIds]

/-- Every request of a pass that returns had its whole unverified output replayed. -/
theorem PassResult.window_eq (p : w.PassResult forward pool group force numDummies s s' results)
    (hall : ∀ id ∈ group, Verifiable (s.heap id)) :
    ∀ id ∈ group, window force w.windowSize (s.heap id) = (s.heap id).unverified := by
  obtain ⟨dummyLen, hd⟩ := p.describes fun id hid => (hall id hid).unverified
  exact window_eq_unverified w.windowSize_pos hd hall
    (fun d hdd => length_dummies (hdd ▸ p.dummyRows_eq)) p.prepared

end LLM42Worker

end LLM42
