import LLM42.Verification.Worker

/-! # A verification pass, request by request

A pass works on concatenated windows; its effect on each request of the group depends only on
that request and on the rows of its own window. -/

namespace LLM42

open List

namespace LLM42Info

def paddedLen (alwaysAlign forceIncludeAll : Bool) (windowSize : ℕ) (r : Req) : ℕ :=
  if shouldPad alwaysAlign forceIncludeAll windowSize r then windowSize
  else (window forceIncludeAll windowSize r).length

variable (align force : Bool) (w : ℕ) {reqs : List Req}

theorem length_window_le_paddedLen (r : Req) :
    (window force w r).length ≤ paddedLen align force w r := by
  unfold paddedLen
  split
  next h =>
    simp only [shouldPad, Bool.and_eq_true, decide_eq_true_eq] at h
    omega
  · exact le_rfl

/-- The loop body of `from_requests`, with padding of length zero in the unpadded case. -/
def entry (r : Req) : InfoEntry :=
  let n := (window force w r).length
  let padding := paddedLen align force w r - n
  { outputs := window force w r ++ replicate padding dummyTokenId
    outputLen := n
    paddedLen := paddedLen align force w r
    paddingMask := replicate n true ++ replicate padding false
    paddingCount := padding }

theorem entryOf_eq_entry {r : Req} (h : r.unverified ≠ []) :
    entryOf align force w r = some (entry align force w r) := by
  have hlen : ¬ r.unverified.length = 0 := by simpa using h
  by_cases hp : shouldPad align force w r
  · simp [entryOf, entry, paddedLen, hp, hlen]
  · simp [entryOf, entry, paddedLen, hp, hlen]

theorem fromRequests_eq (h : ∀ r ∈ reqs, r.unverified ≠ []) :
    fromRequests align force w reqs = create (reqs.map (entry align force w)) := by
  unfold fromRequests
  congr 1
  induction reqs with
  | nil => rfl
  | cons r reqs ih =>
    rw [filterMap_cons, entryOf_eq_entry align force w (h r (by simp)), map_cons,
      ih fun r' hr => h r' (by simp [hr])]

@[simp] theorem length_entry_outputs (r : Req) :
    (entry align force w r).outputs.length = paddedLen align force w r := by
  have h := length_window_le_paddedLen align force w r
  simp only [entry, length_append, length_replicate]
  omega

def rowsFrom {α : Type*} (xs : ℕ → α) (offset n : ℕ) : List α :=
  (range n).map fun j => xs (offset + j)

@[simp] theorem length_rowsFrom {α : Type*} (xs : ℕ → α) (offset n : ℕ) :
    (rowsFrom xs offset n).length = n := by
  simp [rowsFrom]

private theorem filter_zipIdx_true (n k : ℕ) :
    (((replicate n true).zipIdx k).filter (·.1)).map (·.2) = range' k n := by
  induction n generalizing k with
  | zero => rfl
  | succ n ih =>
    rw [replicate_succ, zipIdx_cons, filter_cons_of_pos rfl, map_cons, ih, range'_succ]

private theorem filter_zipIdx_false (p k : ℕ) :
    ((replicate p false).zipIdx k).filter (·.1) = [] := by
  induction p generalizing k with
  | zero => rfl
  | succ p ih => rw [replicate_succ, zipIdx_cons, filter_cons_of_neg (by simp), ih]

theorem selectMasked_replicate {α : Type*} (xs : ℕ → α) (offset n p : ℕ) :
    selectMasked xs offset (replicate n true ++ replicate p false) =
      rowsFrom xs offset n := by
  have hmap : ∀ l : List (Bool × ℕ), l.map (fun x => xs (offset + x.2)) =
      (l.map (·.2)).map fun j => xs (offset + j) := by
    intro l
    simp
  rw [selectMasked, zipIdx_append, filter_append, filter_zipIdx_false, append_nil,
    hmap, filter_zipIdx_true, rowsFrom, range_eq_range']

theorem rowsFrom_getD (pre seg post : List Token) :
    rowsFrom (fun j => (pre ++ seg ++ post).getD j 0) pre.length seg.length = seg := by
  apply ext_getElem
  · simp
  · intro i h1 h2
    simp [rowsFrom, getD_eq_getElem?_getD, getElem?_append, h2]

/-- The windows of consecutive requests, compared row by row. -/
def compareWindows (pct : Option MismatchPercentage) (out : VerifyOutput) :
    ℕ → List Req → List (Req × (ℕ × ℕ))
  | _, [] => []
  | offset, r :: reqs =>
    let n := (window force w r).length
    compareReq pct n (window force w r) (rowsFrom out.tokenIds offset n)
        (out.logprobs.map fun lps => rowsFrom lps offset n) r ::
      compareWindows pct out (offset + paddedLen align force w r) reqs

private theorem compareFrom_entries (pct : Option MismatchPercentage) (out : VerifyOutput)
    (pre : List Token) (reqs : List Req) :
    compareFrom pct (pre ++ reqs.flatMap fun r => (entry align force w r).outputs) out pre.length
      (reqs.map fun r => (r, (entry align force w r).paddedLen, (entry align force w r).outputLen,
        (entry align force w r).paddingMask)) =
      compareWindows align force w pct out pre.length reqs := by
  induction reqs generalizing pre with
  | nil => rfl
  | cons r reqs ih =>
    have horig : rowsFrom (fun j => (pre ++ ((entry align force w r).outputs ++
        reqs.flatMap fun r => (entry align force w r).outputs)).getD j 0) pre.length
        (window force w r).length = window force w r := by
      have h := rowsFrom_getD pre (window force w r)
        (replicate (paddedLen align force w r - (window force w r).length) dummyTokenId ++
          reqs.flatMap fun r => (entry align force w r).outputs)
      simpa [entry, append_assoc] using h
    have htail := ih (pre ++ (entry align force w r).outputs)
    simp only [length_append, length_entry_outputs, append_assoc] at htail
    simp only [map_cons, flatMap_cons, compareFrom, compareWindows]
    rw [show (entry align force w r).paddedLen = paddedLen align force w r from rfl, htail]
    simp only [entry, selectMasked_replicate] at horig ⊢
    rw [horig]

/-- The metadata of a pass over `reqs`, whatever its dummies and padding slots. -/
structure Describes (reqs : List Req) (numDummies dummyLen : ℕ) (info : LLM42Info) : Prop where
  real : info.numRealRequests = reqs.length
  orig : info.originalOutputs = reqs.flatMap fun r => (entry align force w r).outputs
  padded : info.paddedLens =
    reqs.map (paddedLen align force w) ++ replicate numDummies dummyLen
  lens : info.outputLens =
    reqs.map (fun r => (window force w r).length) ++ replicate numDummies 0
  masks : info.paddingMasks = reqs.map (fun r => (entry align force w r).paddingMask) ++
    replicate numDummies (replicate dummyLen false)
  slots : info.totalPaddingCacheSlots = (reqs.map fun r => paddedLen align force w r - 1).sum

theorem describes_fromRequests (h : ∀ r ∈ reqs, r.unverified ≠ []) (dummyLen : ℕ) :
    Describes align force w reqs 0 dummyLen (fromRequests align force w reqs) := by
  rw [fromRequests_eq align force w h]
  constructor <;> simp [create, flatMap_map, Function.comp_def, entry]

theorem Describes.appendDummyEntries {n dummyLen : ℕ} {info : LLM42Info}
    (h : Describes align force w reqs 0 dummyLen info) :
    Describes align force w reqs n dummyLen (info.appendDummyEntries n dummyLen) where
  real := h.real
  orig := h.orig
  padded := by simp [LLM42Info.appendDummyEntries, h.padded]
  lens := by simp [LLM42Info.appendDummyEntries, h.lens]
  masks := by simp [LLM42Info.appendDummyEntries, h.masks]
  slots := h.slots

theorem Describes.verifyAndCompare_eq {n dummyLen : ℕ} {info : LLM42Info}
    (h : Describes align force w reqs n dummyLen info) (pct : Option MismatchPercentage)
    (out : VerifyOutput) :
    info.verifyAndCompare pct reqs out = compareWindows align force w pct out 0 reqs := by
  have hzip : reqs.zip (info.paddedLens.zip (info.outputLens.zip info.paddingMasks)) =
      reqs.map fun r => (r, (entry align force w r).paddedLen, (entry align force w r).outputLen,
        (entry align force w r).paddingMask) := by
    rw [h.padded, h.lens, h.masks]
    clear h
    induction reqs with
    | nil => rfl
    | cons r reqs ih => simpa [entry] using ih
  have hfrom := compareFrom_entries align force w pct out [] reqs
  rw [verifyAndCompare, h.real, take_length, hzip, h.orig]
  simpa using hfrom

end LLM42Info

namespace LLM42Worker

open LLM42Info

variable (w : LLM42Worker) (force : Bool) {reqs : List Req} {a b : TokenToKVPoolAllocator}
  {id : ReqId} {info info' : LLM42Info}

def compareOne (out : VerifyOutput) (offset : ℕ) (r : Req) : Req × (ℕ × ℕ) :=
  let n := (window force w.windowSize r).length
  let rows := rowsFrom out.tokenIds offset n
  let logprobs := out.logprobs.map fun lps => rowsFrom lps offset n
  if 100 ≤ w.skipMismatch then compareReq none n (window force w.windowSize r) rows logprobs r
  else if w.skipMismatch ≤ 0 then (r, (r.outputIds.length - r.llm42VerifiedTokens, 0))
  else compareReq (some w.mismatchPercentage) n (window force w.windowSize r) rows logprobs r

/-- A request after a pass in which its window starts at row `offset`. -/
def verifyReq (out : VerifyOutput) (offset : ℕ) (r : Req) : Req :=
  recordResult (window force w.windowSize r).length (w.compareOne force out offset r)

/-- Tokens that the pass removes from the request, net of the verifier's own token. -/
def netRollback (out : VerifyOutput) (offset : ℕ) (r : Req) : ℕ :=
  (w.compareOne force out offset r).2.2

def rowsOf (r : Req) : ℕ := paddedLen w.alwaysAlign force w.windowSize r

/-- The requests of a group with the rows at which their windows start. -/
def withOffsets : ℕ → List Req → List (ℕ × Req)
  | _, [] => []
  | offset, r :: reqs => (offset, r) :: withOffsets (offset + w.rowsOf force r) reqs

theorem map_snd_withOffsets (offset : ℕ) (reqs : List Req) :
    (w.withOffsets force offset reqs).map (·.2) = reqs := by
  induction reqs generalizing offset with
  | nil => rfl
  | cons r reqs ih => simp [withOffsets, ih]

theorem compareWindows_eq (pct : Option MismatchPercentage) (out : VerifyOutput) (offset : ℕ)
    (reqs : List Req) :
    compareWindows w.alwaysAlign force w.windowSize pct out offset reqs =
      (w.withOffsets force offset reqs).map fun x =>
        compareReq pct (window force w.windowSize x.2).length (window force w.windowSize x.2)
          (rowsFrom out.tokenIds x.1 (window force w.windowSize x.2).length)
          (out.logprobs.map fun lps => rowsFrom lps x.1 (window force w.windowSize x.2).length)
          x.2 := by
  induction reqs generalizing offset with
  | nil => rfl
  | cons r reqs ih => simp [compareWindows, withOffsets, rowsOf, ih]

theorem compare_eq {info : LLM42Info} {n dummyLen : ℕ} (out : VerifyOutput)
    (h : Describes w.alwaysAlign force w.windowSize reqs n dummyLen info) :
    w.compare info reqs out =
      (w.withOffsets force 0 reqs).map fun x => w.compareOne force out x.1 x.2 := by
  have hcmp (pct : Option MismatchPercentage) := h.verifyAndCompare_eq _ _ _ pct out
  unfold compare compareOne
  split_ifs with h1 h2
  · rw [hcmp, compareWindows_eq]
  · conv_lhs => rw [← w.map_snd_withOffsets force 0 reqs]
    simp
  · rw [hcmp, compareWindows_eq]

theorem describes_buildInfo {numDummies : ℕ} (h : ∀ r ∈ reqs, r.unverified ≠ [])
    (hpool : w.fixedPool = none → numDummies = 0) :
    ∃ dummyLen, Describes w.alwaysAlign force w.windowSize reqs numDummies dummyLen
      (w.buildInfo reqs force numDummies) := by
  unfold buildInfo
  split
  next pool _ =>
    refine ⟨pool.windowSize, ?_⟩
    split
    · exact (describes_fromRequests _ _ _ h _).appendDummyEntries
    next hn =>
      obtain rfl : numDummies = 0 := by omega
      exact describes_fromRequests _ _ _ h _
  next hnone =>
    rw [hpool hnone]
    exact ⟨0, describes_fromRequests _ _ _ h _⟩

/-- What step 2 can do: nothing, take pool slots, or allocate slots that step 8 returns. -/
theorem assignPadding_ok (h : w.assignPadding info a = .ok (info', b)) :
    (info.totalPaddingCacheSlots = 0 ∧ info' = info ∧ b = a) ∨
    (0 < info.totalPaddingCacheSlots ∧ b = a ∧ ∃ pool locs, w.fixedPool = some pool ∧
      pool.getPaddingCacheLocs info.totalPaddingCacheSlots = .ok locs ∧
      info' = info.setPaddingCacheLocs locs) ∨
    (0 < info.totalPaddingCacheSlots ∧ w.fixedPool = none ∧ ∃ locs,
      a.alloc info.totalPaddingCacheSlots = (b, some locs) ∧
      info' = { info with paddingCacheLocs := some locs, paddingCacheLocsAllocated := some locs }) := by
  unfold assignPadding at h
  split at h
  next h0 =>
    simp only [Except.ok.injEq, Prod.mk.injEq] at h
    exact .inl ⟨h0, h.1.symm, h.2.symm⟩
  next h0 =>
  have hpos : 0 < info.totalPaddingCacheSlots := Nat.pos_of_ne_zero h0
  split at h
  next pool hp =>
    obtain ⟨locs, hlocs, h⟩ := Library.bind_eq_ok h
    simp only [Except.ok.injEq, Prod.mk.injEq] at h
    exact .inr (.inl ⟨hpos, h.2.symm, pool, locs, hp, hlocs, h.1.symm⟩)
  next hp =>
  split at h
  next c info'' halloc =>
    cases h
    unfold allocatePaddingKvCache at halloc
    rw [if_neg h0] at halloc
    split at halloc
    next d locs hd =>
      cases halloc
      exact .inr (.inr ⟨hpos, hp, locs, hd, rfl⟩)
    · simp at halloc
  · cases h

theorem describes_assignPadding {n dummyLen : ℕ}
    (hd : Describes w.alwaysAlign force w.windowSize reqs n dummyLen info)
    (h : w.assignPadding info a = .ok (info', b)) :
    Describes w.alwaysAlign force w.windowSize reqs n dummyLen info' := by
  rcases w.assignPadding_ok h with ⟨_, rfl, _⟩ | ⟨_, _, pool, locs, _, _, rfl⟩ | ⟨_, _, locs, _, rfl⟩
  · exact hd
  · exact { hd with }
  · exact { hd with }

theorem dummyRows_ok {n : ℕ} {d : Option (DummyData × ℕ × ℕ)} (h : w.dummyRows n = .ok d) :
    w.fixedPool = none → n = 0 := by
  intro hp
  by_contra hn
  simp [dummyRows, hn, hp] at h

private theorem zipWith_recordResult (out : VerifyOutput) (offset : ℕ) (reqs : List Req)
    (zeros : List ℕ) :
    zipWith recordResult (reqs.map (fun r => (window force w.windowSize r).length) ++ zeros)
        ((w.withOffsets force offset reqs).map fun x => w.compareOne force out x.1 x.2) =
      (w.withOffsets force offset reqs).map fun x => w.verifyReq force out x.1 x.2 := by
  induction reqs generalizing offset with
  | nil => simp [withOffsets]
  | cons r reqs ih => simp [withOffsets, verifyReq, ih]

variable {K : Type} {forward : VerifyBatch → K → VerifyOutput × K} {pool : ReqToTokenPool}
  {group : List ReqId} {force : Bool} {numDummies : ℕ} {s s' : VerifyState K}
  {results : List (ReqId × ℕ)}

structure PassResult (forward : VerifyBatch → K → VerifyOutput × K) (pool : ReqToTokenPool)
    (group : List ReqId) (force : Bool) (numDummies : ℕ) (s s' : VerifyState K)
    (results : List (ReqId × ℕ)) where
  info : LLM42Info
  allocator : TokenToKVPoolAllocator
  dummies : Option (DummyData × ℕ × ℕ)
  verifyBatch : VerifyBatch
  out : VerifyOutput
  assigned : w.assignPadding (w.buildInfo (group.map s.heap) force numDummies) s.allocator =
    .ok (info, allocator)
  dummyRows_eq : w.dummyRows numDummies = .ok dummies
  prepared : info.prepareVerifyBatch pool s.heap group dummies = .ok verifyBatch
  forward_eq : forward verifyBatch s.device = (out, s'.device)
  heap_eq : s'.heap = writeBack s.heap (group.zip
    ((w.withOffsets force 0 (group.map s.heap)).map fun x => w.verifyReq force out x.1 x.2))
  results_eq : results = (group.zip (w.withOffsets force 0 (group.map s.heap))).filterMap fun x =>
    if 0 < w.netRollback force out x.2.1 x.2.2 then
      some (x.1, w.netRollback force out x.2.1 x.2.2)
    else none
  batch_eq : s'.batch = if results = [] then s.batch
    else updateBatchState s.batch s'.heap (results.map (·.1))
  allocator_eq : s'.allocator = if 0 < info.totalPaddingCacheSlots ∧ w.fixedPool.isNone
    then info.freePaddingKvCache allocator else allocator

/-- A pass, split into what it does to each request. -/
theorem runVerification_ok (hall : ∀ id ∈ group, (s.heap id).unverified ≠ [])
    (h : w.runVerification forward pool group force numDummies s = .ok (s', results)) :
    Nonempty (w.PassResult forward pool group force numDummies s s' results) := by
  obtain ⟨⟨info, allocator⟩, hassign, h⟩ := Library.bind_eq_ok h
  obtain ⟨dummies, hdummies, h⟩ := Library.bind_eq_ok h
  obtain ⟨batch, hprep, h⟩ := Library.bind_eq_ok h
  have hreqs : ∀ r ∈ group.map s.heap, r.unverified ≠ [] := by
    intro r hr
    obtain ⟨id, hid, rfl⟩ := mem_map.mp hr
    exact hall id hid
  obtain ⟨dummyLen, hd⟩ := w.describes_buildInfo force hreqs (w.dummyRows_ok hdummies)
  have hinfo := w.describes_assignPadding force hd hassign
  cases hf : forward batch s.device with | mk out device =>
  rw [hf] at h
  simp only [w.compare_eq force _ hinfo, hinfo.lens, zipWith_recordResult, Except.ok.injEq,
    Prod.mk.injEq] at h
  obtain ⟨rfl, rfl⟩ := h
  refine ⟨⟨info, allocator, dummies, batch, out, hassign, hdummies, hprep, hf, rfl, ?_, rfl, rfl⟩⟩
  rw [zip_map_right, filterMap_map]
  rfl

/-- Row at which the window of `id` starts when each request takes `len` rows. -/
def offsetBy (len : ReqId → ℕ) : List ReqId → ReqId → ℕ
  | [], _ => 0
  | x :: xs, id => if x = id then 0 else len x + offsetBy len xs id

/-- Row at which the window of `id` starts in a pass over `group`. -/
def offsetIn (w : LLM42Worker) (force : Bool) (heap : ReqId → Req) (group : List ReqId)
    (id : ReqId) : ℕ :=
  offsetBy (fun x => w.rowsOf force (heap x)) group id

private theorem lookup_withOffsets {β : Type*} (heap : ReqId → Req) (f : ℕ × Req → β) (offset : ℕ)
    (group : List ReqId) (id : ReqId) :
    (group.zip ((w.withOffsets force offset (group.map heap)).map f)).lookup id =
      if id ∈ group then some (f (offset + w.offsetIn force heap group id, heap id)) else none := by
  induction group generalizing offset with
  | nil => rfl
  | cons x xs ih =>
    simp only [map_cons, withOffsets, zip_cons_cons, lookup_cons, offsetIn, offsetBy] at ih ⊢
    by_cases hx : x = id
    · subst hx
      simp
    · have hbeq : (id == x) = false := by simpa using fun h => hx h.symm
      rw [hbeq, ih, if_neg hx]
      have hmem : id ∈ x :: xs ↔ id ∈ xs := by simp [Ne.symm hx]
      simp only [hmem, Nat.add_assoc]

private theorem mem_zip_withOffsets (heap : ReqId → Req) (offset : ℕ) (group : List ReqId)
    (hnd : group.Nodup) (x : ReqId × ℕ × Req) :
    x ∈ group.zip (w.withOffsets force offset (group.map heap)) ↔
      x.1 ∈ group ∧ x.2 = (offset + w.offsetIn force heap group x.1, heap x.1) := by
  induction group generalizing offset with
  | nil => simp
  | cons y ys ih =>
    obtain ⟨hy, hnd'⟩ := nodup_cons.mp hnd
    simp only [map_cons, withOffsets, zip_cons_cons, mem_cons, ih _ hnd', offsetIn, offsetBy]
    constructor
    · rintro (rfl | ⟨hx, h2⟩)
      · simp
      · have hne : ¬ y = x.1 := fun h => hy (h ▸ hx)
        rw [if_neg hne]
        exact ⟨.inr hx, by rw [h2, Nat.add_assoc]⟩
    · rintro ⟨hx, h2⟩
      by_cases hne : y = x.1
      · left
        rw [if_pos hne] at h2
        subst hne
        exact Prod.ext rfl h2
      · rw [if_neg hne] at h2
        exact .inr ⟨hx.resolve_left fun h => hne h.symm, by rw [h2, Nat.add_assoc]⟩

variable {w}

section

variable (p : w.PassResult forward pool group force numDummies s s' results)

include p

theorem PassResult.heap_of_not_mem (hid : id ∉ group) : s'.heap id = s.heap id := by
  rw [p.heap_eq, writeBack, lookup_withOffsets, if_neg hid, Option.getD_none]

theorem PassResult.heap_of_mem (hid : id ∈ group) :
    s'.heap id = w.verifyReq force p.out (w.offsetIn force s.heap group id) (s.heap id) := by
  rw [p.heap_eq, writeBack, lookup_withOffsets, if_pos hid, Option.getD_some, Nat.zero_add]

theorem PassResult.mem_results (hnd : group.Nodup) {n : ℕ} :
    (id, n) ∈ results ↔ id ∈ group ∧ 0 < n ∧
      n = w.netRollback force p.out (w.offsetIn force s.heap group id) (s.heap id) := by
  have hres := p.results_eq
  generalize p.out = out at hres ⊢
  rw [hres, mem_filterMap]
  constructor
  · rintro ⟨⟨id', x⟩, hx, hn⟩
    obtain ⟨hid, hx2⟩ := (w.mem_zip_withOffsets s.heap 0 group hnd _).mp hx
    simp only [Nat.zero_add] at hid hx2 hn
    rw [hx2] at hn
    split at hn
    next hpos =>
      cases hn
      exact ⟨hid, hpos, rfl⟩
    · cases hn
  · rintro ⟨hid, hpos, rfl⟩
    refine ⟨(id, w.offsetIn force s.heap group id, s.heap id), ?_, by simp [hpos]⟩
    exact (w.mem_zip_withOffsets s.heap 0 group hnd _).mpr ⟨hid, by simp⟩

end

end LLM42Worker

end LLM42
