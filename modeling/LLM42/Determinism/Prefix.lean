import LLM42.Determinism.Follows

/-! # Verified output is deterministic

Whatever decode produced and however requests were grouped, the verified part of a request's
output is a prefix of its reference sequence. -/

namespace LLM42

open Library List Function

namespace VerifierModel

open LLM42Info LLM42Worker

variable {E : Type} {model : VerifierModel E} {align force : Bool} {w : ℕ} {info : LLM42Info}
  {n dummyLen : ℕ} {heap : ReqId → Req} {group : List ReqId}

/-- First position that a request's window overwrites. -/
def contextPos (r : Req) : ℕ := r.originInputIds.length + r.llm42VerifiedTokens - 1

theorem rows_assemble (hw : 0 < w) (hd : Describes align force w (group.map heap) n dummyLen info)
    (hall : ∀ id ∈ group, Verifiable (heap id)) (dummies : Option (DummyData × ℕ × ℕ))
    (locs : List ℕ) :
    let b := info.assemble heap group dummies locs
    b.reqIds.zip ((b.reqs.map (·.samplingParams)).zip (b.prefixLens.zip b.extendLens)) =
      groupRows (fun id => (heap id).samplingParams) (fun id => contextPos (heap id))
        (fun id => paddedLen align force w (heap id)) group := by
  intro b
  obtain ⟨hpre, hext⟩ := hd.lens_assemble hw hall dummies locs
  rw [hpre, hext]
  change group.zip (((group.map heap).map _).zip _) = _
  clear hpre hext hall hd
  induction group with
  | nil => rfl
  | cons id group ih =>
    simp only [map_cons, cons_append, zip_cons_cons, groupRows_cons, ih]
    rfl

variable {wk : LLM42Worker} {pool : ReqToTokenPool} {numDummies : ℕ} {s s' : DvrState E}
  {results : List (ReqId × ℕ)}

/-- Each request's rows of a pass are the replay of its own window. -/
theorem pass_replayed (p : wk.PassResult model.verifyForward pool group force numDummies s s'
      results) (hnd : group.Nodup) (hall : ∀ id ∈ group, Verifiable (s.heap id)) {id : ReqId}
    (hid : id ∈ group) :
    let r := s.heap id
    let rows := wk.rowsOf force r
    let res := model.replayWindow r (s.device id) rows
    window force wk.windowSize r = r.unverified ∧ r.unverified.length ≤ rows ∧
      (rowInputIds r rows r.unverified.length).length = rows ∧ s'.device id = res.2 ∧
      rowsFrom p.out.tokenIds (wk.offsetIn force s.heap group id) r.unverified.length =
        res.1.take r.unverified.length := by
  obtain ⟨dummyLen, hinfo⟩ := p.describes fun x hx => (hall x hx).unverified
  have hfull := p.window_eq hall
  obtain ⟨locs, _, hbatch, _⟩ := prepareVerifyBatch_ok p.prepared
  obtain ⟨extra, hextra⟩ := hinfo.inputIds_assemble p.dummies locs
  have hrows := rows_assemble wk.windowSize_pos hinfo hall p.dummies locs
  have hlen : ∀ x ∈ group, (rowInputIds (s.heap x) (wk.rowsOf force (s.heap x))
      (s.heap x).unverified.length).length = wk.rowsOf force (s.heap x) := by
    intro x hx
    have hle := length_window_le_paddedLen wk.alwaysAlign force wk.windowSize (s.heap x)
    have := length_rowInputIds wk.alwaysAlign force wk.windowSize_pos (hall x hx).unverified
      (hall x hx).contextToken
    rw [hfull x hx] at this hle
    rw [rowsOf, this]
    omega
  have hle : (s.heap id).unverified.length ≤ wk.rowsOf force (s.heap id) := by
    have := length_window_le_paddedLen wk.alwaysAlign force wk.windowSize (s.heap id)
    rwa [hfull id hid] at this
  set ids := fun x => rowInputIds (s.heap x) (wk.rowsOf force (s.heap x))
    (s.heap x).unverified.length with hids
  have hinput : p.verifyBatch.inputIds = group.flatMap ids ++ extra := by
    rw [hbatch, hextra]
    congr 1
    refine flatMap_congr fun x hx => ?_
    rw [hids, hfull x hx]
    rfl
  have hforward := p.forward_eq
  rw [verifyForward, hinput, hbatch, hrows] at hforward
  set res := model.replayBatch (groupRows (fun x => (s.heap x).samplingParams)
    (fun x => contextPos (s.heap x)) (fun x => wk.rowsOf force (s.heap x)) group)
    (group.flatMap ids ++ extra) s.device with hres
  have hout : (fun j => res.1.getD j 0) = p.out.tokenIds :=
    congrArg VerifyOutput.tokenIds (Prod.mk.inj hforward).1
  have hdev : res.2 = s'.device := (Prod.mk.inj hforward).2
  obtain ⟨hcache, hmember⟩ := model.replayBatch_member extra hnd hlen hid s.device
  refine ⟨hfull id hid, hle, hlen id hid, ?_, ?_⟩
  · rw [← hdev]
    exact hcache
  · apply ext_getElem?
    intro i
    by_cases hi : i < (s.heap id).unverified.length
    · have hrow : res.1[wk.offsetIn force s.heap group id + i]? =
          (model.replayWindow (s.heap id) (s.device id) (wk.rowsOf force (s.heap id))).1[i]? :=
        hmember i (show i < wk.rowsOf force _ by omega)
      have hlt : i < (model.replayWindow (s.heap id) (s.device id)
          (wk.rowsOf force (s.heap id))).1.length := by
        rw [length_replayRow, hlen id hid]
        omega
      rw [getElem?_eq_getElem hlt] at hrow
      rw [getElem?_take_of_lt hi, getElem?_eq_getElem hlt, ← hout]
      simp [rowsFrom, hi, hrow]
    · rw [getElem?_eq_none (by simpa using hi), getElem?_eq_none]
      simp only [length_take]
      omega

theorem pass_follows (hskip : 100 ≤ wk.skipMismatch)
    (p : wk.PassResult model.verifyForward pool group force numDummies s s' results)
    (hnd : group.Nodup) (hall : ∀ id ∈ group, Verifiable (s.heap id)) {id : ReqId}
    (hid : id ∈ group) (hfollows : model.Follows (s.heap id) (s.device id)) :
    model.Follows (s'.heap id).checkFinished (s'.device id) := by
  obtain ⟨hfull, hle, hlen, hdev, hrows⟩ := pass_replayed p hnd hall hid
  have hne := (hall id hid).unverified
  have houtcome := wk.verifyReq_outcome p.out (wk.offsetIn force s.heap group id) hne hfull
  rw [hdev, p.heap_of_mem hid]
  rw [hrows] at houtcome
  generalize wk.verifyReq force p.out (wk.offsetIn force s.heap group id) (s.heap id) = r' at *
  generalize wk.netRollback force p.out (wk.offsetIn force s.heap group id) (s.heap id) = net at *
  set r := s.heap id with hr
  set res := model.replayWindow r (s.device id) (wk.rowsOf force r) with hres
  set m := firstMismatchPosition r.unverified (res.1.take r.unverified.length) with hm
  have hcount : wk.rollbackCount r.unverified (res.1.take r.unverified.length) =
      r.unverified.length - m := by
    rw [rollbackCount, if_pos hskip, hm]
  have hmle : m ≤ r.unverified.length := firstMismatchPosition_le _ _
  have hagree : ∀ i < m, r.unverified[i]? = res.1[i]? := by
    intro i hi
    have htake := take_firstMismatchPosition r.unverified (res.1.take r.unverified.length)
    rw [← hm] at htake
    have hget := congrArg (·[i]?) htake
    simp only [getElem?_take_of_lt hi] at hget
    rwa [getElem?_take_of_lt (by omega)] at hget
  rw [hcount] at houtcome
  cases houtcome with
  | accepted x hk =>
    exact (hfollows.accept hne hle hlen (fun i hi => hagree i (by omega)) x).checkFinished
  | corrected x t hk _ ht =>
    have hlt : m < r.unverified.length := by omega
    have hulen := r.length_unverified
    rw [show r.unverified.length - (r.unverified.length - m) = m by omega,
      getElem?_take_of_lt hlt] at ht
    refine hfollows.correct hle hlt hlen hagree ht rfl ?_ ?_ rfl hfollows.toFinish hfollows.grammar
    · have hkeep : r.outputIds.length - (r.unverified.length - m) = r.llm42VerifiedTokens + m := by
        omega
      simp only [List.rdrop, hkeep]
    · show r.outputIds.length - (r.unverified.length - m) + 1 = _
      omega

section

variable (p : wk.PassResult model.verifyForward pool group force numDummies s s' results)

include p

theorem pass_device_of_not_mem (hall : ∀ id ∈ group, Verifiable (s.heap id)) {id : ReqId}
    (hid : id ∉ group) : s'.device id = s.device id := by
  obtain ⟨dummyLen, hinfo⟩ := p.describes fun x hx => (hall x hx).unverified
  obtain ⟨locs, _, hbatch, _⟩ := prepareVerifyBatch_ok p.prepared
  have hrows := rows_assemble wk.windowSize_pos hinfo hall p.dummies locs
  have hforward := p.forward_eq
  rw [verifyForward, hbatch, hrows] at hforward
  rw [← (Prod.mk.inj hforward).2]
  exact model.replayBatch_of_not_mem hid _ _

theorem pass_live : live s' = live s := by
  rw [live, live, p.batch_eq]
  split
  · rfl
  · rw [updateBatchState, map_map]
    refine map_congr_left fun e _ => ?_
    simp only [comp_apply]
    split <;> rfl

end

structure OnReference (model : VerifierModel E) (s : DvrState E) (id : ReqId) : Prop where
  follows : (s.heap id).isDeterministic → model.Follows (s.heap id) (s.device id)
  unverified : ¬ (s.heap id).isDeterministic → (s.heap id).llm42VerifiedTokens = 0

theorem OnReference.congr {x : ReqId} (h : model.OnReference s x) (hheap : s'.heap x = s.heap x)
    (hdev : s'.device x = s.device x) : model.OnReference s' x := by
  constructor
  · rw [hheap, hdev]
    exact h.follows
  · rw [hheap]
    exact h.unverified

theorem onReference_prefill {id x : ReqId} {r : Req} {row : ℕ} {logits : LogitsRow}
    (hs : r.isSubmitted) (h : x ∈ live s → model.OnReference s x)
    (hx : x ∈ live (model.prefill s id r row logits)) :
    model.OnReference (model.prefill s id r row logits) x := by
  by_cases hxid : x = id
  · subst hxid
    have hheap : (model.prefill s x r row logits).heap x =
        { r.prefillToken true (model.firstToken r.samplingParams r.originInputIds) logits with
          kv := { r.kv with reqPoolIdx := some row } } := update_self ..
    have hdet : ((model.prefill s x r row logits).heap x).isDeterministic = r.isDeterministic := by
      rw [hheap]
      exact r.prefillToken_isDeterministic _ logits true
    constructor
    · intro hd
      rw [hheap]
      refine follows_prefillToken hs (hdet ▸ hd) logits _ fun p hp => ?_
      simp [prefill, hp]
    · intro hd
      have hver : r.llm42VerifiedTokens = 0 := by
        simp only [Req.isSubmitted, Bool.and_eq_true, decide_eq_true_eq] at hs
        exact hs.1.1.1.2
      rw [hdet] at hd
      rw [hheap]
      exact (r.prefillToken_llm42VerifiedTokens _ logits true).trans
        ((if_neg (by tauto)).trans hver)
  · have hmem : x ∈ live s := by
      simpa [live, prefill, hxid] using hx
    exact (h hmem).congr (update_of_ne hxid ..) (update_of_ne hxid ..)

theorem live_decode (s : DvrState E) (id : ReqId) (token : Token) (logits : LogitsRow) (entry : E) :
    live (decode s id token logits entry) = live s := by
  rw [live, live, decode, map_map]
  refine map_congr_left fun e _ => ?_
  simp only [comp_apply]
  split <;> rfl

theorem onReference_decode {id x : ReqId} (token : Token) (logits : LogitsRow) (entry : E)
    (hf : ¬ (s.heap id).finished) (h : model.OnReference s x) :
    model.OnReference (decode s id token logits entry) x := by
  by_cases hxid : x = id
  · subst hxid
    constructor
    · simp only [decode, update_self, Req.decodeToken_isDeterministic]
      exact fun hd => (h.follows hd).decodeToken hf token logits entry
    · simp only [decode, update_self, Req.decodeToken_isDeterministic,
        Req.decodeToken_llm42VerifiedTokens]
      exact h.unverified
  · exact h.congr (update_of_ne hxid ..) (update_of_ne hxid ..)

theorem verifiable_of_follows {r : Req} {row : ℕ → E} (hc : isCandidate r)
    (h : model.Follows r row) : Verifiable r := by
  simp only [isCandidate, Bool.and_eq_true, decide_eq_true_eq] at hc
  refine ⟨?_, .inl h.verified_pos, hc.1.1.2⟩
  rw [← length_pos_iff, Req.length_unverified]
  omega

theorem onReference_recheck {x : ReqId} (h : model.OnReference s x) :
    model.OnReference (recheck s) x := by
  by_cases hx : x ∈ live s ∧ (s.heap x).isDeterministic
  · have hheap : (recheck s).heap x = (s.heap x).checkFinished := if_pos hx
    constructor
    · rw [hheap]
      exact fun _ => (h.follows hx.2).checkFinished
    · rw [hheap]
      simp [hx.2]
  · exact h.congr (if_neg hx) rfl

theorem onReference_verify (hskip : 100 ≤ wk.skipMismatch)
    (hok : wk.runVerification model.verifyForward pool group force numDummies s =
      .ok (s', results)) (hnd : group.Nodup)
    (hgroup : ∀ id ∈ group, id ∈ live s ∧ isCandidate (s.heap id))
    (h : ∀ id ∈ live s, model.OnReference s id) :
    ∀ id ∈ live (recheck s'), model.OnReference (recheck s') id := by
  have hdet : ∀ id ∈ group, (s.heap id).isDeterministic := by
    intro id hid
    have := (hgroup id hid).2
    simp only [isCandidate, Bool.and_eq_true] at this
    exact this.1.1.1
  have hall : ∀ id ∈ group, Verifiable (s.heap id) := fun id hid =>
    verifiable_of_follows (hgroup id hid).2 ((h id (hgroup id hid).1).follows (hdet id hid))
  obtain ⟨p⟩ := wk.runVerification_ok (fun id hid => (hall id hid).unverified) hok
  intro id hid
  replace hid : id ∈ live s := pass_live p ▸ hid
  by_cases hmem : id ∈ group
  · have houtcome := wk.verifyReq_outcome p.out (wk.offsetIn force s.heap group id)
      (hall id hmem).unverified (p.window_eq hall id hmem)
    rw [← p.heap_of_mem hmem] at houtcome
    have hd : (s'.heap id).isDeterministic := houtcome.isDeterministic.trans (hdet id hmem)
    have hheap : (recheck s').heap id = (s'.heap id).checkFinished :=
      if_pos ⟨(pass_live p).symm ▸ hid, hd⟩
    constructor
    · rw [hheap]
      exact fun _ => pass_follows hskip p hnd hall hmem ((h id hid).follows (hdet id hmem))
    · rw [hheap]
      simp [hd]
  · exact onReference_recheck
      ((h id hid).congr (p.heap_of_not_mem hmem) (pass_device_of_not_mem p hall hmem))

/-- No event takes a live request off its reference. -/
theorem onReference_step (hskip : 100 ≤ wk.skipMismatch) {e : DvrEvent E}
    (h : ∀ id ∈ live s, model.OnReference s id) (he : model.dvrStep wk s e = .ok s') :
    ∀ id ∈ live s', model.OnReference s' id := by
  cases e with
  | prefill id r row logits =>
    simp only [dvrStep] at he
    split at he
    next hg =>
      cases he
      exact fun x hx => onReference_prefill hg.2 (h x) hx
    next => cases he; exact h
  | decode id token logits entry =>
    simp only [dvrStep] at he
    split at he
    next hg =>
      cases he
      intro x hx
      rw [live_decode] at hx
      exact onReference_decode token logits entry hg.2 (h x hx)
    next => cases he; exact h
  | verify pool group force numDummies =>
    simp only [dvrStep] at he
    split at he
    next hg =>
      obtain ⟨⟨s₁, results⟩, hrun, he⟩ := bind_eq_ok he
      cases he
      exact onReference_verify hskip hrun hg.1 hg.2 h
    next => cases he; exact h

/-- In every reachable state the verified output of a request is the beginning of its reference
sequence, which depends on the model and on the request's own fixed part only. -/
theorem verified_output_eq_reference (model : VerifierModel E) (wk : LLM42Worker)
    (hskip : 100 ≤ wk.skipMismatch) {s : DvrState E}
    (hs : Reachable (model.dvrStep wk) (fun s => s.batch = []) (fun _ _ => True) s)
    {id : ReqId} (hid : id ∈ live s) :
    let r := s.heap id
    r.outputIds.take r.llm42VerifiedTokens =
      (List.range r.llm42VerifiedTokens).map (model.reference r.static) := by
  have hinv : ∀ id ∈ live s, model.OnReference s id :=
    hs.invariant (fun s h => by simp [live, h]) fun s e t h _ he => onReference_step hskip h he
  replace hinv := hinv id hid
  by_cases hdet : (s.heap id).isDeterministic
  · have hf := hinv.follows hdet
    apply ext_getElem?
    intro i
    by_cases hi : i < (s.heap id).llm42VerifiedTokens
    · rw [getElem?_take_of_lt hi, hf.tokens i hi]
      simp [hi, reference_congr (show (s.heap id).static.static = (s.heap id).static from rfl)]
    · simp [hi]
  · simp [hinv.unverified hdet]

/-- In every reachable state the KV entries of a deterministic request, up to its last verified
token, are those of its reference sequence, whatever decode stored before. -/
theorem verified_cache_eq_reference (hskip : 100 ≤ wk.skipMismatch)
    (hs : Reachable (model.dvrStep wk) (fun s => s.batch = []) (fun _ _ => True) s)
    {id : ReqId} (hid : id ∈ live s) (hdet : (s.heap id).isDeterministic) :
    entriesBelow (s.device id) (contextPos (s.heap id)) =
      model.referenceCache (s.heap id).static ((s.heap id).llm42VerifiedTokens - 1) := by
  have hinv : ∀ id ∈ live s, model.OnReference s id :=
    hs.invariant (fun s h => by simp [live, h]) fun s e t h _ he => onReference_step hskip h he
  exact ((hinv id hid).follows hdet).cache

/-- A model that stores tokens and emits the sum of what it stored. -/
def sumModel : VerifierModel ℤ where
  entry t _ := t
  emit _ entries := entries.sum
  firstToken _ ids := ids.sum
  promptEntry ids pos := ids.getD pos 0
  logprobs _ _ := none

/-- Two deterministic requests; the second gets a wrong token and wrong entries from decode. -/
def pairScript : List (DvrEvent ℤ) :=
  let r : Req := { rid := "a", originInputIds := [1, 2], vocabSize := 1000,
                   samplingParams := { isDeterministic := true } }
  [.prefill 0 r 1 0, .prefill 1 { r with rid := "b" } 2 0,
   .decode 0 6 0 3, .decode 1 9 0 7, .decode 0 12 0 6, .decode 1 5 0 8,
   .verify (.create 4) [0, 1] false 0]

def emptyState : DvrState ℤ where
  heap _ := { rid := "", originInputIds := [], vocabSize := 0, samplingParams := {} }
  batch := []
  allocator := .create 8 false
  device _ _ := 0

theorem verified_output_eq_reference_pairScript :
    ∃ s, runEvents (sumModel.dvrStep (.plain 2 (by decide))) emptyState pairScript = .ok s ∧
      (s.heap 1).llm42VerifiedTokens = 2 ∧
      (s.heap 1).outputIds.take 2 = (List.range 2).map (sumModel.reference (s.heap 1).static) :=
  exists_runEvents_imp (p := fun s => 1 ∈ live s ∧ _) (by rfl) (by decide +kernel)
    fun _ hreach ⟨hid, hver⟩ =>
      have hprefix := verified_output_eq_reference _ _ (by decide) hreach hid
      ⟨hver, by dsimp only at hprefix; rwa [hver] at hprefix⟩

theorem verified_cache_eq_reference_pairScript :
    ∃ s, runEvents (sumModel.dvrStep (.plain 2 (by decide))) emptyState pairScript = .ok s ∧
      contextPos (s.heap 1) = 3 ∧ entriesBelow (s.device 1) (contextPos (s.heap 1)) =
        sumModel.referenceCache (s.heap 1).static ((s.heap 1).llm42VerifiedTokens - 1) :=
  exists_runEvents_imp (p := fun s => 1 ∈ live s ∧ (s.heap 1).isDeterministic ∧ _) (by rfl)
    (by decide +kernel) fun _ hreach ⟨hid, hdet, hpos⟩ =>
      ⟨hpos, verified_cache_eq_reference (by decide) hreach hid hdet⟩

end VerifierModel

end LLM42
