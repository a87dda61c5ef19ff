import LLM42.Batch.Scheduler

/-! # Rows stay with their requests

The invariant behind the batches: requests are in one place each, and the rows of the running batch
and of the newest prefill batch are those their requests own. One step lemma for each part of the
loop, then whole runs. -/

namespace LLM42.Batch

open Library List ScheduleBatch

namespace BatchState

variable (cfg : BatchConfig) (requests : ReqId → BatchReq)

def front (s : BatchState) : List ReqId :=
  s.curBatch.reqs ++ (s.lastBatch.map (·.reqs)).getD []

/-- The request stays in the last prefill batch when a pause filters it. -/
def Stays (s : BatchState) (mode : PauseMode) (id : ReqId) : Prop :=
  s.finished id = false ∧ (mode = .inPlace → s.chunkedReq ≠ some id)
deriving Decidable

/-- A pause merges the last prefill batch only where both batches have requests. -/
def MergesRows (s : BatchState) : BatchEvent → Prop
  | .pauseGeneration mode => ∀ last ∈ s.lastBatch,
      s.runningBatch.reqs ≠ [] ∧ ∃ id ∈ last.reqs, s.Stays mode id
  | _ => True

/-- The step does not empty the running batch. -/
def KeepsRequests (s : BatchState) : BatchEvent → Prop
  | .updateRunningBatch _ =>
    s.runningBatch.reqs = [] ∨ ∃ id ∈ s.runningBatch.reqs, s.finished id = false
  | .preempt victims => s.runningBatch.reqs = [] ∨ ∃ id ∈ s.runningBatch.reqs, id ∉ victims
  | .pauseGeneration .retract => s.runningBatch.reqs = []
  | _ => True

/-- With `strict`, an empty running batch must not have rows either. -/
structure Inv (strict : Prop) (s : BatchState) : Prop where
  placed : Placed s.waitingQueue s.runningBatch.reqs s.front s.chunkedReq s.nextId
  running : strict ∨ s.runningBatch.reqs ≠ [] → s.runningBatch.Aligned cfg requests s.own
  current : ∀ b, s.curBatch = .extend b → b.Aligned cfg requests s.own
  last : ∀ b ∈ s.lastBatch, b.Aligned cfg requests s.own
  one : s.curBatch.isNone ∨ s.lastBatch = none

variable {cfg requests} {strict : Prop} {s t : BatchState} {b b' : ScheduleBatch}
  {nextTokenIds : List Token} {retracted : Option ℕ} {victims : List ReqId}

theorem guarded_eq_ok {enabled : Bool} {next : Option BatchState}
    (h : guarded enabled next = .ok t) : enabled = true ∧ next = some t := by
  unfold guarded at h
  split at h
  next henabled =>
    split at h
    · cases h
      exact ⟨henabled, rfl⟩
    · cases h
  · cases h

theorem curBatch_of_isNone {c : CurBatch} (h : c.isNone = true) : c = .none := by
  cases c with
  | none => rfl
  | running => cases h
  | extend b => cases h

theorem batches_of_forming (h : s.forming = true) : s.curBatch = .none ∧ s.lastBatch = none := by
  simp only [forming, Bool.and_eq_true, Option.isNone_iff_eq_none] at h
  exact ⟨curBatch_of_isNone h.1.2, h.2⟩

theorem reqs_ne_nil (h : ¬ b.isEmpty = true) : b.reqs ≠ [] :=
  fun hempty => h (by simp [ScheduleBatch.isEmpty, hempty])

/-- A state without a prefill batch. -/
theorem inv_of_idle (hcur : ∀ b, s.curBatch ≠ .extend b) (hlast : s.lastBatch = none)
    (hplaced : Placed s.waitingQueue s.runningBatch.reqs [] s.chunkedReq s.nextId)
    (hrunning : strict ∨ s.runningBatch.reqs ≠ [] → s.runningBatch.Aligned cfg requests s.own) :
    s.Inv cfg requests strict where
  placed := by
    have hfront : s.front = [] := by
      unfold front
      cases hc : s.curBatch with
      | none | running => simp [hlast]
      | extend b => exact absurd hc (hcur b)
    exact hfront ▸ hplaced
  running := hrunning
  current b hb := absurd hb (hcur b)
  last b hb := by simp [hlast] at hb
  one := .inr hlast

/-- A state whose prefill batch is about to run. -/
theorem inv_of_extend (hcur : s.curBatch = .extend b) (hlast : s.lastBatch = none)
    (hplaced : Placed s.waitingQueue s.runningBatch.reqs b.reqs s.chunkedReq s.nextId)
    (hrunning : strict ∨ s.runningBatch.reqs ≠ [] → s.runningBatch.Aligned cfg requests s.own)
    (hb : b.Aligned cfg requests s.own) : s.Inv cfg requests strict where
  placed := by simpa [front, hcur, hlast] using hplaced
  running := hrunning
  current b' hb' := by
    cases hcur.symm.trans hb'
    exact hb
  last b hb := by simp [hlast] at hb
  one := .inr hlast

/-! ## Parts of a step -/

theorem reqs_filter_keepIndices {excluded : List ReqId} {fin : ReqId → Bool}
    (hb : b.filterBatch cfg requests (b.keepIndices fin excluded) = some b')
    (hnodup : b.reqs.Nodup) :
    b'.reqs.Nodup ∧ b'.reqs ⊆ b.reqs ∧ ∀ id ∈ b'.reqs, fin id = false ∧ id ∉ excluded := by
  rw [reqs_filterBatch_where hb]
  refine ⟨hnodup.filter _, filter_sublist.subset, fun id hid => ?_⟩
  simpa using (mem_filter.mp hid).2

theorem aligned_filter_running {own : ReqId → OwnRow} {p : ReqId → Bool}
    (h : strict ∨ b.reqs ≠ [] → b.Aligned cfg requests own)
    (hb : b.filterBatch cfg requests (indicesWhere p b.reqs) = some b')
    (hkeeps : strict → b.reqs = [] ∨ ∃ id ∈ b.reqs, p id) (hne : strict ∨ b'.reqs ≠ []) :
    b'.Aligned cfg requests own := by
  have hreqs := reqs_filterBatch_where hb
  by_cases hnil : b'.reqs = []
  · have hstrict : strict := hne.resolve_right fun h => h hnil
    rcases hkeeps hstrict with hempty | ⟨id, hid, hp⟩
    · rw [hempty] at hb
      cases hb
      have hsame : ({ b with reqs := [] } : ScheduleBatch) = b := by rw [← hempty]
      exact hsame.symm ▸ h (.inl hstrict)
    · rw [hreqs, filter_eq_nil_iff] at hnil
      exact absurd hp (hnil id hid)
  · refine (h (.inr fun hempty => hnil ?_)).filterBatch_where hb hnil
    rw [hreqs, hempty]
    rfl

theorem canRunList_eq (s : BatchState) (a : Admission) :
    s.canRunList a = (if a.continueChunk then s.chunkedReq else none).toList ++ a.picked := by
  unfold canRunList
  split <;> rfl

theorem aligned_decodeOwn (h : b.Aligned cfg requests s.own)
    (hb : b.prepareForDecode cfg requests s.outputIds = some b') :
    b'.Aligned cfg requests (s.decodeOwn cfg requests s.own b.reqs) ∧ b'.reqs = b.reqs :=
  h.prepareForDecode hb fun _ hid => if_pos hid

theorem retractIfNeeded_spec (hr : s.retractIfNeeded cfg requests retracted b = some (b', victims))
    (h : b.Aligned cfg requests s.own) (hne : b.reqs ≠ []) (hnodup : b.reqs.Nodup) :
    b'.Aligned cfg requests s.own ∧ victims ⊆ b.reqs ∧ b'.reqs.Nodup ∧
      b'.reqs ⊆ b.reqs ∧ ∀ id ∈ victims, id ∉ b'.reqs := by
  unfold retractIfNeeded at hr
  split at hr
  · cases hr
    exact ⟨h, nil_subset _, hnodup, Subset.refl _, by simp⟩
  next count =>
  simp only [retractDecode, Option.bind_eq_bind, Option.bind_eq_some_iff] at hr
  obtain ⟨victims', hvictims, b'', hb, hr⟩ := hr
  cases hr
  set order := s.sortedIndices requests b with horder
  set kept := max 1 (order.length - count)
  have hlen : order.length = b.reqs.length := by
    rw [horder, sortedIndices, length_insertionSort, length_range]
  have hsplit : (order.take kept ++ (order.drop kept).reverse).Nodup := by
    have hperm : (order.take kept ++ (order.drop kept).reverse).Perm order := by
      refine ((reverse_perm _).append_left _).trans ?_
      rw [take_append_drop]
    exact (hperm.trans (perm_insertionSort _ _)).nodup_iff.mpr nodup_range
  obtain ⟨htake, -, hdisj⟩ := nodup_append.mp hsplit
  have hkeep : order.take kept ≠ [] := by
    have hpos : 0 < order.length := hlen ▸ length_pos_iff.mpr hne
    rw [← length_pos_iff, length_take]
    omega
  refine ⟨h.filterBatch hkeep hb, select_subset hvictims, ?_⟩
  rcases reqs_filterBatch hb with ⟨-, hnil⟩ | ⟨rfl, hfull⟩ | hsel
  · exact absurd hnil hkeep
  · -- Everything stays, so nobody is retracted.
    refine ⟨hnodup, Subset.refl _, fun id hid => ?_⟩
    have hall : order.drop kept = [] := by
      rw [length_take, ← hlen] at hfull
      exact drop_eq_nil_of_le (by omega)
    rw [hall] at hvictims
    cases hvictims
    cases hid
  · refine ⟨select_nodup hsel htake hnodup, select_subset hsel, fun id hid hmem => ?_⟩
    obtain ⟨i, hi, hgi⟩ := mem_of_select hvictims hid
    obtain ⟨j, hj, hgj⟩ := mem_of_select hsel hmem
    have hlt := (List.getElem?_eq_some_iff.mp hgi).1
    exact hdisj j hj i hi ((getElem?_inj hlt hnodup).mp (hgi.trans hgj.symm)).symm

theorem lookup_zip {ids : List ReqId} {tokens : List Token} (hnodup : ids.Nodup)
    (hlen : tokens.length = ids.length) :
    Forall₂ (fun id token => (ids.zip tokens).lookup id = some token) ids tokens := by
  induction ids generalizing tokens with
  | nil =>
    cases tokens with
    | nil => exact .nil
    | cons token tokens => cases hlen
  | cons id ids ih =>
    cases tokens with
    | nil => cases hlen
    | cons token tokens =>
      obtain ⟨hid, hnodup⟩ := nodup_cons.mp hnodup
      refine .cons (by simp) (forall₂_imp_mem (ih hnodup (by simpa using hlen)) ?_)
      intro other hother token' hlook
      have hne : (other == id) = false := by
        rw [beq_eq_false_iff_ne]
        rintro rfl
        exact hid hother
      rw [zip_cons_cons, lookup_cons, hne]
      exact hlook

theorem aligned_sampledOwn {b : ScheduleBatch} (h : b.Aligned cfg requests s.own)
    (hnodup : b.reqs.Nodup) (hfits : FitsRows b nextTokenIds) :
    (b.setOutputIds nextTokenIds).Aligned cfg requests (s.sampledOwn b nextTokenIds) := by
  cases hc : b.columns with
  | none =>
    have hempty := h.prepared hc
    have hsame : b.setOutputIds nextTokenIds = b := by
      rw [setOutputIds, hc, Option.map_none, ← hc]
    rw [hsame]
    exact h.congr_own fun id hid => by
      rw [hempty] at hid
      cases hid
  | some c =>
    have hlen : nextTokenIds.length = b.reqs.length :=
      (hfits c hc).trans (h.columns c hc).seqLens.length_eq.symm
    refine h.setOutputIds (forall₂_imp_mem (lookup_zip hnodup hlen) fun id _ token hlook => ?_)
    rw [sampledOwn, hlook]

theorem sampledOwn_of_not_mem {b : ScheduleBatch} {id : ReqId} (hid : id ∉ b.reqs) :
    s.sampledOwn b nextTokenIds id = s.own id := by
  have hnone : (b.reqs.zip nextTokenIds).lookup id = none := by
    rw [lookup_eq_none_iff]
    intro x hx
    have hne : id ≠ x.1 := by
      rintro rfl
      exact hid (of_mem_zip hx).1
    simpa using hne
  rw [sampledOwn, hnone]

def chunkAfter (s : BatchState) (mode : PauseMode) : Option ReqId :=
  if mode = .inPlace then s.chunkedReq else none

theorem retractAll_spec {retracted : List ReqId}
    (hr : s.retractAll cfg requests b = some (b', retracted)) :
    b'.reqs = [] ∧ retracted = b.reqs.filter (fun id => !s.finished id) ∧
      (b.reqs = [] → b' = b) := by
  simp only [retractAll, Option.bind_eq_bind, Option.bind_eq_some_iff] at hr
  obtain ⟨mid, hmid, out, hout, hr⟩ := hr
  cases hr
  have hreqs := reqs_filterBatch_where hmid
  refine ⟨?_, by simpa using hreqs, fun hempty => ?_⟩
  · rw [reqs_filterBatch_where hout, filter_eq_nil_iff]
    intro id hid
    simp [hid]
  · rw [keepIndices, hempty] at hmid
    cases hmid
    cases hout
    rw [← hempty]

section Steps

variable (h : s.Inv cfg requests strict)
include h

theorem Inv.placed_of {l : List ReqId} (hfront : s.front = l) :
    Placed s.waitingQueue s.runningBatch.reqs l s.chunkedReq s.nextId :=
  hfront ▸ h.placed

/-! ## Merging the last prefill batch -/

theorem Inv.mergeLastBatch (hcur : s.curBatch.isNone = true)
    (ht : s.mergeLastBatch cfg requests = some t) : t.Inv cfg requests strict := by
  have hc := curBatch_of_isNone hcur
  have hidle : ∀ b, s.curBatch ≠ .extend b := by simp [hc]
  unfold BatchState.mergeLastBatch at ht
  split at ht
  · cases ht
    exact h
  next last hlast =>
  simp only [Option.bind_eq_bind, Option.bind_eq_some_iff] at ht
  obtain ⟨last', hlast', running, hrunning, ht⟩ := ht
  have hplaced := h.placed_of (l := last.reqs) (by simp [front, hc, hlast])
  obtain ⟨hnodup, hsub, hkept⟩ := reqs_filter_keepIndices hlast' hplaced.frontNodup
  have hleft : Placed s.waitingQueue s.runningBatch.reqs last'.reqs s.chunkedReq s.nextId :=
    hplaced.leave hplaced.runningNodup (List.Subset.refl _) hnodup hsub
  have hjoin : Placed s.waitingQueue (s.runningBatch.reqs ++ last'.reqs) [] s.chunkedReq
      s.nextId := hleft.join fun id hid hmem =>
    (hkept id hmem).2 (mem_append_left _ (Option.mem_toList.mpr hid))
  cases ht
  unfold joined at hrunning
  split at hrunning
  · cases hrunning
    exact inv_of_idle hidle rfl (hleft.leave hplaced.runningNodup (List.Subset.refl _) nodup_nil
      (nil_subset _)) h.running
  next hnonempty =>
  have hne : last'.reqs ≠ [] := reqs_ne_nil (by simp_all)
  have hal := (h.last last hlast).filterBatch_where hlast' hne
  split at hrunning
  next hempty =>
    cases hrunning
    rw [List.isEmpty_iff.mp hempty, nil_append] at hjoin
    exact inv_of_idle hidle rfl hjoin fun _ => hal
  next hnonempty' =>
  obtain ⟨hmerged, hreqs⟩ := (h.running (.inr (reqs_ne_nil hnonempty'))).mergeBatch hal hrunning
  rw [← hreqs] at hjoin
  exact inv_of_idle hidle rfl hjoin fun _ => hmerged

/-! ## Preemption -/

theorem Inv.preempt
    (hrunning : ∀ id ∈ victims, id ∈ s.runningBatch.reqs ∧ s.finished id = false)
    (hkeeps : strict → s.KeepsRequests (.preempt victims))
    (ht : s.preempt cfg requests victims = some t) : t.Inv cfg requests strict := by
  simp only [BatchState.preempt, Option.bind_eq_bind, Option.bind_eq_some_iff] at ht
  obtain ⟨b, hb, ht⟩ := ht
  have hreqs := reqs_filterBatch_where hb
  cases ht
  exact { h with
    placed := by
      refine h.placed.requeue (fun id hid => (hrunning id hid).1) ?_ ?_ ?_
      · rw [hreqs]
        exact h.placed.runningNodup.filter _
      · rw [hreqs]
        exact filter_sublist.subset
      · intro id hid hmem
        rw [hreqs] at hmem
        simp [hid] at hmem
    running := aligned_filter_running h.running hb fun hstrict => by
      simpa [KeepsRequests] using hkeeps hstrict }

/-! ## New batches -/

theorem Inv.extended {a : Admission} (hforming : s.forming = true)
    (ha : s.Admissible a) : (s.extended cfg requests a).Inv cfg requests strict := by
  obtain ⟨hcur, hlast⟩ := batches_of_forming hforming
  obtain ⟨hpicked, hwaiting, -, hchunk⟩ := ha
  have hplaced := h.placed_of (l := []) (by simp [front, hcur, hlast])
  have hadmit : Placed (s.waitingQueue.filter fun id => !a.picked.contains id)
      s.runningBatch.reqs (s.canRunList a) a.chunkedReq s.nextId := by
    rw [canRunList_eq] at hchunk ⊢
    refine hplaced.admit_picked hpicked (fun id hid => hwaiting id hid) ?_ ?_
    · intro id hid
      split at hid
      · exact hid
      · cases hid
    · intro id hid
      split at hchunk
      · exact .inl (hchunk id hid)
      · exact .inr (hchunk ▸ hid)
  have hother : ∀ id ∈ s.runningBatch.reqs, (s.extended cfg requests a).own id = s.own id :=
    fun id hid => if_neg fun hmem => hadmit.apart id hid hmem
  exact inv_of_extend rfl hlast hadmit (fun hne => (h.running hne).congr_own hother)
    (aligned_prepareForExtend fun id hid => if_pos hid)

theorem Inv.mix {new : ScheduleBatch} (hnew : s.curBatch = .extend new) (hlast : s.lastBatch = none)
    (ht : s.mix cfg requests new = some t) : t.Inv cfg requests strict := by
  have hplaced := h.placed_of (l := new.reqs) (by simp [front, hnew, hlast])
  have hal := h.current new hnew
  unfold BatchState.mix at ht
  split at ht
  · simp only [Option.bind_eq_bind, Option.bind_eq_some_iff] at ht
    obtain ⟨running, hrunning, ht⟩ := ht
    obtain ⟨hnodup, hsub, -⟩ := reqs_filter_keepIndices hrunning hplaced.runningNodup
    split at ht
    · cases ht
      have hleft := hplaced.leave nodup_nil (nil_subset _) hplaced.frontNodup (Subset.refl _)
      exact inv_of_extend rfl hlast hleft (fun _ => aligned_empty) hal
    next hne =>
    simp only [Option.bind_eq_some_iff] at ht
    obtain ⟨running', hrunning', new', hnew', ht⟩ := ht
    have hrun := reqs_ne_nil hne
    have hrunAl : running.Aligned cfg requests s.own := by
      refine ScheduleBatch.Aligned.filterBatch_where (h.running (.inr fun hempty => hrun ?_))
        hrunning hrun
      exact subset_nil.mp (hempty ▸ hsub)
    obtain ⟨hdecoded, hreqs⟩ := aligned_decodeOwn hrunAl hrunning'
    have hnewAl : new.Aligned cfg requests (s.decodeOwn cfg requests s.own running.reqs) :=
      hal.congr_own fun id hid => if_neg fun hmem => hplaced.apart id (hsub hmem) hid
    obtain ⟨hmixed, hreqs'⟩ := hnewAl.mixWithRunning hdecoded hnew'
    cases ht
    have hmix := hplaced.mixIn hnodup hsub
    rw [← hreqs, ← hreqs'] at hmix
    exact inv_of_extend rfl hlast hmix (fun _ => aligned_empty) hmixed
  · cases ht
    exact inv_of_extend rfl hlast hplaced h.running hal

theorem Inv.newBatch {a : Admission} (hforming : s.forming = true)
    (ha : s.Admissible a) (ht : s.newBatch cfg requests a = some t) : t.Inv cfg requests strict :=
  (h.extended hforming ha).mix rfl (batches_of_forming hforming).2 ht

/-! ## Decode steps -/

theorem Inv.decodeBatch (hforming : s.forming = true)
    {b : ScheduleBatch} (hb : b.Aligned cfg requests s.own) (hne : b.reqs ≠ [])
    (hnodup : b.reqs.Nodup) (hsub : b.reqs ⊆ s.runningBatch.reqs)
    (ht : s.decodeBatch cfg requests retracted b = some t) : t.Inv cfg requests strict := by
  obtain ⟨hcur, hlast⟩ := batches_of_forming hforming
  simp only [BatchState.decodeBatch, Option.bind_eq_bind, Option.bind_eq_some_iff] at ht
  obtain ⟨⟨b', victims⟩, hr, b'', hb'', ht⟩ := ht
  obtain ⟨hal, hvsub, hnodup', hsub', hdisj⟩ := retractIfNeeded_spec hr hb hne hnodup
  obtain ⟨hdecoded, hreqs⟩ := aligned_decodeOwn hal hb''
  have hplaced := h.placed_of (l := []) (by simp [front, hcur, hlast])
  have hback := hplaced.requeue (Subset.trans hvsub hsub) hnodup'
    (Subset.trans hsub' hsub) hdisj
  rw [← hreqs] at hback
  cases ht
  exact inv_of_idle (by simp) hlast hback fun _ => hdecoded

theorem Inv.updateRunningBatch (hforming : s.forming = true)
    (hkeeps : strict → s.KeepsRequests (.updateRunningBatch retracted))
    (ht : s.updateRunningBatch cfg requests retracted = some t) : t.Inv cfg requests strict := by
  unfold BatchState.updateRunningBatch at ht
  split at ht
  · cases ht
    exact h
  next hrunning =>
  simp only [Option.bind_eq_bind, Option.bind_eq_some_iff] at ht
  obtain ⟨b, hb, ht⟩ := ht
  obtain ⟨hnodup, hsub, -⟩ := reqs_filter_keepIndices hb h.placed.runningNodup
  have hal := aligned_filter_running h.running hb fun hstrict => by
    simpa [KeepsRequests] using hkeeps hstrict
  split at ht
  · cases ht
    exact { h with
      placed := h.placed.leave hnodup hsub h.placed.frontNodup (List.Subset.refl _)
      running := hal }
  next hne =>
  have hne := reqs_ne_nil hne
  exact h.decodeBatch hforming (hal (.inr hne)) hne hnodup hsub ht

/-! ## Forward passes -/

theorem Inv.runBatch (ht : s.runBatch nextTokenIds = some t) : t.Inv cfg requests strict := by
  unfold BatchState.runBatch at ht
  split at ht
  · cases ht
  next hcur =>
    split at ht
    next hfits =>
      cases ht
      have hlast : s.lastBatch = none := h.one.resolve_left (by simp [hcur])
      exact inv_of_idle (by simp) hlast (h.placed_of (by simp [front, hcur, hlast]))
        fun hne => aligned_sampledOwn (h.running hne) h.placed.runningNodup hfits
    · cases ht
  next b hcur =>
  split at ht
  next hfits =>
    cases ht
    have hlast : s.lastBatch = none := h.one.resolve_left (by simp [hcur])
    have hplaced := h.placed_of (l := b.reqs) (by simp [front, hcur, hlast])
    exact {
      placed := by simpa [front, setOutputIds] using hplaced
      running := fun hne => (h.running hne).congr_own fun id hid =>
        sampledOwn_of_not_mem fun hmem => hplaced.apart id hid hmem
      current := by
        rintro b ⟨⟩
      last := by
        rintro b' ⟨⟩
        exact aligned_sampledOwn (h.current b hcur) hplaced.frontNodup hfits
      one := .inl rfl }
  · cases ht

/-! ## Pausing -/

theorem Inv.pauseMerged {mode : PauseMode} {merged : ScheduleBatch}
    (hcur : s.curBatch = .none) (hmerges : s.MergesRows (.pauseGeneration mode))
    (hm : s.pauseMerged cfg requests mode = some merged) :
    (strict ∨ merged.reqs ≠ [] → merged.Aligned cfg requests s.own) ∧
      Placed s.waitingQueue merged.reqs [] (s.chunkAfter mode) s.nextId ∧
      (s.runningBatch.reqs = [] → merged.reqs = []) := by
  have hforget : ∀ {running front : List ReqId},
      Placed s.waitingQueue running front s.chunkedReq s.nextId →
      Placed s.waitingQueue running front (s.chunkAfter mode) s.nextId := by
    intro running front hp
    unfold chunkAfter
    split
    · exact hp
    · exact hp.forget
  unfold BatchState.pauseMerged at hm
  split at hm
  next hlast =>
    cases hm
    exact ⟨h.running, hforget (h.placed_of (by simp [front, hcur, hlast])), id⟩
  next last hlast =>
  simp only [Option.bind_eq_bind, Option.bind_eq_some_iff] at hm
  obtain ⟨last', hlast', hm⟩ := hm
  obtain ⟨hrun, id, hid, hfin, hstays⟩ := hmerges last hlast
  have hplaced := h.placed_of (l := last.reqs) (by simp [front, hcur, hlast])
  obtain ⟨hnodup, hsub, hkept⟩ := reqs_filter_keepIndices hlast' hplaced.frontNodup
  have hne : last'.reqs ≠ [] := by
    refine ne_nil_of_mem (a := id) ?_
    rw [reqs_filterBatch_where hlast', mem_filter]
    refine ⟨hid, ?_⟩
    split
    next hmode => simpa [hfin] using hstays hmode
    · simp [hfin]
  have hal := (h.last last hlast).filterBatch_where hlast' hne
  obtain ⟨hmerged, hreqs⟩ := (h.running (.inr hrun)).mergeBatch hal hm
  refine ⟨fun _ => hmerged, ?_, fun hempty => absurd hempty hrun⟩
  rw [hreqs]
  have hleft := hforget (hplaced.leave hplaced.runningNodup (Subset.refl _) hnodup hsub)
  refine hleft.join fun c hc hmem => ?_
  unfold chunkAfter at hc
  split at hc
  next hmode =>
    refine (hkept c hmem).2 ?_
    rw [if_pos hmode]
    exact Option.mem_toList.mpr hc
  · cases hc

theorem Inv.pauseGeneration {mode : PauseMode}
    (hcur : s.curBatch.isNone = true) (hmerges : s.MergesRows (.pauseGeneration mode))
    (hkeeps : strict → s.KeepsRequests (.pauseGeneration mode))
    (ht : s.pauseGeneration cfg requests mode = some t) : t.Inv cfg requests strict := by
  have hc := curBatch_of_isNone hcur
  cases mode with
  | inPlace =>
    simp only [BatchState.pauseGeneration, Option.bind_eq_bind, Option.bind_eq_some_iff] at ht
    obtain ⟨merged, hm, ht⟩ := ht
    obtain ⟨hal, hplaced, -⟩ := h.pauseMerged hc hmerges hm
    cases ht
    exact inv_of_idle (by simp [hc]) rfl hplaced hal
  | retract =>
    simp only [BatchState.pauseGeneration, Option.bind_eq_bind, Option.bind_eq_some_iff] at ht
    obtain ⟨merged, hm, ⟨out, retracted⟩, hr, ht⟩ := ht
    obtain ⟨hal, hplaced, hempty⟩ := h.pauseMerged hc hmerges hm
    obtain ⟨hout, hretracted, hsame⟩ := retractAll_spec hr
    cases ht
    have hback := hplaced.requeue (hretracted ▸ filter_sublist.subset) (hout ▸ nodup_nil)
      (hout ▸ nil_subset _) (fun id _ => hout ▸ not_mem_nil)
    refine inv_of_idle (by simp [hc]) rfl hback fun hne => ?_
    have hstrict : strict := hne.resolve_right fun h => h hout
    have hnil := hempty (hkeeps hstrict)
    exact hsame hnil ▸ hal (.inl hstrict)

end Steps

/-! ## Runs -/

theorem inv_start : ({} : BatchState).Inv cfg requests strict :=
  inv_of_idle (by simp) rfl (by constructor <;> simp) fun _ => aligned_empty

/-- One event of the scheduler keeps all batches aligned. -/
theorem Inv.step (h : s.Inv cfg requests strict) {e : BatchEvent} (hmerges : s.MergesRows e)
    (hkeeps : strict → s.KeepsRequests e) (ht : s.step cfg requests e = .ok t) :
    t.Inv cfg requests strict := by
  cases e with
  | receive =>
    cases ht
    exact { h with placed := h.placed.receive }
  | mergeLastBatch =>
    obtain ⟨hen, ht⟩ := guarded_eq_ok ht
    exact h.mergeLastBatch (Bool.and_eq_true_iff.mp hen).2 ht
  | preempt victims =>
    obtain ⟨hen, ht⟩ := guarded_eq_ok ht
    obtain ⟨-, hrunning⟩ := of_decide_eq_true (Bool.and_eq_true_iff.mp hen).2
    exact h.preempt hrunning hkeeps ht
  | newBatch a =>
    obtain ⟨hen, ht⟩ := guarded_eq_ok ht
    obtain ⟨hforming, ha⟩ := Bool.and_eq_true_iff.mp hen
    exact h.newBatch hforming (of_decide_eq_true ha) ht
  | updateRunningBatch retracted =>
    obtain ⟨hen, ht⟩ := guarded_eq_ok ht
    exact h.updateRunningBatch hen hkeeps ht
  | runBatch nextTokenIds =>
    obtain ⟨-, ht⟩ := guarded_eq_ok ht
    exact h.runBatch ht
  | processResults results =>
    cases ht
    exact { h with }
  | pauseGeneration mode =>
    obtain ⟨hen, ht⟩ := guarded_eq_ok ht
    exact h.pauseGeneration hen hmerges hkeeps ht
  | continueGeneration =>
    cases ht
    exact { h with }

/-- In every run in which each pause merges batches that have requests, every row of the running
batch, and of the batch about to run, is the one of the request at its position; and where no step
empties the running batch, it never has a row too many. -/
theorem rows_belong_to_requests (cfg : BatchConfig) (requests : ReqId → BatchReq) (s : BatchState) :
    (Reachable (step cfg requests) (· = {}) MergesRows s →
      (s.runningBatch.reqs ≠ [] → s.runningBatch.Aligned cfg requests s.own) ∧
      ∀ b, s.curBatch = .extend b → b.Aligned cfg requests s.own) ∧
    (Reachable (step cfg requests) (· = {}) (fun s e => s.MergesRows e ∧ s.KeepsRequests e) s →
      s.runningBatch.Aligned cfg requests s.own) := by
  constructor
  · intro h
    have hinv : s.Inv cfg requests False := h.invariant (by rintro s rfl; exact inv_start)
      (fun s e t hs ha ht => hs.step ha (fun hfalse => hfalse.elim) ht)
    exact ⟨fun hne => hinv.running (.inr hne), hinv.current⟩
  · intro h
    have hinv : s.Inv cfg requests True := h.invariant (by rintro s rfl; exact inv_start)
      (fun s e t hs ha ht => hs.step ha.1 (fun _ => ha.2) ht)
    exact hinv.running (.inl trivial)

instance (s : BatchState) (e : BatchEvent) : Decidable (s.MergesRows e) :=
  match e with
  | .pauseGeneration mode =>
    match h : s.lastBatch with
    | none => isTrue (by simp [MergesRows, h])
    | some last => decidable_of_iff
        (s.runningBatch.reqs ≠ [] ∧ ∃ id ∈ last.reqs, s.Stays mode id) (by simp [MergesRows, h])
  | .receive | .mergeLastBatch | .preempt _ | .newBatch _ | .updateRunningBatch _ | .runBatch _
  | .processResults _ | .continueGeneration => isTrue trivial

instance (s : BatchState) (e : BatchEvent) : Decidable (s.KeepsRequests e) := by
  unfold KeepsRequests
  split <;> infer_instance

def sampleRequests (id : ReqId) : BatchReq where
  rid := ""
  originInputIds := [1, 2, 3]
  vocabSize := 100
  samplingParams := { temperature := id + 1 }

def sampleAdmission (picked : List ReqId) : Admission where
  picked
  fillLen _ := 3
  reqPoolIdx id := id

/-- Two requests are prefilled one after the other, decode together and are paused in place. -/
def pairScript : List BatchEvent :=
  [.receive, .receive, .newBatch (sampleAdmission [0]), .runBatch [7],
    .processResults [(0, 7, false)], .mergeLastBatch, .newBatch (sampleAdmission [1]),
    .runBatch [8], .processResults [(1, 8, false)], .mergeLastBatch, .updateRunningBatch none,
    .runBatch [9, 10], .processResults [(0, 9, false), (1, 10, false)], .pauseGeneration .inPlace,
    .continueGeneration, .mergeLastBatch, .updateRunningBatch none]

theorem rows_belong_to_requests_pair : ∃ s : BatchState,
    s.runningBatch.reqs = [0, 1] ∧ s.runningBatch.Aligned {} sampleRequests s.own := by
  obtain ⟨s, hreach, hreqs⟩ : ∃ s, Reachable (step {} sampleRequests) (· = {})
      (fun s e => s.MergesRows e ∧ s.KeepsRequests e) s ∧ s.runningBatch.reqs = [0, 1] :=
    exists_reachable rfl pairScript (by decide +kernel)
  exact ⟨s, hreqs, (rows_belong_to_requests {} sampleRequests s).2 hreach⟩

/-- The first request finishes, which empties the running batch; the second is paused in place
after its prefill. -/
def emptiedScript : List BatchEvent :=
  [.receive, .newBatch (sampleAdmission [0]), .runBatch [7], .processResults [(0, 7, false)],
    .mergeLastBatch, .updateRunningBatch none, .runBatch [8], .processResults [(0, 8, true)],
    .mergeLastBatch, .updateRunningBatch none, .receive, .newBatch (sampleAdmission [1]),
    .runBatch [9], .processResults [(1, 9, false)], .pauseGeneration .inPlace]

/-- The pause puts the rows of the second request behind those of the finished one, so that the
second request is left with the temperature, the length and the pool row of the first. -/
theorem pause_merges_stale_rows : ∃ s : BatchState,
    Reachable (step {} sampleRequests) (· = {}) (fun _ _ => True) s ∧ s.runningBatch.reqs = [1] ∧
      s.runningBatch.columns.map (·.seqLens) = some [4, 3] ∧
      s.runningBatch.columns.map (·.reqPoolIndices) = some [0, 1] ∧
      s.runningBatch.columns.map (·.samplingInfo.temperatures) = some [1, 2] ∧
      ¬ s.runningBatch.Aligned {} sampleRequests s.own :=
  exists_reachable_imp (p := fun _ => _ ∧ _ ∧ _ ∧ _) rfl emptiedScript (by decide +kernel)
    fun _ _ ⟨hreqs, hlens, hpool, htemp⟩ => ⟨hreqs, hlens, hpool, htemp, fun hal => by
      obtain ⟨c, hc, hcols⟩ := Option.map_eq_some_iff.mp hlens
      have hlen := (hal.columns c hc).seqLens.length_eq
      rw [hreqs, hcols] at hlen
      simp at hlen⟩

end BatchState

end LLM42.Batch
