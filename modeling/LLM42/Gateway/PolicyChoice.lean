import LLM42.Gateway.Policies

/-! # Which workers the policies choose

A policy is to choose a usable worker, and to refuse only when there is none. Four policies do so in
every state. The cache aware policy follows a hit to a worker that is healthy, whether its circuit
lets requests through or not, and the bucket policy follows its tables without asking for either. -/

namespace LLM42.Gateway

open Library List

inductive Policy
  | roundRobin (p : RoundRobinPolicy)
  | random
  | powerOfTwo (p : PowerOfTwoPolicy)
  | cacheAware (p : CacheAwarePolicy)
  | manual (p : ManualPolicy)
  | bucket (p : BucketPolicy)

def Policy.selectWorker (unknownModelId : String) (workers : List PolicyWorker)
    (info : SelectWorkerInfo) (d : Draws) : Policy → Option Nat × Policy
  | .roundRobin p => ((p.selectWorker workers).1, .roundRobin (p.selectWorker workers).2)
  | .random => (match getHealthyWorkerIndices workers with
    | [] => none
    | healthy => randomSelect healthy d.index, .random)
  | .powerOfTwo p => (p.selectWorker workers d, .powerOfTwo p)
  | .cacheAware p => ((p.selectWorker unknownModelId workers info d).1,
    .cacheAware (p.selectWorker unknownModelId workers info d).2)
  | .manual p => ((p.selectWorker workers info d).1, .manual (p.selectWorker workers info d).2)
  | .bucket p => ((p.selectWorker unknownModelId workers info d).1,
    .bucket (p.selectWorker unknownModelId workers info d).2)

/-- What happens to a policy; `key` is the normalized model id. -/
inductive PolicyEvent
  | selectWorker (workers : List PolicyWorker) (info : SelectWorkerInfo) (d : Draws)
  | addWorker (key url : String) (epoch : Nat)
  | removeWorker (key url : String)
  | removeWorkerByUrl (url : String)
  | initPrefillWorkerUrls (key : String) (urls : List String)
  | evictCache (maxSize : Nat) (pick : List Tree.EvictionEntry → Nat)
  | evictIdle (now maxIdle : Nat)
  | adjustBoundaries
  | updateLoads (loads : AList fun _ : String => Int)
  | reset

/-- Events that are not for a policy leave it as it is. -/
def policyStep (unknownModelId : String) (p : Policy) : PolicyEvent → Except Empty Policy
  | .selectWorker workers info d => .ok (p.selectWorker unknownModelId workers info d).2
  | .addWorker key url epoch => .ok (match p with
    | .cacheAware p => .cacheAware (p.addWorker key url epoch)
    | .bucket p => .bucket (p.addPrefillUrl key url)
    | p => p)
  | .removeWorker key url => .ok (match p with
    | .cacheAware p => .cacheAware (p.removeWorker key url)
    | .bucket p => .bucket (p.removePrefillUrl key url)
    | p => p)
  | .removeWorkerByUrl url => .ok (match p with
    | .cacheAware p => .cacheAware (p.removeWorkerByUrl url)
    | p => p)
  | .initPrefillWorkerUrls key urls => .ok (match p with
    | .bucket p => .bucket (p.initPrefillWorkerUrls key urls)
    | p => p)
  | .evictCache maxSize pick => .ok (match p with
    | .cacheAware p => .cacheAware (p.evictCache maxSize pick)
    | p => p)
  | .evictIdle now maxIdle => .ok (match p with
    | .manual p => .manual (p.evictIdle now maxIdle)
    | p => p)
  | .adjustBoundaries => .ok (match p with
    | .bucket p => .bucket p.adjustBoundaries
    | p => p)
  | .updateLoads loads => .ok (match p with
    | .powerOfTwo _ => .powerOfTwo ⟨loads⟩
    | p => p)
  | .reset => .ok (match p with
    | .roundRobin _ => .roundRobin ⟨0⟩
    | p => p)

/-- A usable worker is chosen, or there is none. -/
def Served (workers : List PolicyWorker) : Option Nat → Prop
  | some i => ∃ w, workers[i]? = some w ∧ w.usable = true
  | none => ∀ w ∈ workers, w.usable = false

instance (workers : List PolicyWorker) (choice : Option Nat) : Decidable (Served workers choice) :=
  match choice with
  | none => inferInstanceAs (Decidable (∀ w ∈ workers, w.usable = false))
  | some i => decidable_of_iff ((workers[i]?.any (·.usable)) = true) (by
      cases h : workers[i]? <;> simp [Served, h])

variable {workers : List PolicyWorker} {info : SelectWorkerInfo} {d : Draws}
  {x : PolicyWorker × Nat} {unknownModelId : String}

/-! ## Choosing among the usable workers -/

theorem exists_pickAt {α : Type*} {xs : List α} (h : xs ≠ []) (draw : Nat) :
    ∃ a ∈ xs, pickAt xs draw = some a := by
  have hlt := Nat.mod_lt draw (length_pos_of_ne_nil h)
  exact ⟨_, getElem_mem hlt, getElem?_eq_getElem hlt⟩

theorem mem_getHealthyWorkerIndices : x ∈ getHealthyWorkerIndices workers ↔
    workers[x.2]? = some x.1 ∧ x.1.usable = true := by
  rw [getHealthyWorkerIndices, mem_filter, mem_zipIdx_iff_getElem?]

theorem served_of_mem (h : x ∈ getHealthyWorkerIndices workers) : Served workers (some x.2) :=
  ⟨x.1, mem_getHealthyWorkerIndices.mp h⟩

theorem served_none (h : getHealthyWorkerIndices workers = []) : Served workers none := by
  intro w hw
  obtain ⟨i, hi⟩ := getElem?_of_mem hw
  by_contra hu
  have hmem : (w, i) ∈ getHealthyWorkerIndices workers :=
    mem_getHealthyWorkerIndices.mpr ⟨hi, by simpa using hu⟩
  rw [h] at hmem
  exact not_mem_nil hmem

theorem served_pickAt (h : getHealthyWorkerIndices workers ≠ []) (draw : Nat) :
    Served workers ((pickAt (getHealthyWorkerIndices workers) draw).map (·.2)) := by
  obtain ⟨x, hx, hpick⟩ := exists_pickAt h draw
  rw [hpick]
  exact served_of_mem hx

theorem getElem?_position {url : String} (h : position workers url = some x) :
    workers[x.2]? = some x.1 :=
  mem_zipIdx_iff_getElem?.mp (mem_of_find?_eq_some h)

theorem served_position {url : String} (h : position workers url = some x)
    (husable : x.1.usable = true) : Served workers (some x.2) :=
  ⟨x.1, getElem?_position h, husable⟩

/-! ## The policies that look at the usable workers only -/

theorem RoundRobinPolicy.served (p : RoundRobinPolicy) :
    Served workers (p.selectWorker workers).1 := by
  unfold selectWorker
  split
  · next h => exact served_none h
  · next h => exact served_pickAt h _

theorem PowerOfTwoPolicy.lower_eq (p : PowerOfTwoPolicy) (x y : PolicyWorker × Nat) :
    p.lower x y = x ∨ p.lower x y = y := by
  unfold lower
  split
  · exact ite_eq_or_eq _ _ _
  · exact ite_eq_or_eq _ _ _

theorem PowerOfTwoPolicy.served (p : PowerOfTwoPolicy) :
    Served workers (p.selectWorker workers d) := by
  unfold selectWorker
  split
  · next h => exact served_none h
  · next x h =>
    refine served_of_mem ?_
    rw [h]
    exact mem_singleton_self x
  · next hne _ =>
    obtain ⟨x, hx, hpick⟩ := exists_pickAt hne d.index
    obtain ⟨y, hy, hpick'⟩ := exists_pickAt hne
      (d.index % (getHealthyWorkerIndices workers).length + 1 +
        d.other % ((getHealthyWorkerIndices workers).length - 1))
    rw [pickAt] at hpick
    simp only [hpick, hpick']
    rcases p.lower_eq x y with h | h
    · rw [h]
      exact served_of_mem hx
    · rw [h]
      exact served_of_mem hy

namespace ManualPolicy

theorem foldl_keepMin {α : Type*} (value : α → Nat) (xs : List α) (best : Option Nat × List α)
    (hbest : best.1 = none ∨ best.2 ≠ []) :
    (∀ a ∈ (xs.foldl (keepMin value) best).2, a ∈ best.2 ∨ a ∈ xs) ∧
      (best.2 ≠ [] ∨ xs ≠ [] → (xs.foldl (keepMin value) best).2 ≠ []) := by
  induction xs generalizing best with
  | nil => exact ⟨fun a ha => .inl ha, fun h => h.resolve_right fun hne => hne rfl⟩
  | cons x xs ih =>
    have hstep : (keepMin value best x).2 ≠ [] ∧
        ∀ a ∈ (keepMin value best x).2, a ∈ best.2 ∨ a = x := by
      unfold keepMin
      cases hb : best.1 with
      | none => simp
      | some least =>
        have hne := hbest.resolve_left (by simp [hb])
        dsimp only
        split
        · simp
        · split
          · refine ⟨by simp, fun a ha => ?_⟩
            simpa using ha
          · exact ⟨hne, fun a ha => .inl ha⟩
    obtain ⟨hmem, hne⟩ := ih _ (.inr hstep.1)
    refine ⟨fun a ha => ?_, fun _ => hne (.inl hstep.1)⟩
    rcases hmem a ha with ha | ha
    · rcases hstep.2 a ha with ha | rfl
      · exact .inl ha
      · exact .inr mem_cons_self
    · exact .inr (mem_cons_of_mem x ha)

theorem exists_selectMinBy {α : Type*} (value : α → Nat) {xs : List α} (h : xs ≠ []) (draw : Nat) :
    ∃ a ∈ xs, selectMinBy value xs draw = some a := by
  obtain ⟨hmem, hne⟩ := foldl_keepMin value xs (none, []) (.inl rfl)
  obtain ⟨a, ha, hpick⟩ := exists_pickAt (hne (.inr h)) draw
  exact ⟨a, (hmem a ha).resolve_left not_mem_nil, hpick⟩

theorem exists_selectNewWorker (p : ManualPolicy) {healthy : List (PolicyWorker × Nat)}
    (h : healthy ≠ []) (d : Draws) : ∃ x ∈ healthy, p.selectNewWorker healthy d = some x := by
  unfold selectNewWorker
  split
  · exact exists_pickAt h d.index
  · exact exists_selectMinBy _ h d.index
  · exact exists_selectMinBy _ h d.index

theorem served_selectByRoutingId (p : ManualPolicy) (routingId : String)
    (h : getHealthyWorkerIndices workers ≠ []) :
    Served workers
      (p.selectByRoutingId workers routingId (getHealthyWorkerIndices workers) d).1 := by
  obtain ⟨x, hx, hnew⟩ := p.exists_selectNewWorker h d
  unfold selectByRoutingId
  simp only [hnew]
  split
  · next node _ =>
    split
    · next y hfound =>
      obtain ⟨url, -, hurl⟩ := exists_of_findSome?_eq_some hfound
      have hy := (Option.filter_eq_some_iff.mp hurl).2
      exact served_of_mem (by simpa using hy)
    · exact served_of_mem hx
  · exact served_of_mem hx

theorem served (p : ManualPolicy) : Served workers (p.selectWorker workers info d).1 := by
  unfold selectWorker
  split
  · next h => exact served_none h
  · next h =>
    split
    · exact p.served_selectByRoutingId _ h
    · exact served_pickAt h d.index

end ManualPolicy

/-! ## The cache aware policy -/

/-- The names a match may end with: the tenants of the nodes, and what stands for a node that has
none. -/
def Tree.tenantNames (t : Tree) : List String :=
  "empty" :: t.places.flatMap fun p => (t.tenantsAt p).keys

namespace Tree

variable {t : Tree}

theorem mem_tenantNames {p : List Char} {tenant : String} (h : tenant ∈ t.tenantsAt p) :
    tenant ∈ t.tenantNames := by
  refine mem_cons_of_mem _ (mem_flatMap.mpr ⟨p, ?_, AList.mem_keys.mpr h⟩)
  by_cases hp : p = []
  · simp [places, hp]
  cases hnode : t.nodes.node? p with
  | none =>
    rw [tenantsAt, if_neg hp, hnode] at h
    exact absurd h (AList.notMem_empty tenant)
  | some e =>
    exact mem_cons_of_mem _ (mem_map.mpr ⟨e, PathTree.mem_of_node? hnode⟩)

theorem anyTenantAt_mem_tenantNames (p : List Char) (pick : Nat) :
    t.anyTenantAt p pick ∈ t.tenantNames := by
  unfold anyTenantAt
  cases hkey : (t.tenantsAt p).keys[pick % (t.tenantsAt p).keys.length]? with
  | none => exact mem_cons_self
  | some tenant => exact mem_tenantNames (AList.mem_keys.mp (mem_of_getElem? hkey))

theorem tenantFor_mem_tenantNames (p : List Char) (pick : Nat) :
    (t.tenantFor p pick).1 ∈ t.tenantNames := by
  unfold tenantFor
  split
  · split
    · next h => exact mem_tenantNames h
    · exact anyTenantAt_mem_tenantNames p pick
  · exact anyTenantAt_mem_tenantNames p pick

end Tree

/-- The tree names no worker of the list that is healthy but has an open circuit. -/
def Tree.NoOpenCircuit (workers : List PolicyWorker) (t : Tree) : Prop :=
  ∀ w ∈ workers, w.url ∈ t.tenantNames → w.isHealthy = true → w.canExecute = true

namespace CacheAwarePolicy

theorem served (p : CacheAwarePolicy)
    (h : ∀ w ∈ workers, w.usable = true →
      ∀ tree ∈ p.trees.lookup (normalizeModelKey unknownModelId w.modelId),
        tree.NoOpenCircuit workers) :
    Served workers (p.selectWorker unknownModelId workers info d).1 := by
  unfold selectWorker
  split
  · next hnone => exact served_none hnone
  next first rest hhealthy =>
  have hne : first :: rest ≠ [] := cons_ne_nil first rest
  have hserved : ∀ x ∈ first :: rest, Served workers (some x.2) :=
    fun x hx => served_of_mem (hhealthy ▸ hx)
  obtain ⟨hfirst, husable⟩ := mem_getHealthyWorkerIndices.mp (hhealthy ▸ mem_cons_self)
  obtain ⟨least, hargmin⟩ : ∃ x, (first :: rest).argmin (·.1.load) = some x :=
    Option.ne_none_iff_exists'.mp (mt argmin_eq_none.mp hne)
  have hleast := hserved least (argmin_mem hargmin)
  dsimp only
  by_cases himbalanced : isImbalanced p.config workers
  · simpa only [himbalanced, if_true, selectWorkerMinLoad, hargmin] using hleast
  simp only [himbalanced, if_false, Bool.false_eq_true]
  cases htree : p.trees.lookup (normalizeModelKey unknownModelId first.1.modelId) with
  | none =>
    obtain ⟨x, hx, hpick⟩ := exists_pickAt hne d.index
    simpa only [randomSelect, hpick, Option.map_some] using hserved x hx
  | some tree =>
    have hcircuits := h first.1 (mem_of_getElem? hfirst) husable tree htree
    have hname : (tree.prefixMatchWithCounts (info.requestText.getD []) d.matchEpoch
        d.order).1.tenant ∈ tree.tenantNames := Tree.tenantFor_mem_tenantNames _ _
    dsimp only
    generalize tree.prefixMatchWithCounts (info.requestText.getD []) d.matchEpoch d.order =
      matched at hname
    by_cases hhit : p.config.cacheThreshold < matchRate matched.1
    · simp only [hhit, if_true]
      cases hpos : (position workers matched.1.tenant).filter (·.1.isHealthy) with
      | none => exact hserved first mem_cons_self
      | some x =>
        obtain ⟨hx, hhealth⟩ := Option.filter_eq_some_iff.mp hpos
        have hurl : x.1.url = matched.1.tenant := by simpa using find?_some hx
        have hexec := hcircuits x.1 (mem_of_getElem? (getElem?_position hx)) (hurl ▸ hname) hhealth
        exact served_position hx (by simp [PolicyWorker.usable, hhealth, hexec])
    · simpa only [hhit, if_false, hargmin] using hleast

end CacheAwarePolicy

/-! ## The bucket policy -/

/-- The list has a worker at the URL, and every one it has there is usable. -/
def UsableAt (workers : List PolicyWorker) (url : String) : Prop :=
  (∃ w ∈ workers, w.url = url) ∧ ∀ w ∈ workers, w.url = url → w.usable = true
deriving Decidable

theorem UsableAt.served {url : String} (h : UsableAt workers url) :
    Served workers ((position workers url).map (·.2)) := by
  obtain ⟨⟨w, hw, hurl⟩, husable⟩ := h
  cases hpos : position workers url with
  | none =>
    obtain ⟨i, hi⟩ := getElem?_of_mem hw
    have := find?_eq_none.mp hpos (w, i) (mem_zipIdx_iff_getElem?.mpr hi)
    simp [hurl] at this
  | some x =>
    refine served_position hpos (husable x.1 (mem_of_getElem? (getElem?_position hpos)) ?_)
    simpa using find?_some hpos

namespace Bucket

/-- The URLs that the tables of a bucket hold for use: of the registered workers, or of the ranges
that the last of them has left behind, and those that are charged least. -/
def tableUrls (b : Bucket) : List String :=
  (if b.prefillWorkerUrls = [] then b.boundary.map (·.url) else b.prefillWorkerUrls) ++
    (b.charsPerUrl.entries.filter fun e => ∀ other ∈ b.charsPerUrl.entries, e.2 ≤ other.2).map (·.1)

/-- While there are registered workers, every range belongs to one of them. -/
def RangesRegistered (b : Bucket) : Prop :=
  b.prefillWorkerUrls ≠ [] → ∀ range ∈ b.boundary, range.url ∈ b.prefillWorkerUrls

variable {b : Bucket}

theorem rangesRegistered_initPrefillWorkerUrls (urls : List String) :
    (b.initPrefillWorkerUrls urls).RangesRegistered := by
  intro _ range hrange
  obtain ⟨⟨url, i⟩, hmem, rfl⟩ := mem_map.mp hrange
  exact (mem_zipIdx_iff_getElem?.mp hmem |> mem_of_getElem?)

theorem expire_frame (now : Nat) (reqs : List SequencerRequest) (b : Bucket) :
    (expire now reqs b).prefillWorkerUrls = b.prefillWorkerUrls ∧
      (expire now reqs b).boundary = b.boundary := by
  induction reqs generalizing b with
  | nil => exact ⟨rfl, rfl⟩
  | cons req reqs ih =>
    unfold expire
    split
    · exact ih _
    · exact ⟨rfl, rfl⟩

theorem RangesRegistered.postProcessRequest (h : b.RangesRegistered) (charCnt : Nat) (url : String)
    (now uuid : Nat) : (b.postProcessRequest charCnt url now uuid).RangesRegistered := by
  obtain ⟨hurls, hboundary⟩ := expire_frame now b.requestList { b with
    charsPerUrl := b.charsPerUrl.insert url
      (usizeAdd ((b.charsPerUrl.lookup url).getD 0) charCnt) }
  simp only [RangesRegistered, Bucket.postProcessRequest, hurls, hboundary]
  exact h

theorem url_mem_of_mem_shareOut {single upperBound : Nat} {urls : List String} {loads : List Nat}
    {range : Boundary} (h : range ∈ shareOut single urls upperBound loads) : range.url ∈ urls := by
  induction urls generalizing upperBound loads with
  | nil => simp [shareOut] at h
  | cons url urls ih =>
    cases urls with
    | nil =>
      obtain rfl := mem_singleton.mp h
      exact mem_cons_self
    | cons next rest =>
      unfold shareOut at h
      split at h <;>
      · rcases mem_cons.mp h with rfl | h
        · exact mem_cons_self
        · exact mem_cons_of_mem _ (ih h)

theorem RangesRegistered.adjustBoundary (h : b.RangesRegistered) :
    b.adjustBoundary.RangesRegistered := by
  unfold Bucket.adjustBoundary
  dsimp only
  split
  · exact h
  · split
    · exact h
    · split
      · exact h
      · exact fun _ range hrange => url_mem_of_mem_shareOut hrange

theorem minUrl_mem_tableUrls {order : Nat} {url : String} (h : b.minUrl order = some url) :
    url ∈ b.tableUrls := by
  obtain ⟨e, he, rfl⟩ := mem_map.mp (mem_of_getElem? h)
  obtain ⟨hentry, hmin⟩ := mem_filter.mp he
  refine mem_append_right _ (mem_map.mpr ⟨e, mem_filter.mpr ⟨hentry, ?_⟩, rfl⟩)
  refine decide_eq_true fun other hother => ?_
  exact (min?_eq_some_iff.mp (of_decide_eq_true hmin)).2 _ (mem_map.mpr ⟨other, hother, rfl⟩)

theorem mem_boundary_of_searchBoundary {boundary : List Boundary} {charCount fuel left right : Nat}
    {url : String} (h : searchBoundary boundary charCount fuel left right = some url) :
    ∃ range ∈ boundary, range.url = url := by
  induction fuel generalizing left right with
  | zero => cases h
  | succ fuel ih =>
    unfold searchBoundary at h
    split at h
    · dsimp only at h
      split at h
      · cases h
      · next range hrange =>
        split at h
        · exact ih h
        · split at h
          · exact ih h
          · exact ⟨range, mem_of_getElem? hrange, Option.some.inj h⟩
    · cases h

theorem RangesRegistered.mem_tableUrls (h : b.RangesRegistered) {range : Boundary}
    (hrange : range ∈ b.boundary) : range.url ∈ b.tableUrls := by
  refine mem_append_left _ ?_
  split
  · exact mem_map.mpr ⟨range, hrange, rfl⟩
  · next hne => exact h hne range hrange

end Bucket

namespace BucketPolicy

def RangesRegistered (p : BucketPolicy) : Prop :=
  ∀ key, ∀ b ∈ p.buckets.lookup key, b.RangesRegistered

variable {p : BucketPolicy}

theorem RangesRegistered.setBucket (h : p.RangesRegistered) (key : String) {b : Bucket}
    (hb : b.RangesRegistered) : (p.setBucket key b).RangesRegistered := by
  intro other b' hb'
  by_cases hkey : other = key
  · subst hkey
    rw [BucketPolicy.setBucket, AList.lookup_insert] at hb'
    exact Option.some.inj hb' ▸ hb
  · rw [BucketPolicy.setBucket, AList.lookup_insert_ne hkey] at hb'
    exact h other b' hb'

theorem RangesRegistered.selectWorker (h : p.RangesRegistered) :
    (p.selectWorker unknownModelId workers info d).2.RangesRegistered := by
  unfold BucketPolicy.selectWorker
  split
  · exact h
  · dsimp only
    split
    · next bucket hbucket => exact h.setBucket _ ((h _ bucket hbucket).postProcessRequest _ _ _ _)
    · exact h

theorem RangesRegistered.removePrefillUrl (h : p.RangesRegistered) (key url : String) :
    (p.removePrefillUrl key url).RangesRegistered := by
  unfold BucketPolicy.removePrefillUrl
  split
  · exact h
  · refine h.setBucket key ?_
    split
    · next hnone => exact fun hne => absurd hnone hne
    · exact Bucket.rangesRegistered_initPrefillWorkerUrls _

theorem RangesRegistered.adjustBoundaries (h : p.RangesRegistered) :
    p.adjustBoundaries.RangesRegistered := by
  refine foldlRecOn p.buckets.keys _ h fun q hq key _ => ?_
  split
  · next bucket hbucket => exact hq.setBucket key (hq key bucket hbucket).adjustBoundary
  · exact hq

/-- The workers of the list behind the tables of their models are usable, and no unusable worker
shares the URL of a usable one. -/
def TablesUsable (unknownModelId : String) (workers : List PolicyWorker) (p : BucketPolicy) : Prop :=
  ∀ w ∈ workers, w.usable = true → UsableAt workers w.url ∧
    ∀ b ∈ p.buckets.lookup (normalizeModelKey unknownModelId w.modelId),
      ∀ url ∈ b.tableUrls, UsableAt workers url

theorem served (hranges : p.RangesRegistered) (h : p.TablesUsable unknownModelId workers) :
    Served workers (p.selectWorker unknownModelId workers info d).1 := by
  unfold selectWorker
  split
  · next hnone => exact served_none hnone
  next first rest hhealthy =>
  have hmem : ∀ x ∈ first :: rest, x.1 ∈ workers ∧ x.1.usable = true := fun x hx =>
    (mem_getHealthyWorkerIndices.mp (hhealthy ▸ hx)).imp_left mem_of_getElem?
  have hrandom : UsableAt workers (randomUrl (first :: rest) d.index) := by
    obtain ⟨x, hx, hpick⟩ := exists_pickAt (cons_ne_nil first rest) d.index
    simp only [randomUrl, hpick, Option.map_some, Option.getD_some]
    exact (h x.1 (hmem x hx).1 (hmem x hx).2).1
  dsimp only
  split
  · next bucket hbucket =>
    have hfirst := hmem first mem_cons_self
    have htables := (h first.1 hfirst.1 hfirst.2).2 bucket hbucket
    refine UsableAt.served ?_
    unfold prefillUrl
    split
    · cases hmin : bucket.minUrl d.order with
      | none => exact hrandom
      | some url => exact htables url (Bucket.minUrl_mem_tableUrls hmin)
    · split
      · next url hurl =>
        split
        · obtain ⟨range, hrange, rfl⟩ := Bucket.mem_boundary_of_searchBoundary hurl
          exact htables _ ((hranges _ bucket hbucket).mem_tableUrls hrange)
        · exact hrandom
      · exact hrandom
  · exact hrandom.served

end BucketPolicy

/-! ## All policies -/

namespace Policy

def IsNew : Policy → Prop
  | .roundRobin p => p = ⟨0⟩
  | .random => True
  | .powerOfTwo p => p = ⟨∅⟩
  | .cacheAware p => p.trees = ∅
  | .manual p => p.routingMap = ∅
  | .bucket p => p.buckets = ∅

def RangesRegistered : Policy → Prop
  | .bucket p => p.RangesRegistered
  | _ => True

theorem RangesRegistered.step {p q : Policy} {e : PolicyEvent} (hp : p.RangesRegistered)
    (hstep : policyStep unknownModelId p e = .ok q) : q.RangesRegistered := by
  cases p with
  | bucket p =>
    have hp : p.RangesRegistered := hp
    cases e with
    | selectWorker workers info d =>
      cases hstep
      exact hp.selectWorker
    | addWorker key url epoch =>
      cases hstep
      exact hp.setBucket _ (Bucket.rangesRegistered_initPrefillWorkerUrls _)
    | removeWorker key url =>
      cases hstep
      exact hp.removePrefillUrl key url
    | initPrefillWorkerUrls key urls =>
      cases hstep
      exact hp.setBucket _ (Bucket.rangesRegistered_initPrefillWorkerUrls _)
    | adjustBoundaries =>
      cases hstep
      exact hp.adjustBoundaries
    | _ =>
      cases hstep
      exact hp
  | _ => cases e <;> cases hstep <;> trivial

/-- In every state that a new policy reaches, the ranges are those of registered workers. -/
theorem rangesRegistered_of_reachable {p : Policy}
    (h : Reachable (policyStep unknownModelId) IsNew (fun _ _ => True) p) :
    p.RangesRegistered := by
  refine h.invariant ?_ fun _ _ _ hp _ hstep => hp.step hstep
  intro p hnew
  cases p with
  | bucket p =>
    intro key b hb
    rw [show p.buckets = ∅ from hnew, AList.lookup_empty] at hb
    cases hb
  | _ => trivial

/-- What a policy's tables hold is usable: the tree of a model names no healthy worker with an open
circuit; every registered, left over or least charged URL of a bucket has a usable worker. -/
def TablesUsable (unknownModelId : String) (workers : List PolicyWorker) : Policy → Prop
  | .cacheAware p => ∀ w ∈ workers, w.usable = true →
      ∀ tree ∈ p.trees.lookup (normalizeModelKey unknownModelId w.modelId),
        tree.NoOpenCircuit workers
  | .bucket p => p.TablesUsable unknownModelId workers
  | _ => True

instance decTablesUsable (unknownModelId : String) (workers : List PolicyWorker) :
    DecidablePred (TablesUsable unknownModelId workers) := fun p => by
  delta TablesUsable BucketPolicy.TablesUsable Tree.NoOpenCircuit
  induction p using Policy.casesOn <;> infer_instance

def downWorker (url : String) : PolicyWorker := ⟨url, "m", false, true, 0, 0⟩

def openCircuitWorker (url : String) : PolicyWorker := ⟨url, "m", true, false, 0, 0⟩

def usableWorker (url : String) : PolicyWorker := ⟨url, "m", true, true, 0, 0⟩

def noDraws : Draws := ⟨0, 0, 1, 2, 0, 0, 0⟩

/-- After any history a policy whose tables are usable serves every request with a usable worker,
and refuses only when there is none. -/
theorem served_of_tablesUsable {p : Policy}
    (hp : Reachable (policyStep unknownModelId) IsNew (fun _ _ => True) p)
    (workers : List PolicyWorker) (h : p.TablesUsable unknownModelId workers)
    (info : SelectWorkerInfo) (d : Draws) :
    Served workers (p.selectWorker unknownModelId workers info d).1 := by
  cases p with
  | roundRobin p => exact p.served
  | random =>
    simp only [selectWorker]
    split
    · next h => exact served_none h
    · next h => exact served_pickAt h d.index
  | powerOfTwo p => exact p.served
  | cacheAware p => exact p.served h
  | manual p => exact p.served
  | bucket p => exact BucketPolicy.served (rangesRegistered_of_reachable hp) h

def besideStranger (stranger : PolicyWorker) : List PolicyWorker :=
  [stranger, usableWorker "w2", usableWorker "w1"]

/-- A worker that is down, or has an open circuit, does no harm while the tables do not know it. -/
theorem served_of_tablesUsable_stranger :
    (∃ p, Reachable (policyStep "unknown") IsNew (fun _ _ => True) p ∧
      (p.selectWorker "unknown" (besideStranger (downWorker "w3")) ⟨some ['a'], none⟩
        noDraws).1 = some 2 ∧
      ∀ info d, Served (besideStranger (downWorker "w3"))
        (p.selectWorker "unknown" (besideStranger (downWorker "w3")) info d).1) ∧
    ∃ p, Reachable (policyStep "unknown") IsNew (fun _ _ => True) p ∧
      (p.selectWorker "unknown" (besideStranger (openCircuitWorker "w3")) ⟨some ['a'], none⟩
        noDraws).1 = some 2 ∧
      ∀ info d, Served (besideStranger (openCircuitWorker "w3"))
        (p.selectWorker "unknown" (besideStranger (openCircuitWorker "w3")) info d).1 := by
  constructor
  · have hnew : IsNew (.bucket ⟨.default, ∅⟩) := rfl
    exact exists_reachable_imp hnew
      [.initPrefillWorkerUrls "m" ["w1", "w2"],
        .selectWorker (besideStranger (downWorker "w3")) ⟨some ['a'], none⟩ noDraws]
      (p := fun p => (p.selectWorker "unknown" (besideStranger (downWorker "w3"))
        ⟨some ['a'], none⟩ noDraws).1 = some 2 ∧
        p.TablesUsable "unknown" (besideStranger (downWorker "w3"))) (by decide +kernel)
      fun p hp h => ⟨h.1, served_of_tablesUsable hp _ h.2⟩
  · have hnew : IsNew (.cacheAware ⟨.default, ∅⟩) := rfl
    exact exists_reachable_imp hnew
      [.addWorker "m" "w1" 0, .addWorker "m" "w2" 1,
        .selectWorker [usableWorker "w1", usableWorker "w2"] ⟨some ['a'], none⟩ noDraws]
      (p := fun p => (p.selectWorker "unknown" (besideStranger (openCircuitWorker "w3"))
        ⟨some ['a'], none⟩ noDraws).1 = some 2 ∧
        p.TablesUsable "unknown" (besideStranger (openCircuitWorker "w3"))) (by decide +kernel)
      fun p hp h => ⟨h.1, served_of_tablesUsable hp _ h.2⟩

end Policy

/-- The bucket policy gives short requests to a worker that is down, or to nobody when the router
has left that worker out; the cache aware policy sends a text back to a worker whose circuit is
open. -/
theorem Policy.chooses_unusable :
    (∃ p, Reachable (policyStep "unknown") (· = .bucket ⟨.default, ∅⟩) (fun _ _ => True) p ∧
      (p.selectWorker "unknown" [downWorker "w1", usableWorker "w2"] ⟨some ['a'], none⟩
        noDraws).1 = some 0 ∧
      (p.selectWorker "unknown" [usableWorker "w2"] ⟨some ['a'], none⟩ noDraws).1 = none ∧
      ¬ Served [downWorker "w1", usableWorker "w2"] (some 0) ∧
      ¬ Served [usableWorker "w2"] none) ∧
    ∃ p, Reachable (policyStep "unknown") (· = .cacheAware ⟨.default, ∅⟩) (fun _ _ => True) p ∧
      (p.selectWorker "unknown" [openCircuitWorker "w1", usableWorker "w2"] ⟨some ['a'], none⟩
        noDraws).1 = some 0 ∧
      ¬ Served [openCircuitWorker "w1", usableWorker "w2"] (some 0) := by
  constructor
  · exact exists_reachable rfl [.initPrefillWorkerUrls "m" ["w1", "w2"]] (by decide +kernel)
  · exact exists_reachable rfl [.addWorker "m" "w1" 0, .addWorker "m" "w2" 1,
      .selectWorker [usableWorker "w1", usableWorker "w2"] ⟨some ['a'], none⟩ noDraws]
      (by decide +kernel)

end LLM42.Gateway
