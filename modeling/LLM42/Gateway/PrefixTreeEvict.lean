import LLM42.Gateway.PrefixTreeLeaves

/-! # Evicting and removing in the prefix tree

Both calls work leaves off a queue: an eviction those of the tenants above the limit, a removal those
of one tenant. What waits in the queue is enough to get at every node, and every turn takes a pair
of a node and a tenant away or drops an entry. -/

namespace LLM42.Gateway

open Library List

namespace Tree

variable {skip : String → Prop} {t t₀ : Tree} {p q : List Char} {u v : String}

/-! ## Eviction -/

section Evict

variable {m : Nat} {pick : List EvictionEntry → Nat} {heap : List EvictionEntry}
  {entry : EvictionEntry} {pc : EvictPc} {n : Nat}

/-- What an eviction has done at most: only tenants above the limit have lost nodes. -/
structure Shrunk (m : Nat) (t₀ t : Tree) : Prop where
  sound : t.Sound fun _ => False
  registered : t₀.Registered → t.Registered
  counts : ∀ v, t₀.withinLimit m v →
    t.tenantCharCount.lookup v = t₀.tenantCharCount.lookup v
  kept : ∀ v, t₀.withinLimit m v → ∀ p, v ∈ t₀.tenantsAt p → v ∈ t.tenantsAt p

theorem Shrunk.refl (h : t.Sound fun _ => False) (m : Nat) : Shrunk m t t :=
  ⟨h, id, fun _ _ => rfl, fun _ _ _ => id⟩

def evictLeaf (t : Tree) (p : List Char) (u : String) : Tree :=
  (t.subCount u (t.charCountAt p)).giveUp p u

theorem lookup_subCount : (t.subCount u n).tenantCharCount.lookup v =
    (t.tenantCharCount.lookup v).map (· - if v = u then n else 0) := by
  simp only [subCount]
  by_cases hvu : v = u
  · subst hvu
    cases hl : t.tenantCharCount.lookup v <;> simp [hl]
  · split <;> simp [hvu, AList.lookup_insert_ne]

theorem mem_subCount : v ∈ (t.subCount u n).tenantCharCount ↔ v ∈ t.tenantCharCount := by
  rw [← AList.lookup_isSome, ← AList.lookup_isSome, lookup_subCount, Option.isSome_map]

theorem getD_lookup_subCount : ((t.subCount u n).tenantCharCount.lookup v).getD 0 =
    (t.tenantCharCount.lookup v).getD 0 - if v = u then n else 0 := by
  rw [lookup_subCount]
  cases t.tenantCharCount.lookup v <;> simp

section

variable (h : t.Sound fun _ => False)

include h

theorem Sound.subCount (u : String) (n : Nat) : (t.subCount u n).Sound (· = u) := by
  refine { h with counted := fun v hv => ?_ }
  rw [getD_lookup_subCount, if_neg hv, Nat.sub_zero]
  exact h.counted v id

theorem Sound.evictLeaf (hleaf : t.IsLeaf p u) : (t.evictLeaf p u).Sound fun _ => False := by
  have hsub := h.subCount u (t.charCountAt p)
  have hsound := hsub.giveUp (p := p) hleaf rfl
  refine { hsound with counted := fun v _ => ?_ }
  by_cases hvu : v = u
  · have hsize := hsub.usedSize_giveUp (p := p) hleaf v
    change t.usedSize v = _ at hsize
    rw [Tree.evictLeaf, hsub.tenantCharCount_giveUp hleaf, getD_lookup_subCount, h.counted v id,
      hsize, if_pos hvu, if_pos hvu]
    exact Nat.add_sub_cancel ..
  · exact hsound.counted v hvu

theorem Sound.tenantCharCount_evictLeaf (hleaf : t.IsLeaf p u) :
    (t.evictLeaf p u).tenantCharCount = (t.subCount u (t.charCountAt p)).tenantCharCount :=
  (h.subCount u _).tenantCharCount_giveUp hleaf

theorem Sound.mem_tenantsAt_evictLeaf (hleaf : t.IsLeaf p u) :
    v ∈ (t.evictLeaf p u).tenantsAt q ↔ v ∈ t.tenantsAt q ∧ ¬ (v = u ∧ q = p) :=
  (h.subCount u _).mem_tenantsAt_giveUp hleaf

theorem Sound.withinLimit_of_root (hcount : u ∈ t.tenantCharCount) (hleaf : t.IsLeaf [] u) :
    t.withinLimit m u = true := by
  have hnone : ∀ e ∈ t.nodes, u ∉ e.data.tenants := by
    intro e he hu
    refine h.not_mem_below hleaf nil_prefix (h.path_ne_nil he) ?_
    rwa [h.tenantsAt_path he]
  obtain ⟨count, hl⟩ := Option.isSome_iff_exists.mp (AList.lookup_isSome.mpr hcount)
  have hzero := h.counted u id
  rw [usedSize_of_not_mem hnone, hl, Option.getD_some] at hzero
  simp [withinLimit, hl, hzero]

end

theorem withinLimit_congr {t' : Tree}
    (h : t'.tenantCharCount.lookup v = t.tenantCharCount.lookup v) :
    t'.withinLimit m v = t.withinLimit m v := by
  rw [withinLimit, withinLimit, h]

theorem Shrunk.evictLeaf (h : Shrunk m t₀ t) (hleaf : t.IsLeaf p u)
    (hover : t.withinLimit m u = false) : Shrunk m t₀ (t.evictLeaf p u) := by
  have hother : ∀ v, t₀.withinLimit m v → v ≠ u := by
    rintro v hv rfl
    rw [← withinLimit_congr (h.counts v hv), hover] at hv
    exact Bool.noConfusion hv
  refine ⟨h.sound.evictLeaf hleaf, fun hreg v => ?_, ?_, ?_⟩
  · have hp : p ≠ [] := by
      rintro rfl
      rw [h.sound.withinLimit_of_root ((h.registered hreg u).mpr hleaf.1) hleaf] at hover
      exact Bool.noConfusion hover
    rw [h.sound.tenantCharCount_evictLeaf hleaf, mem_subCount, h.registered hreg v]
    change _ ↔ v ∈ (t.evictLeaf p u).tenantsAt []
    rw [h.sound.mem_tenantsAt_evictLeaf hleaf]
    exact ⟨fun hv => ⟨hv, fun hc => hp hc.2.symm⟩, fun hv => hv.1⟩
  · intro v hv
    rw [h.sound.tenantCharCount_evictLeaf hleaf, lookup_subCount, if_neg (hother v hv)]
    simpa using h.counts v hv
  · intro v hv q hq
    exact (h.sound.mem_tenantsAt_evictLeaf hleaf).mpr ⟨h.kept v hv q hq, fun hc => hother v hv hc.1⟩

/-- Every leaf of a tenant above the limit waits in the heap, but for those in `but`. -/
def Queued (m : Nat) (t : Tree) (heap : List EvictionEntry) (but : String → List Char → Prop) :
    Prop :=
  ∀ u p, t.IsLeaf p u → t.withinLimit m u = false → ¬ but u p →
    ∃ entry ∈ heap, entry.tenant = u ∧ entry.node = p

theorem withinLimit_subCount (h : t.withinLimit m v = true) :
    (t.subCount u n).withinLimit m v = true := by
  simp only [withinLimit, lookup_subCount] at h ⊢
  cases hl : t.tenantCharCount.lookup v with
  | none => simp [hl] at h
  | some count =>
    simp only [hl, decide_eq_true_eq, Option.map_some] at h ⊢
    omega

theorem Queued.evictLeaf (h : t.Sound fun _ => False)
    (hqueued : Queued m t heap fun v q => v = u ∧ q = p) (hleaf : t.IsLeaf p u) :
    Queued m (t.evictLeaf p u) heap fun v q => v = u ∧ t.parentOf p = some q := by
  intro v q ⟨hv, hchild⟩ hover hbut
  rw [h.mem_tenantsAt_evictLeaf hleaf] at hv
  refine hqueued v q ⟨hv.1, ?_⟩ ?_ hv.2
  · rw [← Bool.not_eq_true] at hchild ⊢
    intro hcarries
    obtain ⟨x, hx, rfl, hvx⟩ := childCarries_iff.mp hcarries
    refine hchild (((h.subCount u _).childCarries_giveUp hleaf).mpr ⟨x, hx, rfl, hvx, ?_⟩)
    rintro ⟨rfl, rfl⟩
    exact hbut ⟨rfl, by simp [parentOf, h.shaped.node?_eq hx]⟩
  · rw [← Bool.not_eq_true] at hover ⊢
    intro hwithin
    rw [withinLimit_congr (t := t.subCount u (t.charCountAt p))
      (by rw [h.tenantCharCount_evictLeaf hleaf])] at hover
    exact hover (withinLimit_subCount hwithin)

/-- What holds of a tree and an entry that is about to be taken off it. -/
structure Taking (m : Nat) (t₀ t : Tree) (entry : EvictionEntry) (heap : List EvictionEntry) :
    Prop where
  shrunk : Shrunk m t₀ t
  leaf : t.IsLeaf entry.node entry.tenant
  exceeds : t.withinLimit m entry.tenant = false
  queued : Queued m t heap fun v q => v = entry.tenant ∧ q = entry.node

/-- Where an eviction stands; between two entries the tree is as it is after some evictions of
leaves, and on the way in between it is known what it comes from. -/
inductive Evicting (m : Nat) (t₀ : Tree) : Tree → EvictPc → Prop
  | scan {t : Tree} : Shrunk m t₀ t → Evicting m t₀ t .scan
  | popping {t : Tree} {heap : List EvictionEntry} : Shrunk m t₀ t →
      Queued m t heap (fun _ _ => False) → Evicting m t₀ t (.popping heap)
  | decrement {t : Tree} {entry : EvictionEntry} {heap : List EvictionEntry} :
      Taking m t₀ t entry heap → Evicting m t₀ t (.decrement entry heap)
  | removeTenant {t : Tree} {entry : EvictionEntry} {heap : List EvictionEntry} :
      Taking m t₀ t entry heap →
      Evicting m t₀ (t.subCount entry.tenant (t.charCountAt entry.node)) (.removeTenant entry heap)
  | unlink {t : Tree} {entry : EvictionEntry} {heap : List EvictionEntry} :
      Taking m t₀ t entry heap →
      Evicting m t₀ ((t.subCount entry.tenant (t.charCountAt entry.node)).removeTenantFrom
        entry.node entry.tenant) (.unlink entry (t.parentOf entry.node) heap)
  | push {t : Tree} {entry : EvictionEntry} {parent : Option (List Char)}
      {heap : List EvictionEntry} : Shrunk m t₀ t →
      Queued m t heap (fun v q => v = entry.tenant ∧ parent = some q) →
      Evicting m t₀ t (.push entry parent heap)
  | done {t : Tree} : Shrunk m t₀ t → Queued m t [] (fun _ _ => False) → Evicting m t₀ t .done

theorem entryFor_of_mem (hu : u ∈ t.tenantsAt p) :
    ∃ entry, t.entryFor u p = some entry ∧ entry.tenant = u ∧ entry.node = p := by
  obtain ⟨timestamp, hl⟩ := Option.isSome_iff_exists.mp (AList.lookup_isSome.mpr hu)
  exact ⟨⟨timestamp, u, p⟩, by simp [entryFor, hl], rfl, rfl⟩

theorem mem_leafOf : u ∈ t.leafOf p ↔ t.IsLeaf p u := by
  simp [leafOf, IsLeaf, AList.mem_keys]

theorem mem_places : p ∈ t.places ↔ t.nodes.Holds p := by
  simp [places, PathTree.Holds]

theorem queued_scan : Queued m t (t.places.flatMap fun p =>
    (t.leafOf p).filterMap fun tenant => t.entryFor tenant p) (fun _ _ => False) := by
  intro u p hleaf _ _
  obtain ⟨entry, hentry, htenant, hnode⟩ := entryFor_of_mem hleaf.1
  refine ⟨entry, mem_flatMap.mpr ⟨p, mem_places.mpr (holds_of_mem_tenantsAt hleaf.1), ?_⟩,
    htenant, hnode⟩
  exact mem_filterMap.mpr ⟨u, mem_leafOf.mpr hleaf, hentry⟩

theorem Queued.eraseIdx (h : Queued m t heap fun _ _ => False) {i : Nat}
    (hi : heap[i]? = some entry) :
    Queued m t (heap.eraseIdx i) fun v q => v = entry.tenant ∧ q = entry.node := by
  intro u p hleaf hover hbut
  obtain ⟨entry', hmem, rfl, rfl⟩ := h u p hleaf hover id
  obtain ⟨hlt, rfl⟩ := List.getElem?_eq_some_iff.mp hi
  refine ⟨entry', ?_, rfl, rfl⟩
  obtain ⟨j, hj, rfl⟩ := mem_iff_getElem.mp hmem
  refine mem_eraseIdx_iff_getElem.mpr ⟨j, hj, ?_, rfl⟩
  rintro rfl
  exact hbut ⟨rfl, rfl⟩

theorem Evicting.step (h : Evicting m t₀ t pc) :
    Evicting m t₀ (evictStep m pick t pc).1 (evictStep m pick t pc).2 := by
  cases h with
  | scan h => exact .popping h queued_scan
  | @popping _ heap h hqueued =>
    cases hentry : heap[pick heap % heap.length]? with
    | none =>
      have hempty : heap = [] := by
        by_contra hne
        have := Nat.mod_lt (pick heap) (length_pos_of_ne_nil hne)
        rw [getElem?_eq_none_iff] at hentry
        omega
      simp only [evictStep, hentry]
      exact .done h (hempty ▸ hqueued)
    | some entry =>
      have hrest := hqueued.eraseIdx hentry
      simp only [evictStep, hentry]
      split
      · next hwithin =>
        refine .popping h fun u p hleaf hover _ => hrest u p hleaf hover ?_
        rintro ⟨rfl, -⟩
        rw [hwithin] at hover
        exact Bool.noConfusion hover
      · next hover =>
        split
        · next hleaf => exact .decrement ⟨h, hleaf, by simpa using hover, hrest⟩
        · next hleaf =>
          refine .popping h fun u p hleaf' hover _ => hrest u p hleaf' hover ?_
          rintro ⟨rfl, rfl⟩
          exact hleaf hleaf'
  | decrement h => exact .removeTenant h
  | removeTenant h => exact .unlink h
  | unlink h =>
    exact .push (h.shrunk.evictLeaf h.leaf h.exceeds) (h.queued.evictLeaf h.shrunk.sound h.leaf)
  | @push _ entry parent heap h hqueued =>
    simp only [evictStep]
    refine .popping h fun u p hleaf hover _ => ?_
    by_cases hparent : u = entry.tenant ∧ parent = some p
    · obtain ⟨rfl, rfl⟩ := hparent
      obtain ⟨entry', hentry, htenant, hnode⟩ := entryFor_of_mem hleaf.1
      have hbecame : t.becameLeaf (some p) entry.tenant = some p := by
        simp [becameLeaf, Option.filter, hleaf.1, hleaf.2]
      refine ⟨entry', mem_append_left _ ?_, htenant, hnode⟩
      simp [hbecame, hentry]
    · obtain ⟨entry', hmem, heq⟩ := hqueued u p hleaf hover hparent
      exact ⟨entry', mem_append_right _ hmem, heq⟩
  | done h hqueued => exact .done h hqueued

/-- A bound on the steps that are left: an entry takes five of them, and either it is dropped or a
tenant leaves a node for good. -/
def EvictPc.left (t : Tree) : EvictPc → Nat
  | .scan => 10 * t.ownerships + 2
  | .popping heap => 5 * (heap.length + t.ownerships) + 1
  | .decrement _ heap => 5 * (heap.length + t.ownerships) + 5
  | .removeTenant _ heap => 5 * (heap.length + t.ownerships) + 4
  | .unlink entry parent heap =>
    5 * (heap.length + (t.unlinkEmpty entry.node parent).ownerships) + 8
  | .push _ _ heap => 5 * (heap.length + t.ownerships) + 7
  | .done => 0

theorem Sound.length_scan_le (h : t.Sound skip) :
    (t.places.flatMap fun p => (t.leafOf p).filterMap fun tenant => t.entryFor tenant p).length ≤
      t.ownerships := by
  have hle : ∀ p, ((t.leafOf p).filterMap fun tenant => t.entryFor tenant p).length ≤
      (t.tenantsAt p).keys.length := fun p =>
    (length_filterMap_le _ _).trans (length_filter_le _ _)
  have hnodes : t.nodes.map (fun e => (t.tenantsAt e.path).keys.length) =
      t.nodes.map fun e => e.data.tenants.keys.length :=
    map_congr_left fun e he => by rw [h.tenantsAt_path he]
  rw [length_flatMap, places, map_cons, sum_cons, map_map, ownerships, ← hnodes]
  exact Nat.add_le_add (hle []) (sum_le_sum fun e _ => hle e.path)

theorem Evicting.left_step (h : Evicting m t₀ t pc) :
    (evictStep m pick t pc).2.left (evictStep m pick t pc).1 ≤ pc.left t - 1 := by
  cases h with
  | scan h =>
    have := h.sound.length_scan_le
    simp only [evictStep, EvictPc.left]
    omega
  | @popping _ heap h hqueued =>
    cases hentry : heap[pick heap % heap.length]? with
    | none =>
      simp only [evictStep, hentry, EvictPc.left]
      omega
    | some entry =>
      obtain ⟨hlt, -⟩ := List.getElem?_eq_some_iff.mp hentry
      have hlen := length_eraseIdx_of_lt hlt
      simp only [evictStep, hentry]
      split
      · simp only [EvictPc.left]
        omega
      · split
        · simp only [EvictPc.left]
          omega
        · simp only [EvictPc.left]
          omega
  | decrement h => exact Nat.le_refl _
  | @removeTenant t entry heap h =>
    have hown := (h.shrunk.sound.subCount entry.tenant
      (t.charCountAt entry.node)).ownerships_giveUp (p := entry.node) h.leaf
    simp only [evictStep, EvictPc.left]
    change _ = ((Tree.removeTenantFrom _ _ _).unlinkEmpty _ _).ownerships + 1 at hown
    omega
  | unlink h => exact Nat.le_refl _
  | @push _ entry parent heap h hqueued =>
    have : ((t.becameLeaf parent entry.tenant).bind (t.entryFor entry.tenant)).toList.length ≤ 1 :=
      Option.length_toList_le
    simp only [evictStep, EvictPc.left, length_append]
    omega
  | done h hqueued => exact Nat.le_refl _

theorem EvictPc.left_eq_zero : pc.left t = 0 ↔ pc = .done := by
  cases pc <;> simp [left]

theorem Evicting.of_done (h : Evicting m t₀ t .done) :
    Shrunk m t₀ t ∧ Queued m t [] fun _ _ => False := by
  cases h with
  | done hshrunk hqueued => exact ⟨hshrunk, hqueued⟩

theorem Queued.count_le (hqueued : Queued m t [] fun _ _ => False) (h : t.Sound fun _ => False)
    (u : String) : (t.tenantCharCount.lookup u).getD 0 ≤ m := by
  by_contra hover
  have hover' : t.withinLimit m u = false := by
    cases hl : t.tenantCharCount.lookup u with
    | none => simp [hl] at hover
    | some count => simpa [withinLimit, hl] using hover
  have hsome : ∃ e ∈ t.nodes, u ∈ e.data.tenants := by
    by_contra hnone
    have hzero := h.counted u id
    rw [usedSize_of_not_mem fun e he hu => hnone ⟨e, he, hu⟩] at hzero
    omega
  obtain ⟨e, he, hu⟩ := hsome
  rw [← h.tenantsAt_path he] at hu
  obtain ⟨q, hleaf⟩ := exists_isLeaf h.shaped hu
  obtain ⟨entry, hmem, -⟩ := hqueued u q hleaf hover' id
  exact not_mem_nil hmem

/-- After an eviction every tenant is within the limit. -/
theorem Sound.evictTenantBySize (h : t.Sound fun _ => False) (m : Nat)
    (pick : List EvictionEntry → Nat) :
    Shrunk m t (t.evictTenantBySize m pick) ∧
      ∀ u, ((t.evictTenantBySize m pick).tenantCharCount.lookup u).getD 0 ≤ m := by
  have hstep : ∀ t' pc, Evicting m t t' pc →
      Evicting m t (evictStep m pick t' pc).1 (evictStep m pick t' pc).2 ∧
        (evictStep m pick t' pc).2.left (evictStep m pick t' pc).1 ≤ pc.left t' - 1 :=
    fun _ _ h => ⟨h.step, h.left_step⟩
  have hinit : Evicting m t t .scan := .scan (.refl h m)
  obtain ⟨hend, hleft⟩ := runLoop_ends (Evicting m t) (fun t' pc => pc.left t') hstep hinit
    (Nat.le_refl _)
  rw [EvictPc.left_eq_zero.mp hleft] at hend
  obtain ⟨hshrunk, hqueued⟩ := hend.of_done
  exact ⟨hshrunk, hqueued.count_le hshrunk.sound⟩

end Evict

/-! ## Removal -/

section Remove

variable {queue : List (List Char)} {pc : RemovePc}

/-- What a removal of `u` has done at most. -/
structure Cleared (u : String) (t₀ t : Tree) : Prop where
  sound : t.Sound (· = u)
  counts : t.tenantCharCount = t₀.tenantCharCount
  fewer : ∀ p v, v ∈ t.tenantsAt p → v ∈ t₀.tenantsAt p
  kept : ∀ v, v ≠ u → ∀ p, v ∈ t₀.tenantsAt p → v ∈ t.tenantsAt p

theorem Sound.weaken (h : t.Sound fun _ => False) (skip : String → Prop) : t.Sound skip :=
  { h with counted := fun v _ => h.counted v id }

theorem Cleared.refl (h : t.Sound fun _ => False) (u : String) : Cleared u t t :=
  ⟨h.weaken _, rfl, fun _ _ => id, fun _ _ _ => id⟩

theorem Cleared.giveUp (h : Cleared u t₀ t) (hleaf : t.IsLeaf p u) : Cleared u t₀ (t.giveUp p u) where
  sound := h.sound.giveUp hleaf rfl
  counts := (h.sound.tenantCharCount_giveUp hleaf).trans h.counts
  fewer q v hv := h.fewer q v ((h.sound.mem_tenantsAt_giveUp hleaf).mp hv).1
  kept v hvu q hv :=
    (h.sound.mem_tenantsAt_giveUp hleaf).mpr ⟨h.kept v hvu q hv, fun hc => hvu hc.1⟩

theorem Sound.isLeaf_giveUp (h : t.Sound skip) (hleaf : t.IsLeaf p u) :
    (t.giveUp p u).IsLeaf q u → q ≠ p ∧ (t.IsLeaf q u ∨ t.parentOf p = some q) := by
  rintro ⟨hq, hchild⟩
  obtain ⟨hq, hqp⟩ := (h.mem_tenantsAt_giveUp hleaf).mp hq
  refine ⟨fun hc => hqp ⟨rfl, hc⟩, ?_⟩
  by_cases hcarries : t.childCarries q u = true
  · obtain ⟨x, hx, rfl, hu⟩ := childCarries_iff.mp hcarries
    by_cases hxp : x.path = p
    · subst hxp
      exact .inr (by simp [parentOf, h.shaped.node?_eq hx])
    · rw [(h.childCarries_giveUp hleaf).mpr ⟨x, hx, rfl, hu, fun hc => hxp hc.2⟩] at hchild
      exact Bool.noConfusion hchild
  · exact .inl ⟨hq, by simpa using hcarries⟩

theorem Sound.isLeaf_giveUp_of_ne (h : t.Sound skip) (hleaf : t.IsLeaf p u) (hq : t.IsLeaf q u)
    (hne : q ≠ p) : (t.giveUp p u).IsLeaf q u := by
  refine ⟨(h.mem_tenantsAt_giveUp hleaf).mpr ⟨hq.1, fun hc => hne hc.2⟩, ?_⟩
  rw [← Bool.not_eq_true, h.childCarries_giveUp hleaf]
  rintro ⟨x, hx, hparent, hu, -⟩
  exact hq.not_mem hx hparent hu

theorem Sound.not_isLeaf_parent (h : t.Sound skip) (hu : u ∈ t.tenantsAt p)
    (hparent : t.parentOf p = some q) : ¬ t.IsLeaf q u := by
  intro hleaf
  obtain ⟨e, hnode, rfl⟩ := Option.map_eq_some_iff.mp hparent
  obtain ⟨he, rfl⟩ := PathTree.mem_of_node? hnode
  rw [h.tenantsAt_path he] at hu
  exact hleaf.not_mem he rfl hu

/-- Where a removal stands; the queue holds the leaves of the tenant, each once. -/
inductive Removing (u : String) (t₀ : Tree) : Tree → RemovePc → Prop
  | scan {t : Tree} : Cleared u t₀ t → Removing u t₀ t .scan
  | popping {t : Tree} {queue : List (List Char)} : Cleared u t₀ t → queue.Nodup →
      (∀ p, p ∈ queue ↔ t.IsLeaf p u) → Removing u t₀ t (.popping queue)
  | unlink {t : Tree} {p : List Char} {queue : List (List Char)} : Cleared u t₀ t →
      (p :: queue).Nodup → (∀ q, q ∈ p :: queue ↔ t.IsLeaf q u) →
      Removing u t₀ (t.removeTenantFrom p u) (.unlink p (t.parentOf p) queue)
  | push {t : Tree} {parent : Option (List Char)} {queue : List (List Char)} :
      Cleared u t₀ t → queue.Nodup → (∀ q ∈ queue, t.IsLeaf q u ∧ parent ≠ some q) →
      (∀ q, t.IsLeaf q u → q ∈ queue ∨ parent = some q) → Removing u t₀ t (.push parent queue)
  | done {t : Tree} : Cleared u t₀ t → (∀ p, u ∉ t.tenantsAt p) →
      Removing u t₀ { t with tenantCharCount := t.tenantCharCount.erase u } .done

theorem mem_becameLeaf {parent : Option (List Char)} :
    q ∈ (t.becameLeaf parent u).toList ↔ parent = some q ∧ t.IsLeaf q u := by
  simp only [becameLeaf, Option.mem_toList, Option.filter_eq_some_iff, decide_eq_true_eq]
  rfl

theorem Removing.step (h : Removing u t₀ t pc) :
    Removing u t₀ (removeStep u t pc).1 (removeStep u t pc).2 := by
  cases h with
  | scan h =>
    refine .popping h (Nodup.filter _ ?_) fun p => ?_
    · refine nodup_cons.mpr ⟨?_, h.sound.shaped.nodup⟩
      rintro hmem
      obtain ⟨e, he, hnil⟩ := mem_map.mp hmem
      exact h.sound.path_ne_nil he hnil
    · simp only [removeStep, mem_filter, mem_places, decide_eq_true_eq]
      exact ⟨fun hp => hp.2, fun hp => ⟨holds_of_mem_tenantsAt hp.1, hp⟩⟩
  | @popping _ queue h hnodup hqueue =>
    cases queue with
    | nil =>
      refine .done h fun p hu => ?_
      obtain ⟨q, hleaf⟩ := exists_isLeaf h.sound.shaped hu
      exact not_mem_nil ((hqueue q).mpr hleaf)
    | cons p queue => exact .unlink h hnodup hqueue
  | @unlink t p queue h hnodup hqueue =>
    obtain ⟨hp, hnodup'⟩ := nodup_cons.mp hnodup
    have hleaf := (hqueue p).mp (by simp)
    refine .push (h.giveUp hleaf) hnodup' ?_ ?_
    · intro q hq
      have hqleaf := (hqueue q).mp (mem_cons_of_mem _ hq)
      exact ⟨h.sound.isLeaf_giveUp_of_ne hleaf hqleaf fun hc => hp (hc ▸ hq),
        fun hparent => h.sound.not_isLeaf_parent hleaf.1 hparent hqleaf⟩
    · intro q hq
      obtain ⟨hne, hor⟩ := h.sound.isLeaf_giveUp hleaf hq
      exact hor.imp_left fun hqleaf =>
        (mem_cons.mp ((hqueue q).mpr hqleaf)).resolve_left hne
  | @push _ parent queue h hnodup hqueue hall =>
    refine .popping h (hnodup.append (Option.toList_nodup _) ?_) fun q => ?_
    · intro q hq hq'
      exact (hqueue q hq).2 (mem_becameLeaf.mp hq').1
    · rw [mem_append, mem_becameLeaf]
      constructor
      · rintro (hq | hq)
        · exact (hqueue q hq).1
        · exact hq.2
      · exact fun hq => (hall q hq).imp_right fun hparent => ⟨hparent, hq⟩
  | done h hnone => exact .done h hnone

def placesOf (t : Tree) (u : String) : Nat :=
  (if u ∈ t.rootTenants then 1 else 0) +
    (t.nodes.map fun e => if u ∈ e.data.tenants then 1 else 0).sum

theorem placesOf_le (t : Tree) (u : String) : t.placesOf u ≤ t.places.length := by
  have hsum : (t.nodes.map fun e => if u ∈ e.data.tenants then 1 else 0).sum ≤ t.nodes.length := by
    refine (sum_le_card_nsmul _ 1 fun n hn => ?_).trans (by simp)
    obtain ⟨e, -, rfl⟩ := mem_map.mp hn
    split <;> simp
  rw [placesOf, places, length_cons, length_map, Nat.add_comm]
  refine Nat.add_le_add hsum ?_
  split <;> simp

theorem Sound.placesOf_giveUp (h : t.Sound skip) (hleaf : t.IsLeaf p u) :
    t.placesOf u = (t.giveUp p u).placesOf u + 1 := by
  rw [placesOf, placesOf, h.rootTenants_giveUp hleaf]
  by_cases hp : p = []
  · subst hp
    have hroot : u ∈ t.rootTenants := hleaf.1
    rw [h.giveUp_root]
    simp [hroot, AList.mem_erase, Nat.add_comm]
  · obtain ⟨e, he, rfl, hue⟩ := exists_of_mem_tenantsAt hleaf.1 hp
    have hzero : ∀ x : PathNode Char TreeNode, x.data.tenants.keys = [] →
        (if u ∈ x.data.tenants then 1 else 0) = 0 := fun x hx => if_neg (not_mem_of_keys hx)
    rw [if_neg hp, h.sum_giveUp he hleaf hzero, PathTree.sum_remove h.shaped he]
    simp [TreeNode.without, AList.mem_erase, hue]
    omega

def RemovePc.left (u : String) (t : Tree) : RemovePc → Nat
  | .scan => 3 * t.places.length + 2
  | .popping _ => 3 * t.placesOf u + 1
  | .unlink p parent _ => 3 * (t.unlinkEmpty p parent).placesOf u + 3
  | .push _ _ => 3 * t.placesOf u + 2
  | .done => 0

theorem RemovePc.left_eq_zero : pc.left u t = 0 ↔ pc = .done := by
  cases pc <;> simp [left]

theorem Removing.left_step (h : Removing u t₀ t pc) :
    (removeStep u t pc).2.left u (removeStep u t pc).1 ≤ pc.left u t - 1 := by
  cases h with
  | scan h =>
    have := t.placesOf_le u
    simp only [removeStep, RemovePc.left]
    omega
  | @popping _ queue h hnodup hqueue =>
    cases queue with
    | nil => exact Nat.zero_le _
    | cons p queue =>
      have := h.sound.placesOf_giveUp ((hqueue p).mp (by simp))
      simp only [removeStep, RemovePc.left]
      change _ = ((t.removeTenantFrom p u).unlinkEmpty p (t.parentOf p)).placesOf u + 1 at this
      omega
  | unlink h hnodup hqueue => exact Nat.le_refl _
  | push h hnodup hqueue hall => exact Nat.le_refl _
  | done h hnone => exact Nat.le_refl _

/-- What `remove_tenant` does to a tree. -/
structure Removed (u : String) (t t' : Tree) : Prop where
  sound : t'.Sound fun _ => False
  registered : t.Registered → t'.Registered
  gone : ∀ p, u ∉ t'.tenantsAt p
  kept : ∀ v, v ≠ u → ∀ p, v ∈ t.tenantsAt p → v ∈ t'.tenantsAt p

theorem Removing.removed (h : Removing u t₀ t .done) : Removed u t₀ t := by
  cases h with
  | @done t h hnone =>
    refine ⟨⟨h.sound.shaped, h.sound.filed, h.sound.texts, h.sound.owned, h.sound.above, ?_⟩,
      fun hreg v => ?_, hnone, h.kept⟩
    · intro v _
      by_cases hvu : v = u
      · subst hvu
        have hzero : t.usedSize v = 0 := by
          refine usedSize_of_not_mem fun e he hv => hnone e.path ?_
          rwa [h.sound.tenantsAt_path he]
        rw [AList.lookup_erase]
        exact hzero.symm
      · rw [AList.lookup_erase_ne hvu]
        exact h.sound.counted v hvu
    · rw [AList.mem_erase, h.counts, hreg v]
      constructor
      · exact fun ⟨hvu, hv⟩ => h.kept v hvu [] hv
      · intro hv
        exact ⟨fun hvu => hnone [] (hvu ▸ hv), h.fewer [] v hv⟩

/-- Removing a tenant takes out its entries and nobody else's. -/
theorem Sound.removeTenant (h : t.Sound fun _ => False) (u : String) :
    Removed u t (t.removeTenant u) := by
  have hstep : ∀ t' pc, Removing u t t' pc →
      Removing u t (removeStep u t' pc).1 (removeStep u t' pc).2 ∧
        (removeStep u t' pc).2.left u (removeStep u t' pc).1 ≤ pc.left u t' - 1 :=
    fun _ _ h => ⟨h.step, h.left_step⟩
  have hinit : Removing u t t .scan := .scan (.refl h u)
  obtain ⟨hend, hleft⟩ := runLoop_ends (Removing u t) (fun t' pc => pc.left u t') hstep hinit
    (Nat.le_refl _)
  rw [RemovePc.left_eq_zero.mp hleft] at hend
  exact hend.removed

end Remove

end Tree

end LLM42.Gateway
