import LLM42.Gateway.Registry
import Mathlib.Data.List.Rotate

/-! # Lookups on the hash ring of a model

A lookup walks the ring clockwise from the position of the key. Its answer is the nearest healthy
URL, a notion that does not mention the ring, so that two rings can be compared through it. -/

namespace LLM42.Gateway

open List

namespace HashRing

/-- The walk of `findHealthyUrl`; a URL met before is not asked about again. -/
def walk (isHealthy : String → Bool) : List (Nat × String) → List String → Option String
  | [], _ => none
  | (_, url) :: rest, checkedUrls =>
    if url ∈ checkedUrls then walk isHealthy rest checkedUrls
    else if isHealthy url then some url
    else walk isHealthy rest (url :: checkedUrls)

/-- The position of the key is found by `partition_point`, and the walk visits the entries
`(start + i) % len` for `i < len`. -/
def findHealthyUrl (ring : HashRing) (hashPosition : String → Nat) (key : String)
    (isHealthy : String → Bool) : Option String :=
  if ring.entries.isEmpty then none
  else
    let start := ring.entries.findIdx fun e => decide (hashPosition key ≤ e.1)
    walk isHealthy (ring.entries.rotate start) []

variable {hashPosition : String → Nat} {key : String} {isHealthy : String → Bool}

theorem walk_eq_find? {checked : List String} (h : ∀ u ∈ checked, isHealthy u = false)
    (es : List (Nat × String)) :
    walk isHealthy es checked = (es.find? fun e => isHealthy e.2).map (·.2) := by
  induction es generalizing checked with
  | nil => rfl
  | cons e es ih =>
    rw [walk, find?_cons]
    split
    next hmem => rw [h _ hmem, ih h]
    next =>
    cases hu : isHealthy e.2 with
    | true => simp
    | false =>
      rw [if_neg Bool.false_ne_true]
      exact ih fun u hmem => (mem_cons.mp hmem).elim (fun heq => heq ▸ hu) (h u)

theorem findHealthyUrl_eq (ring : HashRing) : ring.findHealthyUrl hashPosition key isHealthy =
    ((ring.entries.rotate (ring.entries.findIdx fun e => decide (hashPosition key ≤ e.1))).find?
      fun e => isHealthy e.2).map (·.2) := by
  unfold findHealthyUrl
  split
  next hempty => rw [isEmpty_iff.mp hempty]; rfl
  next => exact walk_eq_find? (fun _ h => absurd h not_mem_nil) _

/-- Position `p` is met no later than `q` by a walk that starts at `k` and wraps around. -/
def Before (k p q : Nat) : Prop := k ≤ p ∧ q < k ∨ (k ≤ p ↔ k ≤ q) ∧ p ≤ q

theorem Before.antisymm {k p q : Nat} (h : Before k p q) (h' : Before k q p) : p = q := by
  unfold Before at h h'
  omega

/-- `partition_point` of a sorted list. -/
theorem split_at_findIdx {es : List (Nat × String)} (hs : es.Pairwise fun a b => a.1 ≤ b.1)
    (k : Nat) : (∀ a ∈ es.take (es.findIdx fun e => decide (k ≤ e.1)), a.1 < k) ∧
      ∀ a ∈ es.drop (es.findIdx fun e => decide (k ≤ e.1)), k ≤ a.1 := by
  induction es with
  | nil => simp
  | cons e es ih =>
    obtain ⟨hle, hs⟩ := pairwise_cons.mp hs
    by_cases hk : k ≤ e.1
    · simpa [findIdx_cons, hk] using fun p u hmem => hk.trans (hle (p, u) hmem)
    · rw [findIdx_cons, decide_eq_false hk, cond_false, take_succ_cons, drop_succ_cons]
      exact ⟨forall_mem_cons.mpr ⟨Nat.lt_of_not_le hk, (ih hs).1⟩, (ih hs).2⟩

theorem rotate_before {es : List (Nat × String)} (hs : es.Pairwise fun a b => a.1 ≤ b.1)
    (k : Nat) : (es.rotate (es.findIdx fun e => decide (k ≤ e.1))).Pairwise
      fun a b => Before k a.1 b.1 := by
  obtain ⟨hlow, hhigh⟩ := split_at_findIdx hs k
  rw [rotate_eq_drop_append_take findIdx_le_length, pairwise_append]
  refine ⟨hs.drop.imp_of_mem fun ha hb hle => .inr ⟨?_, hle⟩,
    hs.take.imp_of_mem fun ha hb hle => .inr ⟨?_, hle⟩,
    fun a ha b hb => .inl ⟨hhigh a ha, hlow b hb⟩⟩
  · exact iff_of_true (hhigh _ ha) (hhigh _ hb)
  · exact iff_of_false (hlow _ ha).not_ge (hlow _ hb).not_ge

end HashRing

section

variable {ω : Type*} (T : WorkerTrait ω) (hash : RingHash) (ws : List ω)

/-- URLs of different workers share no position. -/
def CollisionFree : Prop :=
  ∀ v ∈ ws, ∀ w ∈ ws, ∀ i < virtualNodesPerWorker, ∀ j < virtualNodesPerWorker,
    hash (T.url v) i = hash (T.url w) j → T.url v = T.url w

def Alive (isHealthy : String → Bool) (u : String) : Prop :=
  u ∈ ws.map T.url ∧ isHealthy u = true

/-- Some virtual node of `u` is met before those of any other URL that is alive. -/
def Nearest (isHealthy : String → Bool) (k : Nat) (u : String) : Prop :=
  Alive T ws isHealthy u ∧ ∃ i < virtualNodesPerWorker, ∀ v, Alive T ws isHealthy v →
    ∀ j < virtualNodesPerWorker, HashRing.Before k (hash u i) (hash v j)

end

namespace HashRing

variable {ω : Type*} {T : WorkerTrait ω} {hash : RingHash} {ws ws' : List ω}
  {hashPosition : String → Nat} {key : String} {isHealthy isHealthy' : String → Bool} {u : String}

theorem mem_entries {e : Nat × String} : e ∈ (new T hash ws).entries ↔
    e.2 ∈ ws.map T.url ∧ ∃ i < virtualNodesPerWorker, e.1 = hash e.2 i := by
  obtain ⟨p, u⟩ := e
  simp only [new, mem_mergeSort, mem_flatMap, mem_map, mem_range, Prod.mk.injEq]
  constructor
  · rintro ⟨w, hw, i, hi, rfl, rfl⟩
    exact ⟨⟨w, hw, rfl⟩, i, hi, rfl⟩
  · rintro ⟨⟨w, hw, rfl⟩, i, hi, rfl⟩
    exact ⟨w, hw, i, hi, rfl, rfl⟩

theorem pairwise_entries : (new T hash ws).entries.Pairwise fun a b => a.1 ≤ b.1 :=
  (pairwise_mergeSort (fun a b c h h' => by simp at *; omega) (fun a b => by simp; omega) _).imp
    of_decide_eq_true

theorem not_alive_of_findHealthyUrl
    (h : (new T hash ws).findHealthyUrl hashPosition key isHealthy = none) :
    ¬ Alive T ws isHealthy u := by
  intro ⟨hmem, hu⟩
  rw [findHealthyUrl_eq, Option.map_eq_none_iff, find?_eq_none] at h
  have hentry : (hash u 0, u) ∈ (new T hash ws).entries :=
    mem_entries.mpr ⟨hmem, 0, by decide, rfl⟩
  exact h _ (mem_rotate.mpr hentry) hu

/-- The ring answers with the first healthy point clockwise. -/
theorem nearest_of_findHealthyUrl
    (h : (new T hash ws).findHealthyUrl hashPosition key isHealthy = some u) :
    Nearest T hash ws isHealthy (hashPosition key) u := by
  have hs : (new T hash ws).entries.Pairwise fun a b => a.1 ≤ b.1 := pairwise_entries
  have hbefore := rotate_before hs (hashPosition key)
  rw [findHealthyUrl_eq, Option.map_eq_some_iff] at h
  obtain ⟨e, hfind, rfl⟩ := h
  obtain ⟨hu, pre, post, hsplit, hpre⟩ := find?_eq_some_iff_append.mp hfind
  rw [hsplit] at hbefore
  have hmem {x : Nat × String} : x ∈ (new T hash ws).entries ↔ x ∈ pre ++ e :: post := by
    rw [← hsplit, mem_rotate]
  obtain ⟨hurl, i, hi, hpos⟩ := mem_entries.mp (hmem.mpr mem_append_cons_self)
  refine ⟨⟨hurl, hu⟩, i, hi, fun v ⟨hv, hvu⟩ j hj => ?_⟩
  rw [← hpos]
  have hentry : (hash v j, v) ∈ pre ++ e :: post := hmem.mp (mem_entries.mpr ⟨hv, j, hj, rfl⟩)
  rcases mem_append.mp hentry with hin | hin
  · exact absurd hvu (by simpa using hpre _ hin)
  · rcases mem_cons.mp hin with heq | hin
    · rw [← heq]
      exact .inr ⟨.rfl, le_rfl⟩
    · exact rel_of_pairwise_cons (pairwise_append.mp hbefore).2.1 hin

/-- Whatever the hash, a lookup answers with the nearest URL that is alive, and with nothing only if
none is alive. -/
theorem findHealthyUrl_nearest :
    match (new T hash ws).findHealthyUrl hashPosition key isHealthy with
    | some u => Nearest T hash ws isHealthy (hashPosition key) u
    | none => ∀ u, ¬ Alive T ws isHealthy u := by
  split
  next u hfound => exact nearest_of_findHealthyUrl hfound
  next hnone => exact fun u => not_alive_of_findHealthyUrl hnone

/-- Two lookups agree when each answer is alive for the other. -/
theorem findHealthyUrl_congr {all : List ω} (hcol : CollisionFree T hash all) (hws : ws ⊆ all)
    (hws' : ws' ⊆ all) {r r' : Option String}
    (hr : (new T hash ws).findHealthyUrl hashPosition key isHealthy = r)
    (hr' : (new T hash ws').findHealthyUrl hashPosition key isHealthy' = r')
    (h : ∀ u, r = some u → Alive T ws' isHealthy' u)
    (h' : ∀ u, r' = some u → Alive T ws isHealthy u) : r = r' := by
  match r, r' with
  | none, none => rfl
  | none, some v => exact absurd (h' v rfl) (not_alive_of_findHealthyUrl hr)
  | some u, none => exact absurd (h u rfl) (not_alive_of_findHealthyUrl hr')
  | some u, some v =>
    obtain ⟨⟨hmem, -⟩, i, hi, hnear⟩ := nearest_of_findHealthyUrl hr
    obtain ⟨⟨hmem', -⟩, j, hj, hnear'⟩ := nearest_of_findHealthyUrl hr'
    have hpos := (hnear v (h' v rfl) j hj).antisymm (hnear' u (h u rfl) i hi)
    obtain ⟨w, hw, rfl⟩ := mem_map.mp hmem
    obtain ⟨w', hw', rfl⟩ := mem_map.mp hmem'
    rw [hcol w (hws hw) w' (hws' hw') i hi j hj hpos]

/-- The lookup on all workers is the one on the healthy ones, in any order. Where adding or healing
a worker `w` changes an answer the new one is `w`, and where removing or failing it changes an
answer the old one was `w`. -/
theorem findHealthyUrl_moves_only_to {w : ω} (hcol : CollisionFree T hash (w :: ws)) :
    let find ws isHealthy := (new T hash ws).findHealthyUrl hashPosition key isHealthy
    find ws isHealthy = find (ws.filter fun v => isHealthy (T.url v)) (fun _ => true) ∧
      (∀ ws', ws'.Perm ws → find ws' isHealthy = find ws isHealthy) ∧
      (find ws isHealthy = none → ∀ v ∈ ws, isHealthy (T.url v) = false) ∧
      (find (w :: ws) isHealthy ≠ find ws isHealthy →
        find (w :: ws) isHealthy = some (T.url w)) ∧
      ∀ isHealthy', (∀ u ≠ T.url w, isHealthy' u = isHealthy u) → isHealthy' (T.url w) = true →
        find ws isHealthy' ≠ find ws isHealthy → find ws isHealthy' = some (T.url w) := by
  intro find
  have hsub : ws ⊆ w :: ws := subset_cons_self _ _
  have halive {ws : List ω} {isHealthy : String → Bool} {u : String}
      (h : find ws isHealthy = some u) : Alive T ws isHealthy u := (nearest_of_findHealthyUrl h).1
  refine ⟨?_, fun ws' hperm => ?_, fun hnone v hv => ?_, fun hne => ?_,
    fun isHealthy' hsame hw hne => ?_⟩
  · refine findHealthyUrl_congr hcol hsub (fun _ hv => hsub (mem_filter.mp hv).1) rfl rfl
      (fun u hu => ?_) fun u hu => ?_
    · obtain ⟨hmem, hu⟩ := halive hu
      obtain ⟨v, hv, rfl⟩ := mem_map.mp hmem
      exact ⟨mem_map_of_mem (mem_filter.mpr ⟨hv, hu⟩), rfl⟩
    · obtain ⟨v, hv, rfl⟩ := mem_map.mp (halive hu).1
      obtain ⟨hv, hu⟩ := mem_filter.mp hv
      exact ⟨mem_map_of_mem hv, hu⟩
  · have hmem {u : String} := (hperm.map T.url).mem_iff (a := u)
    exact findHealthyUrl_congr hcol (fun _ hv => hsub (hperm.subset hv)) hsub rfl rfl
      (fun u hu => ⟨hmem.mp (halive hu).1, (halive hu).2⟩)
      fun u hu => ⟨hmem.mpr (halive hu).1, (halive hu).2⟩
  · have hnot := not_alive_of_findHealthyUrl (u := T.url v) hnone
    exact Bool.eq_false_iff.mpr fun hv' => hnot ⟨mem_map_of_mem hv, hv'⟩
  · by_contra hother
    refine hne (findHealthyUrl_congr hcol (fun _ => id) hsub rfl rfl (fun u hu => ?_)
      fun u hu => ⟨mem_cons_of_mem _ (halive hu).1, (halive hu).2⟩)
    obtain ⟨hmem, hhealthy⟩ := halive hu
    rcases mem_cons.mp hmem with rfl | hmem
    · exact absurd hu hother
    · exact ⟨hmem, hhealthy⟩
  · by_contra hother
    refine hne (findHealthyUrl_congr hcol hsub hsub rfl rfl (fun u hu => ?_) fun u hu => ?_)
    · have hu' : u ≠ T.url w := fun heq => hother (heq ▸ hu)
      exact ⟨(halive hu).1, hsame u hu' ▸ (halive hu).2⟩
    · by_cases hu' : u = T.url w
      · exact ⟨(halive hu).1, hu' ▸ hw⟩
      · exact ⟨(halive hu).1, (hsame u hu').trans (halive hu).2⟩

/-- Three workers named by their URLs, at positions that go round. The worker that joins the other two
takes over the key at its own first position. -/
theorem findHealthyUrl_moves_only_to_threeWorkers :
    let T : WorkerTrait String :=
      ⟨id, fun _ => .regular, fun _ => .http, fun _ => [], fun _ _ => none, ""⟩
    let hash : RingHash := fun u i => 3 * i + if u = "a" then 1 else if u = "b" then 2 else 0
    let find ws k := (new T hash ws).findHealthyUrl (fun _ => k) "key" fun _ => true
    CollisionFree T hash ["c", "a", "b"] ∧ (∀ k, find ["a", "b"] k ≠ none) ∧
      find ["a", "b"] 0 ≠ some "c" ∧ find ["c", "a", "b"] 0 = some "c" := by
  intro T hash find
  have hcol : CollisionFree T hash ["c", "a", "b"] := by
    intro v hv w hw i _ j _ heq
    simp only [mem_cons, not_mem_nil, or_false] at hv hw
    rcases hv with rfl | rfl | rfl <;> rcases hw with rfl | rfl | rfl <;>
      simp [hash, T] at heq ⊢ <;> omega
  have hsome : ∀ k, find ["a", "b"] k ≠ none := fun k hnone =>
    Bool.noConfusion ((findHealthyUrl_moves_only_to hcol).2.2.1 hnone "a" mem_cons_self)
  have hold : find ["a", "b"] 0 ≠ some "c" := fun hc => by
    have hmem := (nearest_of_findHealthyUrl hc).1.1
    simp [T] at hmem
  refine ⟨hcol, hsome, hold, (findHealthyUrl_moves_only_to hcol).2.2.2.1 fun heq => ?_⟩
  -- the old answer lies behind the first position of the new worker
  obtain ⟨u, hu⟩ := Option.ne_none_iff_exists'.mp (hsome 0)
  have hmem := (nearest_of_findHealthyUrl hu).1.1
  obtain ⟨-, i, -, hnear⟩ := nearest_of_findHealthyUrl (heq.trans hu)
  have hbefore := hnear "c" ⟨mem_cons_self, rfl⟩ 0 (by decide)
  simp only [T, id, map_cons, map_nil, mem_cons, not_mem_nil, or_false] at hmem
  rcases hmem with rfl | rfl <;> simp [hash, Before] at hbefore

end HashRing

end LLM42.Gateway
