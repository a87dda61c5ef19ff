import LLM42.Library.Runs
import LLM42.Library.SecondaryIndex

/-! # The worker registry of the gateway

Workers are stored by id. Beside that table the registry keeps an index by model, a hash ring per
model, indexes of ids by worker type and connection mode, and a map from URLs to ids. -/

namespace LLM42.Gateway

open Library

inductive WorkerType
  | regular
  | prefill (bootstrapPort : Option Nat)
  | decode
  deriving DecidableEq

inductive ConnectionMode
  | http
  | grpc (port : Option Nat)
  deriving DecidableEq

structure WorkerTrait (ω : Type*) where
  url : ω → String
  workerType : ω → WorkerType
  connectionMode : ω → ConnectionMode
  /-- ids of the worker's model cards -/
  models : ω → List String
  labels : ω → String → Option String
  unknownModelId : String

def WorkerTrait.modelId {ω : Type*} (T : WorkerTrait ω) (w : ω) : String :=
  ((T.models w).head?.orElse fun _ => T.labels w "model_id").getD T.unknownModelId

abbrev RingHash := String → Nat → Nat

def virtualNodesPerWorker : Nat := 150

structure HashRing where
  entries : List (Nat × String)

section

variable {ω : Type*} (T : WorkerTrait ω) (hash : RingHash)

/-- Sorted by position. The source sorts with `sort_unstable_by_key`; no result relies on the order of
entries at one position. -/
def HashRing.new (workers : List ω) : HashRing :=
  ⟨(workers.flatMap fun w =>
      (List.range virtualNodesPerWorker).map fun vnode => (hash (T.url w) vnode, T.url w)).mergeSort
    fun a b => decide (a.1 ≤ b.1)⟩

end

/-- Ids are drawn in turn, so that no id is drawn twice. -/
abbrev WorkerId := Nat

structure WorkerRegistry (ω : Type*) where
  workers : WorkerId → Option ω
  modelIndex : Index String ω
  hashRings : String → Option HashRing
  typeWorkers : Index WorkerType WorkerId
  connectionWorkers : Index ConnectionMode WorkerId
  urlToId : String → Option WorkerId
  /-- number of ids drawn so far -/
  drawn : Nat

namespace WorkerRegistry

variable {ω : Type*} (T : WorkerTrait ω) (hash : RingHash)

def new : WorkerRegistry ω where
  workers _ := none
  modelIndex := .empty
  hashRings _ := none
  typeWorkers := .empty
  connectionWorkers := .empty
  urlToId _ := none
  drawn := 0

def getByModel (r : WorkerRegistry ω) (modelId : String) : List ω := r.modelIndex.get modelId

def getByUrl (r : WorkerRegistry ω) (url : String) : Option ω := (r.urlToId url).bind r.workers

def rebuildHashRing (r : WorkerRegistry ω) (modelId : String) : WorkerRegistry ω :=
  { r with hashRings :=
      Function.update r.hashRings modelId ((r.modelIndex modelId).map (HashRing.new T hash)) }

def idForUrl (r : WorkerRegistry ω) (url : String) : WorkerId × Nat :=
  match r.urlToId url with
  | some id => (id, r.drawn)
  | none => (r.drawn, r.drawn + 1)

def register (r : WorkerRegistry ω) (w : ω) : WorkerId × WorkerRegistry ω :=
  let id := (r.idForUrl (T.url w)).1
  (id,
    { { r with
          workers := Function.update r.workers id (some w)
          urlToId := Function.update r.urlToId (T.url w) (some id)
          drawn := (r.idForUrl (T.url w)).2
          modelIndex := r.modelIndex.push (T.modelId w) w }.rebuildHashRing T hash (T.modelId w) with
      typeWorkers := r.typeWorkers.push (T.workerType w) id
      connectionWorkers := r.connectionWorkers.push (T.connectionMode w) id })

def reserveIdForUrl (r : WorkerRegistry ω) (url : String) : WorkerId × WorkerRegistry ω :=
  ((r.idForUrl url).1,
    { r with
      urlToId := Function.update r.urlToId url (some (r.idForUrl url).1)
      drawn := (r.idForUrl url).2 })

def remove (r : WorkerRegistry ω) (id : WorkerId) : Option ω × WorkerRegistry ω :=
  match r.workers id with
  | some w =>
    (some w,
      { { r with
            workers := Function.update r.workers id none
            urlToId := Function.update r.urlToId (T.url w) none
            modelIndex := r.modelIndex.retain (T.modelId w) fun v => T.url v ≠ T.url w
          }.rebuildHashRing T hash (T.modelId w) with
        typeWorkers := r.typeWorkers.retain (T.workerType w) fun i => i ≠ id
        connectionWorkers := r.connectionWorkers.retain (T.connectionMode w) fun i => i ≠ id })
  | none => (none, r)

def removeByUrl (r : WorkerRegistry ω) (url : String) : Option ω × WorkerRegistry ω :=
  match r.urlToId url with
  | some id => { r with urlToId := Function.update r.urlToId url none }.remove T hash id
  | none => (none, r)

end WorkerRegistry

inductive RegistryOp (ω : Type*)
  | register (w : ω)
  | reserveIdForUrl (url : String)
  | remove (id : WorkerId)
  | removeByUrl (url : String)

section

variable {ω : Type*} (T : WorkerTrait ω) (hash : RingHash)

def registryStep (r : WorkerRegistry ω) : RegistryOp ω → Except Empty (WorkerRegistry ω)
  | .register w => .ok (r.register T hash w).2
  | .reserveIdForUrl url => .ok (r.reserveIdForUrl url).2
  | .remove id => .ok (r.remove T hash id).2
  | .removeByUrl url => .ok (r.removeByUrl T hash url).2

structure IndexesAgree (r : WorkerRegistry ω) : Prop where
  models : ∀ modelId, (r.getByModel modelId).Nodup ∧
    ∀ w, w ∈ r.getByModel modelId ↔ (∃ id, r.workers id = some w) ∧ T.modelId w = modelId
  types : r.typeWorkers.Lists fun id ty => ∃ w, r.workers id = some w ∧ T.workerType w = ty
  connections : r.connectionWorkers.Lists fun id mode =>
    ∃ w, r.workers id = some w ∧ T.connectionMode w = mode
  urls : ∀ id w, r.workers id = some w → r.urlToId (T.url w) = some id
  rings : ∀ modelId, r.getByModel modelId ≠ [] →
    r.hashRings modelId = some (HashRing.new T hash (r.getByModel modelId))
  noRings : ∀ modelId ring, r.getByModel modelId = [] → r.hashRings modelId = some ring →
    ring.entries = []

/-- A worker is registered under a URL that no stored worker has. -/
def RegistersNewUrl (r : WorkerRegistry ω) : RegistryOp ω → Prop
  | .register w => r.getByUrl (T.url w) = none
  | _ => True

instance (r : WorkerRegistry ω) (op : RegistryOp ω) : Decidable (RegistersNewUrl T r op) := by
  unfold RegistersNewUrl
  split <;> infer_instance

/-- Every id that a URL has was drawn, and no two URLs share one. -/
structure IdsApart (urlToId : String → Option WorkerId) (drawn : Nat) : Prop where
  owner : ∀ url url' id, urlToId url = some id → urlToId url' = some id → url = url'
  drawn : ∀ url id, urlToId url = some id → id < drawn

/-- The indexes agree, and an id belongs to one URL. -/
structure RegistryKept (r : WorkerRegistry ω) : Prop where
  models : r.modelIndex.Lists fun w modelId => (∃ id, r.workers id = some w) ∧ T.modelId w = modelId
  types : r.typeWorkers.Lists fun id ty => ∃ w, r.workers id = some w ∧ T.workerType w = ty
  connections : r.connectionWorkers.Lists fun id mode =>
    ∃ w, r.workers id = some w ∧ T.connectionMode w = mode
  urls : ∀ id w, r.workers id = some w → r.urlToId (T.url w) = some id
  rings : ∀ modelId, r.hashRings modelId = (r.modelIndex modelId).map (HashRing.new T hash)
  ids : IdsApart r.urlToId r.drawn

end

theorem update_eq_some {α β : Type*} [DecidableEq α] {f : α → Option β} {a i : α} {b : Option β}
    {v : β} :
    Function.update f a b i = some v ↔ (i = a ∧ b = some v) ∨ (i ≠ a ∧ f i = some v) := by
  by_cases h : i = a
  · simp [h]
  · simp [h]

namespace IdsApart

variable {urlToId : String → Option WorkerId} {drawn drawn' : Nat} {url : String} {id : WorkerId}

theorem assign (h : IdsApart urlToId drawn) (howner : ∀ url', urlToId url' = some id → url' = url)
    (hlt : id < drawn') (hle : drawn ≤ drawn') :
    IdsApart (Function.update urlToId url (some id)) drawn' where
  owner u u' i hu hu' := by
    obtain ⟨hurl, hi⟩ | ⟨-, hu⟩ := update_eq_some.mp hu <;>
      obtain ⟨hurl', hi'⟩ | ⟨-, hu'⟩ := update_eq_some.mp hu'
    · exact hurl.trans hurl'.symm
    · exact hurl.trans (howner u' (hi ▸ hu')).symm
    · exact (howner u (hi' ▸ hu)).trans hurl'.symm
    · exact h.owner u u' i hu hu'
  drawn u i hu := by
    obtain ⟨-, hi⟩ | ⟨-, hu⟩ := update_eq_some.mp hu
    · exact Option.some.inj hi ▸ hlt
    · exact Nat.lt_of_lt_of_le (h.drawn u i hu) hle

theorem forget (h : IdsApart urlToId drawn) (url : String) :
    IdsApart (Function.update urlToId url none) drawn := by
  have hold : ∀ {u i}, Function.update urlToId url none u = some i → urlToId u = some i := by
    intro u i hu
    obtain ⟨-, hi⟩ | ⟨-, hu⟩ := update_eq_some.mp hu
    · cases hi
    · exact hu
  exact ⟨fun u u' i hu hu' => h.owner u u' i (hold hu) (hold hu'),
    fun u i hu => h.drawn u i (hold hu)⟩

end IdsApart

namespace WorkerRegistry

variable {ω : Type*} {T : WorkerTrait ω} {hash : RingHash} {r : WorkerRegistry ω}

theorem rings_rebuildHashRing {modelId : String}
    (h : ∀ m, m ≠ modelId → r.hashRings m = (r.modelIndex m).map (HashRing.new T hash)) (m : String) :
    (r.rebuildHashRing T hash modelId).hashRings m = (r.modelIndex m).map (HashRing.new T hash) := by
  unfold rebuildHashRing
  by_cases hm : m = modelId
  · simp [hm]
  · simpa [hm] using h m hm

variable {w : ω}

theorem workers_register : (r.register T hash w).2.workers =
    Function.update r.workers (r.idForUrl (T.url w)).1 (some w) := rfl

end WorkerRegistry

namespace RegistryKept

variable {ω : Type*} {T : WorkerTrait ω} {hash : RingHash} {r : WorkerRegistry ω}

theorem new : RegistryKept T hash (WorkerRegistry.new : WorkerRegistry ω) where
  models := .empty (by simp [WorkerRegistry.new])
  types := .empty (by simp [WorkerRegistry.new])
  connections := .empty (by simp [WorkerRegistry.new])
  urls := by simp [WorkerRegistry.new]
  rings _ := rfl
  ids := ⟨by simp [WorkerRegistry.new], by simp [WorkerRegistry.new]⟩

section

variable (h : RegistryKept T hash r)

include h

theorem indexesAgree : IndexesAgree T hash r where
  models modelId := ⟨h.models.nodup modelId, h.models.mem modelId⟩
  types := h.types
  connections := h.connections
  urls := h.urls
  rings modelId hne := by
    rw [h.rings modelId]
    unfold WorkerRegistry.getByModel Index.get at hne ⊢
    cases hm : r.modelIndex modelId with
    | none => simp [hm] at hne
    | some ws => rfl
  noRings modelId ring hnil hring := by
    rw [h.rings modelId] at hring
    unfold WorkerRegistry.getByModel Index.get at hnil
    cases hm : r.modelIndex modelId with
    | none => simp [hm] at hring
    | some ws =>
      obtain rfl : ws = [] := by simpa [hm] using hnil
      rw [hm] at hring
      cases hring
      simp [HashRing.new]

theorem idForUrl_spec (url : String) :
    (∀ url', r.urlToId url' = some (r.idForUrl url).1 → url' = url) ∧
      (r.idForUrl url).1 < (r.idForUrl url).2 ∧ r.drawn ≤ (r.idForUrl url).2 ∧
      ∀ w, r.workers (r.idForUrl url).1 = some w → T.url w = url := by
  have hstored : ∀ id w, (∀ url', r.urlToId url' = some id → url' = url) →
      r.workers id = some w → T.url w = url := fun id w hid hw => hid _ (h.urls id w hw)
  unfold WorkerRegistry.idForUrl
  cases hu : r.urlToId url with
  | some id =>
    have howner : ∀ url', r.urlToId url' = some id → url' = url :=
      fun url' hu' => h.ids.owner url' url id hu' hu
    exact ⟨howner, h.ids.drawn url id hu, Nat.le_refl _, fun w => hstored id w howner⟩
  | none =>
    have howner : ∀ url', r.urlToId url' = some r.drawn → url' = url :=
      fun url' hu' => absurd (h.ids.drawn url' _ hu') (Nat.lt_irrefl _)
    exact ⟨howner, Nat.lt_succ_self _, Nat.le_succ _, fun w => hstored r.drawn w howner⟩

end

section Attribute

variable {κ : Type*} [DecidableEq κ] (f : ω → κ) {workers : WorkerId → Option ω}
  {ix : Index κ WorkerId}

theorem lists_push {id : WorkerId} (h : ix.Lists fun i k => ∃ w, workers i = some w ∧ f w = k)
    (hfree : workers id = none) (w : ω) :
    (ix.push (f w) id).Lists fun i k =>
      ∃ v, Function.update workers id (some w) i = some v ∧ f v = k := by
  refine h.push (by simp [hfree]) fun i k => ?_
  by_cases hi : i = id
  · simp [hi, hfree, eq_comm]
  · simp [hi]

theorem lists_retain {id : WorkerId} {w : ω}
    (h : ix.Lists fun i k => ∃ w, workers i = some w ∧ f w = k) (hw : workers id = some w) :
    (ix.retain (f w) fun i => i ≠ id).Lists fun i k =>
      ∃ v, Function.update workers id none i = some v ∧ f v = k := by
  refine h.retain ?_ fun i k => ?_
  · rintro i k ⟨v, hv, hk⟩ hi
    obtain rfl : i = id := by simpa using hi
    rw [hw] at hv
    rw [← hk, Option.some.inj hv]
  · by_cases hi : i = id
    · simp [hi]
    · simp [hi]

end Attribute

section

variable (h : RegistryKept T hash r)

include h

theorem register {w : ω} (hnew : r.getByUrl (T.url w) = none) :
    RegistryKept T hash (r.register T hash w).2 := by
  obtain ⟨howner, hlt, hle, hstored⟩ := h.idForUrl_spec (T.url w)
  have hmissing : ∀ i, r.workers i ≠ some w := by
    intro i hi
    simp [WorkerRegistry.getByUrl, h.urls i w hi, hi] at hnew
  have hfree : r.workers (r.idForUrl (T.url w)).1 = none := by
    by_contra hsome
    obtain ⟨v, hv⟩ := Option.ne_none_iff_exists'.mp hsome
    have hurl := h.urls _ v hv
    rw [hstored v hv] at hurl
    simp [WorkerRegistry.getByUrl, hurl, hv] at hnew
  refine ⟨?_, lists_push _ h.types hfree w, lists_push _ h.connections hfree w, ?_, ?_,
    h.ids.assign howner hlt hle⟩
  · refine h.models.push (fun m hm => hm.1.elim hmissing) fun v m => ?_
    simp only [WorkerRegistry.workers_register, update_eq_some]
    constructor
    · rintro ⟨⟨i, ⟨-, hv⟩ | ⟨-, hi⟩⟩, hm⟩
      · exact .inr ⟨(Option.some.inj hv).symm, by rw [← hm, Option.some.inj hv]⟩
      · exact .inl ⟨⟨i, hi⟩, hm⟩
    · rintro (⟨⟨i, hi⟩, hm⟩ | ⟨rfl, rfl⟩)
      · refine ⟨⟨i, .inr ⟨?_, hi⟩⟩, hm⟩
        rintro rfl
        simp [hfree] at hi
      · exact ⟨⟨_, .inl ⟨rfl, rfl⟩⟩, rfl⟩
  · intro i v hi
    refine update_eq_some.mpr ?_
    rw [WorkerRegistry.workers_register, update_eq_some] at hi
    obtain ⟨rfl, hv⟩ | ⟨hid, hi⟩ := hi
    · exact .inl ⟨by rw [Option.some.inj hv], rfl⟩
    · refine .inr ⟨fun hurl => ?_, h.urls i v hi⟩
      simp [WorkerRegistry.getByUrl, ← hurl, h.urls i v hi, hi] at hnew
  · refine WorkerRegistry.rings_rebuildHashRing fun m hm => ?_
    simpa [Index.push, hm] using h.rings m

theorem reserveIdForUrl (url : String) :
    RegistryKept T hash (r.reserveIdForUrl url).2 := by
  obtain ⟨howner, hlt, hle, -⟩ := h.idForUrl_spec url
  refine ⟨h.models, h.types, h.connections, fun i w hi => ?_, h.rings, h.ids.assign howner hlt hle⟩
  have hw := h.urls i w hi
  refine update_eq_some.mpr ?_
  by_cases hurl : T.url w = url
  · refine .inl ⟨hurl, ?_⟩
    rw [hurl] at hw
    simp [WorkerRegistry.idForUrl, hw]
  · exact .inr ⟨hurl, hw⟩

theorem forgetUrl {url : String} (hnone : r.getByUrl url = none) :
    RegistryKept T hash { r with urlToId := Function.update r.urlToId url none } := by
  refine ⟨h.models, h.types, h.connections, fun i w hi => ?_, h.rings, h.ids.forget url⟩
  refine update_eq_some.mpr (.inr ⟨?_, h.urls i w hi⟩)
  rintro rfl
  rw [WorkerRegistry.getByUrl, h.urls i w hi] at hnone
  exact Option.some_ne_none w (hi.symm.trans hnone)

theorem remove (id : WorkerId) :
    RegistryKept T hash (r.remove T hash id).2 := by
  cases hw : r.workers id with
  | none => simpa [WorkerRegistry.remove, hw] using h
  | some w =>
    have hsame : ∀ i v, r.workers i = some v → T.url v = T.url w → i = id ∧ v = w := by
      intro i v hi hurl
      have hids := h.urls i v hi
      rw [hurl, h.urls id w hw] at hids
      obtain rfl := Option.some.inj hids
      exact ⟨rfl, Option.some.inj (hi.symm.trans hw)⟩
    simp only [WorkerRegistry.remove, hw]
    refine ⟨?_, lists_retain _ h.types hw, lists_retain _ h.connections hw, ?_, ?_, h.ids.forget _⟩
    · refine h.models.retain ?_ fun v m => ?_
      · rintro v m ⟨⟨i, hi⟩, hm⟩ hurl
        rw [← hm, (hsame i v hi (by simpa using hurl)).2]
      · simp only [WorkerRegistry.rebuildHashRing, update_eq_some, decide_eq_true_eq]
        constructor
        · rintro ⟨⟨i, ⟨-, hv⟩ | ⟨hi, hv⟩⟩, hm⟩
          · cases hv
          · exact ⟨⟨⟨i, hv⟩, hm⟩, fun hurl => hi (hsame i v hv hurl).1⟩
        · rintro ⟨⟨⟨i, hi⟩, hm⟩, hurl⟩
          refine ⟨⟨i, .inr ⟨?_, hi⟩⟩, hm⟩
          rintro rfl
          exact hurl (by rw [Option.some.inj (hi.symm.trans hw)])
    · intro i v hi
      obtain ⟨-, hv⟩ | ⟨hid, hv⟩ := update_eq_some.mp hi
      · cases hv
      · exact update_eq_some.mpr (.inr ⟨fun hurl => hid (hsame i v hv hurl).1, h.urls i v hv⟩)
    · refine WorkerRegistry.rings_rebuildHashRing fun m hm => ?_
      simpa [Index.retain, hm] using h.rings m

theorem removeByUrl (url : String) :
    RegistryKept T hash (r.removeByUrl T hash url).2 := by
  cases hu : r.urlToId url with
  | none => simpa [WorkerRegistry.removeByUrl, hu] using h
  | some id =>
    cases hw : r.workers id with
    | none =>
      have hnone : r.getByUrl url = none := by simp [WorkerRegistry.getByUrl, hu, hw]
      simp only [WorkerRegistry.removeByUrl, hu, WorkerRegistry.remove, hw]
      exact h.forgetUrl hnone
    | some w =>
      -- the URL goes first, but it is the one the removal of the worker would take out
      obtain rfl : url = T.url w := h.ids.owner url _ id hu (h.urls id w hw)
      have hremove : (r.removeByUrl T hash (T.url w)).2 = (r.remove T hash id).2 := by
        simp [WorkerRegistry.removeByUrl, hu, WorkerRegistry.remove, hw,
          WorkerRegistry.rebuildHashRing]
      rw [hremove]
      exact h.remove id

end

theorem step {r' : WorkerRegistry ω} {op : RegistryOp ω} (h : RegistryKept T hash r)
    (hop : RegistersNewUrl T r op) (he : registryStep T hash r op = .ok r') :
    RegistryKept T hash r' := by
  cases op with
  | register w =>
    cases he
    exact h.register hop
  | reserveIdForUrl url =>
    cases he
    exact h.reserveIdForUrl url
  | remove id =>
    cases he
    exact h.remove id
  | removeByUrl url =>
    cases he
    exact h.removeByUrl url

end RegistryKept

/-- Registering keeps the indexes in agreement exactly for a new URL. -/
theorem IndexesAgree.register_iff {ω : Type*} {T : WorkerTrait ω} {hash : RingHash}
    {r : WorkerRegistry ω} (h : RegistryKept T hash r) (w : ω) :
    IndexesAgree T hash (r.register T hash w).2 ↔ r.getByUrl (T.url w) = none := by
  refine ⟨fun hagree => ?_, fun hnew => (h.register hnew).indexesAgree⟩
  by_contra hsome
  obtain ⟨v, hv⟩ := Option.ne_none_iff_exists'.mp hsome
  obtain ⟨id, hid, hstored⟩ := Option.bind_eq_some_iff.mp hv
  have hfor : (r.idForUrl (T.url w)).1 = id := by simp [WorkerRegistry.idForUrl, hid]
  have hold : id ∈ r.typeWorkers.get (T.workerType v) := (h.types.mem _ _).mpr ⟨v, hstored, rfl⟩
  have hget := r.typeWorkers.get_push (T.workerType w) id
  have hindex : (r.register T hash w).2.typeWorkers = r.typeWorkers.push (T.workerType w) id := by
    rw [← hfor]
    rfl
  by_cases hty : T.workerType v = T.workerType w
  · have hnodup := hagree.types.nodup (T.workerType w)
    rw [hindex, hget, if_pos rfl, ← hty, List.nodup_append] at hnodup
    exact hnodup.2.2 id hold id (by simp) rfl
  · -- the id is still listed under the type of the worker it no longer has
    have hmem : id ∈ (r.register T hash w).2.typeWorkers.get (T.workerType v) := by
      rwa [hindex, hget, if_neg hty]
    obtain ⟨u, hu, htu⟩ := (hagree.types.mem _ _).mp hmem
    rw [WorkerRegistry.workers_register, hfor, Function.update_self] at hu
    exact hty (by rw [← htu, Option.some.inj hu])

section

variable {ω : Type*} {T : WorkerTrait ω} {hash : RingHash}

/-- The indexes agree after any operations in which no URL is registered a second time. -/
theorem WorkerRegistry.indexes_agree {r : WorkerRegistry ω}
    (h : Reachable (registryStep T hash) (· = WorkerRegistry.new) (RegistersNewUrl T) r) :
    IndexesAgree T hash r := by
  have hkept : RegistryKept T hash r :=
    h.invariant (fun _ hr => hr ▸ RegistryKept.new) fun _ _ _ => RegistryKept.step
  exact hkept.indexesAgree

end

structure BasicWorker where
  url : String
  workerType : WorkerType
  connectionMode : ConnectionMode
  models : List String
  labels : List (String × String)
  deriving DecidableEq

def basicWorkerTrait : WorkerTrait BasicWorker where
  url := BasicWorker.url
  workerType := BasicWorker.workerType
  connectionMode := BasicWorker.connectionMode
  models := BasicWorker.models
  labels w key := w.labels.lookup key
  unknownModelId := "unknown"

def workerA : BasicWorker := ⟨"http://a", .regular, .http, ["m"], []⟩

/-- The worker that an update of a label puts in the place of `workerA`. -/
def workerAUpdated : BasicWorker := { workerA with labels := [("priority", "high")] }

theorem WorkerRegistry.indexes_agree_basicWorkers :
    ∃ r, Reachable (registryStep basicWorkerTrait fun _ vnode => vnode) (· = WorkerRegistry.new)
        (RegistersNewUrl basicWorkerTrait) r ∧
      r.getByModel "m" = [workerAUpdated] ∧
      IndexesAgree basicWorkerTrait (fun _ vnode => vnode) r :=
  exists_reachable_imp rfl [.reserveIdForUrl "http://a", .register workerA,
    .removeByUrl "http://a", .register workerAUpdated] (by decide +kernel)
    fun _ hreach hmodel => ⟨hmodel, WorkerRegistry.indexes_agree hreach⟩

/-- An updated worker is registered under the URL of the old one: the model index lists both, the
type index lists their id twice. -/
theorem WorkerRegistry.indexes_disagree_after_update :
    ∃ r, Reachable (registryStep basicWorkerTrait fun _ vnode => vnode) (· = WorkerRegistry.new)
        (fun _ _ => True) r ∧
      r.workers 0 = some workerAUpdated ∧ r.getByModel "m" = [workerA, workerAUpdated] ∧
      ¬ IndexesAgree basicWorkerTrait (fun _ vnode => vnode) r :=
  exists_reachable_imp (p := fun r => _ ∧ _ ∧ r.typeWorkers.get .regular = [0, 0]) rfl
    [.register workerA, .register workerAUpdated] (by decide +kernel)
    fun _ _ ⟨hstored, hmodel, htypes⟩ => ⟨hstored, hmodel, fun h => by
      have hnodup := h.types.nodup .regular
      rw [htypes] at hnodup
      exact absurd hnodup (by decide)⟩

end LLM42.Gateway
