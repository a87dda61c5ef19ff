import LLM42.Cache.RadixMap

/-! # Cache salts on the way to the radix key

A request of the OpenAI interface may carry a `cache_salt` and an `extra_key` that should keep its
prefixes apart from those of others. The two are followed from the interface to `Req.extra_key`, the
namespace of the request in the cache, and every stored page to the request that stored it. -/

namespace LLM42

open List Library RadixState

/-- The triple that tells users apart; `lora_id` is what the registry gives for the adapter. -/
structure OpenAIRequest where
  cacheSalt : Option String := none
  extraKey : Option String := none
  loraId : Option String := none
  deriving DecidableEq

structure GenerateReqInput where
  extraKey : Option String
  loraId : List (Option String)

structure TokenizedGenerateReqInput where
  extraKey : Option String
  loraId : Option String

/-- `_compute_extra_key`: the strings that are given and not empty, joined. -/
def OpenAIRequest.computeExtraKey (r : OpenAIRequest) : Option String :=
  let parts := [r.cacheSalt, r.extraKey].filterMap fun value => value.filter (· ≠ "")
  if parts = [] then none else some (String.join parts)

def OpenAIRequest.convertToInternalRequest (r : OpenAIRequest) (n : ℕ) : GenerateReqInput :=
  ⟨r.computeExtraKey, replicate n r.loraId⟩

/-- `_create_tokenized_object` of item `i`, which has the key of the whole batch. -/
def GenerateReqInput.tokenized (obj : GenerateReqInput) (i : ℕ) : TokenizedGenerateReqInput :=
  ⟨obj.extraKey, (obj.loraId[i]?).join⟩

/-- `Req.__init__`: the adapter is appended to the key. -/
def Req.initExtraKey (extraKey loraId : Option String) : Option String :=
  match loraId with
  | some loraId => some (extraKey.getD "" ++ loraId)
  | none => extraKey

/-- `handle_generate_request` calls `Req` without `extra_key`, which is then `None`. -/
def TokenizedGenerateReqInput.handleGenerateRequest (r : TokenizedGenerateReqInput) :
    Option String :=
  Req.initExtraKey none r.loraId

/-- The namespace of item `i` of a request with `n` prompts. -/
def OpenAIRequest.radixNamespace (r : OpenAIRequest) (n i : ℕ) : Option String :=
  ((r.convertToInternalRequest n).tokenized i).handleGenerateRequest

/-- Of salt, extra key and adapter, only the adapter reaches the cache. -/
theorem OpenAIRequest.radixNamespace_eq (r : OpenAIRequest) {n i : ℕ} (hi : i < n) :
    r.radixNamespace n i = r.loraId := by
  have hitem : ((r.convertToInternalRequest n).tokenized i).loraId = r.loraId := by
    simp [convertToInternalRequest, GenerateReqInput.tokenized, hi]
  rw [radixNamespace, TokenizedGenerateReqInput.handleGenerateRequest, hitem]
  cases r.loraId <;> simp [Req.initExtraKey]

/-- A call of the cache for item `i` of a request with `n` prompts. -/
structure SaltedOp where
  request : OpenAIRequest
  n : ℕ
  i : Fin n
  op : RadixOp

/-- The call as it reaches the cache, with keys in the namespace of the request. -/
def SaltedOp.radixOp (e : SaltedOp) : RadixOp :=
  match e.op with
  | .insert key value => .insert ⟨key.tokenIds, e.request.radixNamespace e.n e.i⟩ value
  | .matchPrefix key => .matchPrefix ⟨key.tokenIds, e.request.radixNamespace e.n e.i⟩
  | op => op

/-- The cache, its map, and the request that stored each page of it. -/
structure SaltedCache (η β : Type*) where
  cache : RadixState η β × PrefixMap
  owner : List Page → Option OpenAIRequest

namespace SaltedCache

variable {η β : Type*} (cfg : RadixConfig η β)

def step (s : SaltedCache η β) (e : SaltedOp) : Except Empty (SaltedCache η β) :=
  (mapStep cfg s.cache e.radixOp).map fun x =>
    ⟨x, fun q => if x.2 q = none then none else
      if s.cache.2 q = none then some e.request else s.owner q⟩

abbrev Run (users : OpenAIRequest → Prop) : SaltedCache η β → Prop :=
  Reachable (step cfg) (· = ⟨(create cfg, fun _ => none), fun _ => none⟩)
    fun s e => users e.request ∧ s.cache.1.Allowed e.radixOp

variable {cfg} {users : OpenAIRequest → Prop} {s t : SaltedCache η β}

/-- Stored pages have an owner among the users, in whose namespace they are. -/
structure Owned (users : OpenAIRequest → Prop) (s : SaltedCache η β) : Prop where
  maps : Maps s.cache
  owned : ∀ q, s.cache.2 q ≠ none → ∃ a, s.owner q = some a ∧ users a ∧
    ∀ page ∈ q, page.1 = a.loraId

theorem Owned.step (h : s.Owned users) {e : SaltedOp} (he : users e.request)
    (hop : s.cache.1.Allowed e.radixOp) (hstep : s.step cfg e = .ok t) : t.Owned users := by
  cases hx : mapStep cfg s.cache e.radixOp with
  | error x => exact x.elim
  | ok x =>
  have hns := e.request.radixNamespace_eq e.i.isLt
  simp only [SaltedCache.step, hx, Except.map, Except.ok.injEq] at hstep
  subst hstep
  refine ⟨h.maps.step _ hop hx, fun q hq => ?_⟩
  dsimp only at hq ⊢
  rw [if_neg hq]
  split
  next hnew =>
    -- only an insertion stores a page, below its own key
    obtain ⟨s', rfl⟩ : ∃ s', x = (s', s.cache.1.onMap cfg s.cache.2 e.radixOp) := by
      cases hs : s.cache.1.step cfg e.radixOp with
      | error y => exact y.elim
      | ok s' =>
        simp only [mapStep, hs, Except.map, Except.ok.injEq] at hx
        exact ⟨s', hx.symm⟩
    refine ⟨e.request, rfl, he, fun page hp => ?_⟩
    cases hcall : e.op with
    | insert key value =>
      simp only [SaltedOp.radixOp, hcall, onMap, PrefixMap.insert] at hq
      split at hq
      next hin =>
        have hmem := hin.2.1.subset hp
        simp only [RadixKey.pages, mem_map] at hmem
        obtain ⟨_, -, rfl⟩ := hmem
        exact hns
      · exact absurd hnew hq
    | evict pick k =>
      simp only [SaltedOp.radixOp, hcall, onMap, PrefixMap.evict] at hq
      split at hq
      · exact absurd rfl hq
      · exact absurd hnew hq
    | reset => simp [SaltedOp.radixOp, hcall, onMap] at hq
    | matchPrefix key => exact absurd (by simpa [SaltedOp.radixOp, hcall, onMap]) hq
    | incLockRef node => exact absurd (by simpa [SaltedOp.radixOp, hcall, onMap]) hq
    | decLockRef node => exact absurd (by simpa [SaltedOp.radixOp, hcall, onMap]) hq
  next hold => exact h.owned q hold

theorem owned_of_run (h : Run cfg users s) : s.Owned users := by
  induction h with
  | init hs =>
    subst hs
    exact ⟨(show MapRun cfg _ from .init rfl).maps, fun q hq => absurd rfl hq⟩
  | next _ ha hstep ih => exact ih.step ha.1 ha.2 hstep

/-- Among users that the adapter tells apart, a lookup returns only pages that the same user
stored. -/
theorem salts_isolate (h : Run cfg users s)
    (hlora : ∀ a b, users a → users b → a.loraId = b.loraId → a = b) (b : OpenAIRequest)
    (hb : users b) (n : ℕ) (i : Fin n) (tokens : List Token) :
    let key : RadixKey := ⟨tokens, b.radixNamespace n i⟩
    let pages := (key.pageAligned cfg.pageSize).pages cfg.pageSize
    ∃ value : List (List ℕ), (s.cache.1.cache.matchPrefix cfg.pageSize key).1 = value.flatten ∧
      ∀ j < value.length, s.cache.2 (pages.take (j + 1)) = value[j]? ∧
        s.owner (pages.take (j + 1)) = some b := by
  intro key pages
  have hs := owned_of_run h
  obtain ⟨k, value, hlong, hfst, -⟩ := hs.maps.matchPrefix cfg key
  replace hlong : s.cache.2.Longest pages k value := hlong
  have hle := hlong.le
  have hk : value.length = k := by simpa using congrArg length hlong.stored
  have hall : ∀ page ∈ pages, page.1 = b.loraId := by
    intro page hp
    obtain ⟨_, -, rfl⟩ := mem_map.mp hp
    exact b.radixNamespace_eq i.isLt
  refine ⟨value, hfst, fun j hj => ?_⟩
  have hget : s.cache.2 (pages.take (j + 1)) = value[j]? := by
    have hrow := congrArg (·[j]?) hlong.stored
    simpa [hk ▸ hj, getElem?_eq_getElem hj] using hrow.symm
  obtain ⟨a, hown, ha, hpage⟩ := hs.owned (pages.take (j + 1)) (by
    rw [hget, getElem?_eq_getElem hj]
    nofun)
  obtain ⟨page, hp⟩ := exists_mem_of_length_pos (l := pages.take (j + 1)) (by
    rw [length_take]
    omega)
  have hsame := (hpage page hp).symm.trans (hall page (mem_of_mem_take hp))
  exact ⟨hget, by rw [hown, hlora a b ha hb hsame]⟩

/-- The same two pages of tokens, stored by a request in its namespace. -/
def store (s : SaltedCache (List (List Token)) (List (List Token))) (a : OpenAIRequest)
    (slots : List ℕ) : SaltedCache (List (List Token)) (List (List Token)) :=
  let ns := a.radixNamespace 1 0
  let m := s.cache.2.insert (RadixKey.pages 2 ⟨[1, 2, 3, 4], ns⟩) (toPages 2 slots)
  ⟨(⟨(s.cache.1.cache.insert (chainConfig 2) ⟨[1, 2, 3, 4], ns⟩ slots).2, s.cache.1.holders⟩, m),
    fun q => if m q = none then none else if s.cache.2 q = none then some a else s.owner q⟩

theorem Run.store {s : SaltedCache (List (List Token)) (List (List Token))}
    (h : Run (chainConfig 2) users s) {a : OpenAIRequest} (ha : users a) {slots : List ℕ}
    (hslots : slots.length = 4) : Run (chainConfig 2) users (s.store a slots) :=
  .next (e := ⟨a, 1, 0, .insert ⟨[1, 2, 3, 4], none⟩ slots⟩) h ⟨ha, hslots⟩ rfl

def emptyCache : SaltedCache (List (List Token)) (List (List Token)) :=
  ⟨(create (chainConfig 2), fun _ => none), fun _ => none⟩

/-- Two users with adapters of their own store the same tokens; each finds what they have stored. -/
theorem salts_isolate_adapters :
    let alice : OpenAIRequest := { cacheSalt := some "x", loraId := some "a" }
    let bob : OpenAIRequest := { cacheSalt := some "y", loraId := some "b" }
    let s := (emptyCache.store alice [10, 11, 12, 13]).store bob [20, 21, 22, 23]
    ∀ user ∈ [(alice, [10, 11, 12, 13]), (bob, [20, 21, 22, 23])],
      ∃ value : List (List ℕ), value.flatten = user.2 ∧ ∀ j < value.length,
        s.owner ((RadixKey.pages 2 ⟨[1, 2, 3, 4], user.1.loraId⟩).take (j + 1)) = some user.1 := by
  intro alice bob s
  have hrun : Run (chainConfig 2) (fun r => r = alice ∨ r = bob) s :=
    Run.store (Run.store (.init rfl) (.inl rfl) rfl) (.inr rfl) rfl
  have hlora : ∀ a b, a = alice ∨ a = bob → b = alice ∨ b = bob → a.loraId = b.loraId → a = b := by
    rintro a b (rfl | rfl) (rfl | rfl) h <;> simp [alice, bob] at h ⊢
  have hkey : ∀ r : OpenAIRequest,
      ((⟨[1, 2, 3, 4], r.radixNamespace 1 (0 : Fin 1)⟩ : RadixKey).pageAligned 2).pages 2 =
        RadixKey.pages 2 ⟨[1, 2, 3, 4], r.loraId⟩ := fun r => by
    rw [r.radixNamespace_eq (0 : Fin 1).isLt]
    simp [RadixKey.pageAligned]
  simp only [forall_mem_cons, not_mem_nil, false_implies, implies_true, and_true]
  constructor
  · obtain ⟨value, hmatch, hown⟩ := salts_isolate hrun hlora alice (.inl rfl) 1 0 [1, 2, 3, 4]
    exact ⟨value, hmatch.symm.trans (by decide +kernel), fun j hj => hkey alice ▸ (hown j hj).2⟩
  · obtain ⟨value, hmatch, hown⟩ := salts_isolate hrun hlora bob (.inr rfl) 1 0 [1, 2, 3, 4]
    exact ⟨value, hmatch.symm.trans (by decide +kernel), fun j hj => hkey bob ▸ (hown j hj).2⟩

/-- Two users with different salts and no adapter share the pages of one of them. -/
theorem salt_shares_pages : ∃ s : SaltedCache (List (List Token)) (List (List Token)),
      Run (chainConfig 2) (fun _ => True) s ∧
      (s.cache.1.cache.matchPrefix 2
        ⟨[1, 2, 3, 4], OpenAIRequest.radixNamespace { cacheSalt := some "bob" } 1 0⟩).1 =
          [10, 11, 12, 13] ∧
      s.owner (RadixKey.pages 2 ⟨[1, 2], none⟩) = some { cacheSalt := some "alice" } :=
  ⟨emptyCache.store { cacheSalt := some "alice" } [10, 11, 12, 13],
    Run.store (.init rfl) trivial rfl, by decide +kernel, by decide +kernel⟩

end SaltedCache

end LLM42
