import LLM42.Serving.Ownership
import LLM42.Serving.Stock
import Mathlib.Tactic.Linarith

/-! # Prefill admission

The pages of the requests that an adder has admitted never exceed what the allocator and the tree
can supply, with the locks of the admitted requests held. So the batch finds its pages. -/

namespace LLM42

open Library List
open RadixState (chainConfig)

variable {η β : Type*} {cfg : RadixConfig η β}

/-- A request as the adder leaves it: its cached prefix fills whole pages and the rest of `fill_ids`
is to be computed. -/
structure MemReq.Placed {η β : Type*} (cfg : RadixConfig η β) (r : MemReq) : Prop where
  aligned : cfg.pageSize ∣ r.prefixIndices.length
  fill : r.fillIds.length = r.prefixIndices.length + r.extendInputLen

namespace PrefillAdder

variable {env : AdderConfig} {a a' : PrefillAdder}
  {s t : ServingState η β} {id : ℕ} {r r' : MemReq} {ps : ℕ}

theorem ceilPagedTokens_mul (hps : 0 < ps) (k : ℕ) : ceilPagedTokens ps (k * ps) = k * ps := by
  rw [ceilPagedTokens, pageCount_mul hps]

theorem ceilPagedTokens_le (hps : 0 < ps) {n k : ℕ} (h : n ≤ k * ps) :
    ceilPagedTokens ps n ≤ k * ps := by
  rw [← ceilPagedTokens_mul hps k]
  exact Nat.mul_le_mul_right _ (pageCount_mono h)

theorem add_ceilPagedTokens_le (hps : 0 < ps) {used n : ℕ} {size : ℤ} (hused : ps ∣ used)
    (hsize : (ps : ℤ) ∣ size) (h : ((used + n : ℕ) : ℤ) ≤ size) :
    ((used + ceilPagedTokens ps n : ℕ) : ℤ) ≤ size := by
  obtain ⟨k, rfl⟩ := hused
  obtain ⟨size, rfl⟩ : ∃ size' : ℕ, size = size' := ⟨size.toNat, by omega⟩
  obtain ⟨z, rfl⟩ := Int.natCast_dvd_natCast.mp hsize
  have hle : n ≤ (z - k) * ps := by
    rw [Nat.sub_mul, Nat.mul_comm z, Nat.mul_comm k]
    omega
  have hceil := ceilPagedTokens_le hps hle
  rw [Nat.sub_mul, Nat.mul_comm z, Nat.mul_comm k] at hceil
  omega

theorem pageSize_le_ceilPagedTokens {ps n : ℕ} (hps : 0 < ps) (hn : 0 < n) :
    ps ≤ ceilPagedTokens ps n :=
  Nat.le_mul_of_pos_left ps ((Nat.zero_le _).trans_lt (div_lt_pageCount hps hn))

theorem setReq_self (s : ServingState η β) (id : ℕ) : s.setReq id (s.heap id) = s := by
  rw [ServingState.setReq, Function.update_eq_self]

/-- What an admission does: request `id` is now `r'`, perhaps cut, and the budget pays for it. -/
structure Admits (cfg : RadixConfig η β) (id : ℕ) (r r' : MemReq) (a a' : PrefillAdder) : Prop where
  canRunList : a'.canRunList = a.canRunList ++ [id]
  placed : r'.Placed cfg
  extendInputLen : r'.extendInputLen ≤ r.extendInputLen
  offset : a.remTotalTokenOffset + ceilPagedTokens cfg.pageSize r'.extendInputLen ≤
    a'.remTotalTokenOffset
  chunk : a.remChunkTokens = none → a'.remChunkTokens = none
  truncated : r'.fillIds = r'.tokens ∨ ∃ n, a'.remChunkTokens = some n ∧ n < cfg.pageSize

theorem admits_whole (hps : 0 < cfg.pageSize) (hr : r.Placed cfg) (hfill : r.fillIds = r.tokens)
    {inputTokens : ℕ} (hi : inputTokens = r.extendInputLen ∨
      inputTokens = ceilPagedTokens cfg.pageSize r.extendInputLen) :
    Admits cfg id r r a (a.admitWhole cfg env id inputTokens) where
  canRunList := rfl
  placed := hr
  extendInputLen := le_rfl
  offset := by
    have hceil : ceilPagedTokens cfg.pageSize inputTokens =
        ceilPagedTokens cfg.pageSize r.extendInputLen := by
      rcases hi with rfl | rfl
      · rfl
      · exact ceilPagedTokens_mul hps _
    simp only [admitWhole, updatePrefillBudget, hceil]
    rw [Nat.cast_add, ← add_assoc]
    exact le_add_of_nonneg_right (Nat.cast_nonneg _)
  chunk := by simp [admitWhole, updatePrefillBudget]
  truncated := .inl hfill

theorem admits_truncated (hps : 0 < cfg.pageSize) (hr : r.Placed cfg) {n : ℤ} (hn : a.remChunkTokens = some n)
    (hlt : n < ceilPagedTokens cfg.pageSize r.extendInputLen)
    (hpos : (n / cfg.pageSize * cfg.pageSize).toNat ≠ 0) :
    Admits cfg id r (r.truncate (n / cfg.pageSize * cfg.pageSize).toNat) a
      (a.admitTruncated cfg id (n / cfg.pageSize * cfg.pageSize).toNat) := by
  obtain ⟨k, hk⟩ : ∃ k : ℕ, n / cfg.pageSize = k := by
    refine ⟨(n / cfg.pageSize).toNat, (Int.toNat_of_nonneg ?_).symm⟩
    by_contra hneg
    refine hpos (Int.toNat_eq_zero.mpr ?_)
    exact Int.mul_nonpos_of_nonpos_of_nonneg (by omega) (Int.natCast_nonneg _)
  have htrunc : (n / cfg.pageSize * cfg.pageSize).toNat = k * cfg.pageSize := by
    rw [hk, ← Nat.cast_mul, Int.toNat_natCast]
  have hdiv := Int.mul_ediv_add_emod n cfg.pageSize
  have hmod := Int.emod_lt_of_pos n (Int.natCast_pos.mpr hps)
  have hmod0 := Int.emod_nonneg n (Int.natCast_ne_zero.mpr hps.ne')
  rw [hk, Int.mul_comm, ← Nat.cast_mul] at hdiv
  rw [htrunc]
  have hle : k * cfg.pageSize ≤ r.extendInputLen := by
    by_contra hgt
    have := ceilPagedTokens_le hps (not_le.mp hgt).le
    omega
  have hfillLen := hr.fill
  refine ⟨rfl, ⟨hr.aligned, ?_⟩, hle, ?_, ?_, .inr ⟨n - k * cfg.pageSize, ?_, ?_⟩⟩
  · simp only [MemReq.truncate, length_take]
    omega
  · simp [admitTruncated, updatePrefillBudget, MemReq.truncate]
  · simp [admitTruncated, updatePrefillBudget]
  · simp [admitTruncated, updatePrefillBudget, hn, ceilPagedTokens_mul hps]
  · omega

/-- The request that is offered next, just looked up in the tree. -/
structure Offered (cfg : RadixConfig η β) (s : ServingState η β) (id : ℕ) : Prop where
  stocked : s.memory.Stocked cfg
  lockable : s.memory.Lockable (s.heap id).lastNode
  placed : (s.heap id).Placed cfg
  whole : (s.heap id).fillIds = (s.heap id).tokens

theorem addLocked_spec (h : Offered cfg s id) (halign : env.truncationAlignSize = none)
    (totalTokens : ℕ) :
    (∃ e ≠ .continueAdding, a.addLocked cfg env s id totalTokens = (some e, a, s)) ∨
      ∃ a' r', a.addLocked cfg env s id totalTokens =
          (none, a', (s.incLockRef (s.heap id).lastNode).setReq id r') ∧
        Admits cfg id (s.heap id) r' a a' ∧ a.remTotalTokenOffset + totalTokens <
          s.memory.availableAndEvictable ∧
        ∀ n, a.remChunkTokens = some n → 0 < (s.heap id).extendInputLen → cfg.pageSize ≤ n := by
  have hps := h.stocked.pageSize_pos
  unfold addLocked
  dsimp only
  split
  · exact .inl ⟨_, by decide, rfl⟩
  next hroom =>
  split
  · exact .inl ⟨_, by decide, rfl⟩
  split
  · exact .inl ⟨_, by decide, rfl⟩
  have hroom : a.remTotalTokenOffset + totalTokens < s.memory.availableAndEvictable := by
    rw [remTotalTokens] at hroom
    linarith
  have hwhole := @admits_whole η β cfg env a id (s.heap id) hps h.placed h.whole _ (.inr rfl)
  split
  next hnone =>
    refine .inr ⟨_, s.heap id, ?_, hwhole, hroom, fun n hn => ?_⟩
    · exact congrArg (none, _, ·) (setReq_self (s.incLockRef _) id).symm
    · rw [hnone] at hn
      cases hn
  next n hn =>
  split
  next hle =>
    refine .inr ⟨_, s.heap id, ?_, hwhole, hroom, fun k hk hpos => ?_⟩
    · exact congrArg (none, _, ·) (setReq_self (s.incLockRef _) id).symm
    · rw [hn] at hk
      cases hk
      have := pageSize_le_ceilPagedTokens hps hpos
      omega
  next hgt =>
  split
  · exact .inl ⟨_, by decide, rfl⟩
  next hpos =>
  rw [halign]
  refine .inr ⟨_, _, rfl, admits_truncated hps h.placed hn (not_le.mp hgt) hpos, hroom,
    fun k hk _ => ?_⟩
  rw [hn] at hk
  cases hk
  by_contra hlt
  refine hpos (Int.toNat_eq_zero.mpr ?_)
  refine Int.mul_nonpos_of_nonpos_of_nonneg ?_ (Int.natCast_nonneg _)
  exact Int.lt_add_one_iff.mp (Int.ediv_lt_of_lt_mul (Int.natCast_pos.mpr hps) (by omega))

theorem addOneReqIgnoreEos_spec (h : Offered cfg s id) (hchunk : a.remChunkTokens = none) :
    (∃ e ≠ .continueAdding, ∃ reqStates,
      a.addOneReqIgnoreEos cfg env s id = (e, { a with reqStates }, s)) ∨
      ∃ e a', a.addOneReqIgnoreEos cfg env s id = (e, a', s) ∧
        Admits cfg id (s.heap id) (s.heap id) a a' ∧
        a.remTotalTokenOffset + (s.heap id).extendInputLen ≤ s.memory.availableAndEvictable := by
  have hps := h.stocked.pageSize_pos
  unfold addOneReqIgnoreEos
  dsimp only
  split
  · exact .inl ⟨_, by decide, a.reqStates, rfl⟩
  next hroom =>
  split
  · exact .inl ⟨_, by decide, _, rfl⟩
  rw [hchunk]
  obtain ⟨hcan, hplaced, hext, hoff, -, htrunc⟩ := @admits_whole η β cfg env
    { a with reqStates := some (a.nextReqStates env s id), remChunkTokens := none } id (s.heap id)
    hps h.placed h.whole _ (.inl rfl)
  refine .inr ⟨_, _, rfl, ⟨hcan, hplaced, hext, hoff, fun _ => rfl, htrunc⟩, ?_⟩
  have hle := (le_min_iff.mp (not_lt.mp hroom)).2
  have hceil : ((s.heap id).extendInputLen : ℚ) ≤
      ceilPagedTokens cfg.pageSize (s.heap id).extendInputLen :=
    Nat.cast_le.mpr (le_pageCount_mul hps _)
  rw [remTotalTokens] at hle
  linarith

@[simp] theorem disable_incLockRef (c : PrefixCache η β) (node : Option (List Page)) :
    (c.incLockRef node).disable = c.disable := by
  rcases c with _ | ⟨_ | _, c⟩ <;> cases node <;> rfl

@[simp] theorem disable_decLockRef (c : PrefixCache η β) (node : Option (List Page)) :
    (c.decLockRef node).disable = c.disable := by
  rcases c with _ | ⟨_ | _, c⟩ <;> cases node <;> rfl

/-- What the pass keeps of the memory when it offers a request. -/
structure Carries (cfg : RadixConfig η β) (id : ℕ) (s t : ServingState η β) : Prop where
  stocked : t.memory.Stocked cfg
  disable : t.memory.cache.disable = s.memory.cache.disable
  heap : ∀ x ≠ id, t.heap x = s.heap x

/-- The outcome `e` of an offer: it is turned down, or the request is admitted and its tokens fit what
is left. -/
def Decides (cfg : RadixConfig η β) (id : ℕ) (s t : ServingState η β) (a a' : PrefillAdder)
    (e : AddReqResult) : Prop :=
  (e ≠ .continueAdding ∧ (∃ reqStates, a' = { a with reqStates }) ∧
      t.memory.availableAndEvictable = s.memory.availableAndEvictable) ∨
    Admits cfg id (s.heap id) (t.heap id) a a' ∧
      a.remTotalTokenOffset + (s.heap id).extendInputLen ≤ t.memory.availableAndEvictable ∧
      ∀ n, a.remChunkTokens = some n → 0 < (s.heap id).extendInputLen → cfg.pageSize ≤ n

theorem addOneReq_spec (h : Offered cfg s id) (halign : env.truncationAlignSize = none)
    (hchunk : s.memory.cache.disable → a.remChunkTokens = none) :
    ∃ e a' t, a.addOneReq cfg env s id = (e, a', t) ∧ Carries cfg id s t ∧
      Decides cfg id s t a a' e := by
  have hsame : Carries cfg id s s := ⟨h.stocked, rfl, fun _ _ => rfl⟩
  have hreject : ∀ e ≠ AddReqResult.continueAdding, ∃ e' a' t, (e, a, s) = (e', a', t) ∧
      Carries cfg id s t ∧ Decides cfg id s t a a' e' :=
    fun e he => ⟨e, a, s, rfl, hsame, .inl ⟨he, ⟨a.reqStates, rfl⟩, rfl⟩⟩
  unfold addOneReq
  dsimp only
  split
  · exact hreject _ (by decide)
  split
  · exact hreject _ (by decide)
  split
  next hignore =>
    have hnone := hchunk hignore.2
    rcases @addOneReqIgnoreEos_spec η β cfg env a s id h hnone with
      ⟨e, he, states, heq⟩ | ⟨e, a', heq, hadm, hroom⟩
    · exact ⟨e, _, s, heq, hsame, .inl ⟨he, ⟨states, rfl⟩, rfl⟩⟩
    · refine ⟨e, a', s, heq, hsame, .inr ⟨hadm, hroom, fun n hn => ?_⟩⟩
      rw [hnone] at hn
      cases hn
  split
  · exact hreject _ (by decide)
  split
  · exact hreject _ (by decide)
  obtain ⟨hstock, hlock⟩ := h.stocked.incLockRef h.lockable
  have hoffered : Offered cfg (s.incLockRef (s.heap id).lastNode) id :=
    ⟨hstock, hlock, h.placed, h.whole⟩
  rcases @addLocked_spec η β cfg env a _ id hoffered halign ((s.heap id).extendInputLen +
      min ((env.params id).maxNewTokens - (s.heap id).outputIds.length) env.clipMaxNewTokens) with
    ⟨e, he, heq⟩ | ⟨a', r', heq, hadm, hroom, hn⟩
  · obtain ⟨hst, hav⟩ := h.stocked.decLockRef_incLockRef h.lockable
    rw [heq]
    refine ⟨_, _, _, rfl, ⟨hst, ?_, fun _ _ => rfl⟩, .inl ⟨he, ⟨a.reqStates, rfl⟩, hav⟩⟩
    simp [ServingState.decLockRef, ServingState.incLockRef]
  · obtain ⟨hst, hav⟩ := hstock.decLockRef_incLockRef hlock
    rw [heq]
    refine ⟨_, _, _, rfl, ⟨hst, ?_, fun x hx => Function.update_of_ne hx _ _⟩, .inr ⟨?_, ?_, hn⟩⟩
    · simp [ServingState.decLockRef, ServingState.incLockRef, ServingState.setReq]
    · change Admits cfg id (s.heap id) ((((s.incLockRef _).incLockRef _).setReq id r').heap id) a a'
      rw [ServingState.heap_setReq_self]
      exact hadm
    · refine le_trans ?_ (le_of_eq (congrArg Int.cast hav.symm))
      refine le_trans ?_ hroom.le
      push_cast
      have : (0 : ℚ) ≤ min (((env.params id).maxNewTokens - (s.heap id).outputIds.length : ℕ) : ℚ)
          env.clipMaxNewTokens := le_min (Nat.cast_nonneg _) (Nat.cast_nonneg _)
      linarith

def inputTokens (cfg : RadixConfig η β) (a : PrefillAdder) (s : ServingState η β) : ℕ :=
  (a.canRunList.map fun id => ceilPagedTokens cfg.pageSize (s.heap id).extendInputLen).sum

/-- What holds after every offer. Once a request is cut, less than a page is left for chunks. -/
structure Budgeted (cfg : RadixConfig η β) (a : PrefillAdder) (s : ServingState η β) : Prop where
  stocked : s.memory.Stocked cfg
  placed : ∀ id ∈ a.canRunList, (s.heap id).Placed cfg
  offset : (a.inputTokens cfg s : ℚ) ≤ a.remTotalTokenOffset
  room : (a.inputTokens cfg s : ℤ) ≤ s.memory.availableAndEvictable
  chunk : s.memory.cache.disable → a.remChunkTokens = none
  truncated : (∀ id ∈ a.canRunList, (s.heap id).fillIds = (s.heap id).tokens) ∨
    (∃ n, a.remChunkTokens = some n ∧ n < cfg.pageSize) ∧
      ∀ id ∈ a.canRunList.dropLast, (s.heap id).fillIds = (s.heap id).tokens

theorem inputTokens_congr (ha : a'.canRunList = a.canRunList)
    (hheap : ∀ x ∈ a.canRunList, t.heap x = s.heap x) :
    a'.inputTokens cfg t = a.inputTokens cfg s := by
  rw [inputTokens, inputTokens, ha]
  exact congrArg List.sum (map_congr_left fun x hx => by rw [hheap x hx])

theorem dvd_inputTokens : cfg.pageSize ∣ a.inputTokens cfg s := by
  refine dvd_sum fun x hx => ?_
  obtain ⟨id, -, rfl⟩ := mem_map.mp hx
  exact Nat.dvd_mul_left _ _

theorem offered_initNextRoundInput (h : s.memory.Stocked cfg) (id : ℕ) :
    Offered cfg (s.initNextRoundInput cfg id) id ∧ Carries cfg id s (s.initNextRoundInput cfg id) ∧
      (s.initNextRoundInput cfg id).memory.availableAndEvictable = s.memory.availableAndEvictable ∧
      ((s.heap id).tokens ≠ [] → 0 < ((s.initNextRoundInput cfg id).heap id).extendInputLen) ∧
      ((s.initNextRoundInput cfg id).heap id).tokens = (s.heap id).tokens := by
  obtain ⟨hst, hav, hl, hd, P, node, hdvd, hle, hr⟩ := h.initNextRoundInput Prod.mk.eta.symm
  have hheap : (s.initNextRoundInput cfg id).heap id =
      (s.memory.initNextRoundInput cfg (s.heap id)).1 := Function.update_self _ _ _
  rw [hheap]
  rw [hr] at hl
  refine ⟨⟨hst, ?_, ?_, ?_⟩, ⟨hst, hd, fun x hx => Function.update_of_ne hx _ _⟩, hav, ?_, ?_⟩
  · rw [hheap, hr]
    exact hl
  · rw [hheap, hr]
    refine ⟨hdvd, ?_⟩
    dsimp only
    omega
  · rw [hheap, hr]
    rfl
  · intro hne
    have := length_pos_iff.mpr hne
    rw [hr]
    dsimp only
    omega
  · rw [hr]
    rfl

variable (env) in
/-- An offer keeps the adder within its budget. -/
theorem Budgeted.offer (h : Budgeted cfg a s) (hid : id ∉ a.canRunList)
    (hne : (s.heap id).tokens ≠ []) (halign : env.truncationAlignSize = none) :
    ∃ e a' t, a.addOneReq cfg env (s.initNextRoundInput cfg id) id = (e, a', t) ∧
      Budgeted cfg a' t ∧ (∀ x ≠ id, t.heap x = s.heap x) ∧
      ∀ x ∈ a'.canRunList, x = id ∨ x ∈ a.canRunList := by
  have hps := h.stocked.pageSize_pos
  obtain ⟨hoff, hinit, hav, hext, htok⟩ := offered_initNextRoundInput h.stocked id
  set u := s.initNextRoundInput cfg id
  obtain ⟨e, a', t, heq, hcar, hdec⟩ := @addOneReq_spec η β cfg env a u id hoff halign
    (fun hd => h.chunk (hinit.disable ▸ hd))
  have hheap : ∀ x ≠ id, t.heap x = s.heap x := fun x hx => (hcar.heap x hx).trans (hinit.heap x hx)
  have hold : ∀ x ∈ a.canRunList, t.heap x = s.heap x :=
    fun x hx => hheap x fun hxid => hid (hxid ▸ hx)
  have hdis : t.memory.cache.disable = s.memory.cache.disable := hcar.disable.trans hinit.disable
  refine ⟨e, a', t, heq, ?_, hheap, ?_⟩
  · rcases hdec with ⟨-, ⟨states, rfl⟩, havt⟩ | ⟨hadm, hroom, hn⟩
    · have hin : ({ a with reqStates := states } : PrefillAdder).inputTokens cfg t =
          a.inputTokens cfg s := inputTokens_congr rfl hold
      refine ⟨hcar.stocked, fun x hx => ?_, ?_, ?_, fun hd => h.chunk (hdis ▸ hd), ?_⟩
      · rw [hold x hx]
        exact h.placed x hx
      · rw [hin]
        exact h.offset
      · rw [hin, havt, hav]
        exact h.room
      · refine h.truncated.imp (fun hw x hx => ?_) (And.imp_right fun hw x hx => ?_)
        · rw [hold x hx]
          exact hw x hx
        · rw [hold x (mem_of_mem_dropLast hx)]
          exact hw x hx
    · have hin : a'.inputTokens cfg t = a.inputTokens cfg s +
          ceilPagedTokens cfg.pageSize (t.heap id).extendInputLen := by
        have hsame : a.inputTokens cfg t = a.inputTokens cfg s := inputTokens_congr rfl hold
        rw [← hsame, inputTokens, hadm.canRunList]
        simp [inputTokens]
      have hwhole : ∀ x ∈ a.canRunList, (t.heap x).fillIds = (t.heap x).tokens := by
        rcases h.truncated with hw | ⟨⟨n, hsome, hlt⟩, -⟩
        · intro x hx
          rw [hold x hx]
          exact hw x hx
        · exact absurd (hn n hsome (hext hne)) (not_le.mpr hlt)
      refine ⟨hcar.stocked, fun x hx => ?_, ?_, ?_, fun hd => hadm.chunk (h.chunk (hdis ▸ hd)), ?_⟩
      · rw [hadm.canRunList, mem_append, mem_singleton] at hx
        rcases hx with hx | rfl
        · rw [hold x hx]
          exact h.placed x hx
        · exact hadm.placed
      · rw [hin, Nat.cast_add]
        exact (add_le_add_left h.offset _).trans hadm.offset
      · have hle : ((a.inputTokens cfg s + (t.heap id).extendInputLen : ℕ) : ℤ) ≤
            t.memory.availableAndEvictable := by
          have h1 := h.offset
          have h2 : (((t.heap id).extendInputLen : ℕ) : ℚ) ≤ (u.heap id).extendInputLen :=
            Nat.cast_le.mpr hadm.extendInputLen
          rw [← Int.cast_le (R := ℚ)]
          push_cast
          linarith
        rw [hin]
        exact add_ceilPagedTokens_le hps dvd_inputTokens hcar.stocked.dvd_availableAndEvictable hle
      · rw [hadm.canRunList]
        rcases hadm.truncated with hw | hcut
        · refine .inl fun x hx => ?_
          rw [mem_append, mem_singleton] at hx
          rcases hx with hx | rfl
          · exact hwhole x hx
          · exact hw
        · refine .inr ⟨hcut, fun x hx => ?_⟩
          rw [dropLast_concat] at hx
          exact hwhole x hx
  · intro x hx
    rcases hdec with ⟨-, ⟨states, rfl⟩, -⟩ | ⟨hadm, -⟩
    · exact .inr hx
    · rw [hadm.canRunList, mem_append, mem_singleton] at hx
      exact hx.symm

theorem Budgeted.addReqs (halign : env.truncationAlignSize = none) {ids : List ℕ}
    (h : Budgeted cfg a s) (hnd : ids.Nodup) (hids : ∀ id ∈ ids, id ∉ a.canRunList)
    (hne : ∀ id ∈ ids, (s.heap id).tokens ≠ []) :
    Budgeted cfg (a.addReqs cfg env s ids).1 (a.addReqs cfg env s ids).2 := by
  induction ids generalizing a s with
  | nil => exact h
  | cons id ids ih =>
    obtain ⟨hid, hnd⟩ := nodup_cons.mp hnd
    obtain ⟨e, a', t, heq, hb, hheap, hmem⟩ :=
      h.offer env (hids id mem_cons_self) (hne id mem_cons_self) halign
    have hcont := ih hb hnd (fun x hx hxa => (hmem x hxa).elim (fun hxid => hid (hxid ▸ hx))
        (hids x (mem_cons_of_mem _ hx)))
      (fun x hx => by
        rw [hheap x fun hxid => hid (hxid ▸ hx)]
        exact hne x (mem_cons_of_mem _ hx))
    rw [PrefillAdder.addReqs, heq]
    cases e with
    | continueAdding => exact hcont
    | noToken => exact hb
    | other => exact hb

theorem budgeted_create (h : s.memory.Stocked cfg) {running : List ℕ}
    (hrun : ∀ id ∈ running, (s.heap id).outputIds.length ≤ (env.params id).maxNewTokens)
    {remChunkTokens : Option ℤ} (hchunk : s.memory.cache.disable → remChunkTokens = none)
    (remInputTokens : ℤ) (mixed : ℕ) :
    Budgeted cfg (create env s running remInputTokens remChunkTokens mixed) s where
  stocked := h
  placed := by simp [create]
  offset := by
    have hsum : 0 ≤ (running.map (runningRequestTotalTokenOffset env s)).sum := by
      refine sum_nonneg fun x hx => ?_
      obtain ⟨id, hid, rfl⟩ := mem_map.mp hx
      have hle : ((s.heap id).outputIds.length : ℚ) ≤ (env.params id).maxNewTokens :=
        Nat.cast_le.mpr (hrun id hid)
      exact mul_nonneg (le_min (by linarith) (Nat.cast_nonneg _)) env.newTokenRatio_nonneg
    simp only [inputTokens, create, map_nil, sum_nil, Nat.cast_zero]
    linarith
  room := by
    exact h.availableAndEvictable_nonneg
  chunk := by
    intro hd
    simp [create, hchunk hd]
  truncated := .inl (by simp [create])

end PrefillAdder

namespace PagedMemory

variable {m : PagedMemory η β}

def allocForExtend (cfg : RadixConfig η β) (m : PagedMemory η β) (pick : List (List Page) → ℕ)
    (reqs : List MemReq) : KVAllocator × Option (List ℕ) :=
  let numTokens := if cfg.pageSize = 1 then extendNumTokens reqs
    else extendNumTokens reqs + reqs.length * cfg.pageSize
  (m.evictFromTreeCache cfg pick numTokens).allocator.allocExtend (reqs.map (·.extendEntry))
    (extendNumTokens reqs)

theorem afterExtendAll_ne_outOfMemory {idxs : List ℕ} {reqs : List MemReq} (n : ℕ) :
    afterExtendAll idxs reqs ≠ .error (.outOfMemory n) ∧
      afterExtendAll idxs reqs ≠ .error (.prefillOutOfMemory n) := by
  induction reqs generalizing idxs with
  | nil => cases idxs <;> simp [afterExtendAll]
  | cons r reqs ih =>
    cases idxs with
    | nil => simp [afterExtendAll]
    | cons idx idxs =>
      have ih := @ih idxs
      rw [afterExtendAll, afterExtend]
      split_ifs
      · simp [bind, Except.bind]
      · simp [bind, Except.bind]
      · cases hrest : afterExtendAll idxs reqs with
        | error e =>
          rw [hrest] at ih
          simpa [bind, Except.bind] using ih
        | ok rs => simp [bind, Except.bind]

theorem prepareForExtend_ne_outOfMemory {pick : List (List Page) → ℕ} {reqs : List MemReq}
    (h : (m.allocForExtend cfg pick reqs).2 ≠ none) (n : ℕ) :
    m.prepareForExtend cfg pick reqs ≠ .error (.outOfMemory n) ∧
      m.prepareForExtend cfg pick reqs ≠ .error (.prefillOutOfMemory n) := by
  rw [prepareForExtend]
  split
  next e he =>
    rw [allocReqSlots] at he
    split_ifs at he <;> cases he <;> simp
  next idxs m' he =>
  obtain ⟨rows, rfl⟩ : ∃ rows, m' = { m with rows } := by
    rw [allocReqSlots] at he
    split_ifs at he
    cases he
    exact ⟨_, rfl⟩
  dsimp only
  rw [evictFromTreeCache_rows]
  split
  next heq => exact absurd (congrArg Prod.snd heq) h
  · have hafter := @afterExtendAll_ne_outOfMemory idxs reqs n
    split
    next e he =>
      rw [he] at hafter
      simpa using hafter
    · simp

end PagedMemory

section Allocation

variable {a : PrefillAdder} {s : ServingState η β}

open PrefillAdder (ceilPagedTokens)

theorem MemReq.Placed.numNewPages {r : MemReq} (h : r.Placed cfg) (hps : 0 < cfg.pageSize) :
    r.extendEntry.numNewPages cfg.pageSize = pageCount cfg.pageSize r.extendInputLen := by
  obtain ⟨k, hk⟩ := h.aligned
  rw [ExtendEntry.numNewPages, MemReq.extendEntry, h.fill, hk, Nat.mul_comm, Nat.add_comm,
    pageCount_add_mul hps, pageCount_mul hps, Nat.add_sub_cancel]

theorem newPages_canRunList {ids : List ℕ} (hps : 0 < cfg.pageSize)
    (h : ∀ id ∈ ids, (s.heap id).Placed cfg) :
    KVAllocator.newPages cfg.pageSize ((s.reqs ids).map (·.extendEntry)) * cfg.pageSize =
      (ids.map fun id => ceilPagedTokens cfg.pageSize (s.heap id).extendInputLen).sum := by
  rw [KVAllocator.newPages, ServingState.reqs, map_map, map_map, ← sum_map_mul_right]
  exact congrArg List.sum (map_congr_left fun id hid =>
    congrArg (· * cfg.pageSize) ((h id hid).numNewPages hps))

theorem sum_ceilPagedTokens_le {ids : List ℕ} (hps : 0 < cfg.pageSize)
    (h : ∀ id ∈ ids, (s.heap id).Placed cfg) :
    (ids.map fun id => ceilPagedTokens cfg.pageSize (s.heap id).extendInputLen).sum ≤
      if cfg.pageSize = 1 then PagedMemory.extendNumTokens (s.reqs ids)
      else PagedMemory.extendNumTokens (s.reqs ids) + (s.reqs ids).length * cfg.pageSize := by
  induction ids with
  | nil => simp
  | cons id ids ih =>
    have ih := ih fun x hx => h x (mem_cons_of_mem _ hx)
    have hfill := (h id mem_cons_self).fill
    have hceil := pageCount_mul_lt hps (s.heap id).extendInputLen
    have hext : PagedMemory.extendNumTokens (s.reqs (id :: ids)) =
        (s.heap id).extendInputLen + PagedMemory.extendNumTokens (s.reqs ids) := by
      simp [PagedMemory.extendNumTokens, ServingState.reqs, hfill]
    rw [map_cons, sum_cons, hext]
    split_ifs at ih ⊢ with h1
    · rw [ceilPagedTokens, h1, pageCount_one, Nat.mul_one]
      exact Nat.add_le_add_left (by rw [h1] at ih; exact ih) _
    · have hlen : (s.reqs (id :: ids)).length = (s.reqs ids).length + 1 := rfl
      rw [hlen, Nat.add_mul, ceilPagedTokens]
      omega

theorem PrefillAdder.Budgeted.allocForExtend (h : Budgeted cfg a s) (pick : List (List Page) → ℕ) :
    (s.memory.allocForExtend cfg pick (s.reqs a.canRunList)).2 ≠ none := by
  have hps := h.stocked.pageSize_pos
  set n := if cfg.pageSize = 1 then PagedMemory.extendNumTokens (s.reqs a.canRunList)
    else PagedMemory.extendNumTokens (s.reqs a.canRunList) +
      (s.reqs a.canRunList).length * cfg.pageSize with hn
  obtain ⟨⟨hwf, hpage⟩, hsupply⟩ := h.stocked.evictFromTreeCache pick n
  have hneed : a.inputTokens cfg s ≤ n := sum_ceilPagedTokens_le hps h.placed
  have hle : ∀ e ∈ (s.reqs a.canRunList).map (·.extendEntry), e.prefixLen ≤ e.seqLen := by
    intro e he
    obtain ⟨r, hr, rfl⟩ := mem_map.mp he
    obtain ⟨id, hid, rfl⟩ := mem_map.mp hr
    have := (h.placed id hid).fill
    simp only [MemReq.extendEntry]
    omega
  have hsum : PagedMemory.extendNumTokens (s.reqs a.canRunList) =
      (((s.reqs a.canRunList).map (·.extendEntry)).map fun e => e.seqLen - e.prefixLen).sum := by
    simp [PagedMemory.extendNumTokens, Function.comp_def, MemReq.extendEntry]
  obtain ⟨b, out, heq⟩ := KVAllocator.allocExtend_isSome hwf hle hsum (by
    rw [hpage, newPages_canRunList hps h.placed]
    have hroom := h.room
    rw [PrefillAdder.inputTokens] at hroom hneed
    omega)
  rw [PagedMemory.allocForExtend, ← hn, heq]
  simp

end Allocation

namespace ServingState

variable {env : AdderConfig} {s : ServingState η β}

/-- A server with a radix cache, on or off, that has not served anything yet. -/
def StartedRadix (cfg : RadixConfig η β) (s : ServingState η β) : Prop :=
  0 < cfg.pageSize ∧ ∃ size numRows needSort disable,
    s = create cfg size numRows needSort (.radixCache disable (RadixCache.reset cfg {}))

/-- Prefix caching is on and every page has an owner, or it is off. -/
def Supplied (cfg : RadixConfig η β) (s : ServingState η β) : Prop :=
  (∃ N, s.Settled cfg N) ∨ (s.Consistent cfg ∧ s.memory.Uncached true)

theorem stocked_of_reachable (h : Reachable (step cfg) (StartedRadix cfg)
    (fun s op => s.Allowed cfg (PageSafe cfg) op ∧ PlainPages cfg op) s) :
    s.memory.Stocked cfg := by
  have hinv : s.Supplied cfg := by
    refine h.invariant ?_ fun s op t hs hop hstep => ?_
    · rintro s ⟨hps, size, numRows, needSort, disable, rfl⟩
      cases disable with
      | false => exact .inl ⟨_, settled_createCaching hps size numRows needSort⟩
      | true =>
        refine .inr ⟨started_consistent ⟨hps, size, numRows, needSort, _, by simp [startCaches], rfl⟩,
          ⟨_, rfl⟩, ?_⟩
        exact KVAllocator.isNotInFreeGroup_create
    · rcases hs with ⟨N, hs⟩ | ⟨hbase, hoff⟩
      · exact .inl ⟨N, hs.step hop.1 hop.2 hstep⟩
      · exact .inr ⟨hbase.step (hop.1.mono fun _ _ h => h.1) hop.2.encoderPages hstep,
          uncached_step hoff hop.1 hstep⟩
  rcases hinv with ⟨N, hs⟩ | ⟨hbase, hoff⟩
  · exact PagedMemory.stocked_of_settled hs
  · exact ⟨hbase.serves, hoff.group, .inl hoff.cache⟩

/-- In every state of a server with a radix cache whose rollbacks keep pages whole, for every
scheduling pass without an alignment of chunks that finds no running request beyond its
`max_new_tokens`: the batch of the admitted requests finds its KV slots, and only its last request
may be truncated. -/
theorem prefill_admission_allocates (h : Reachable (step cfg) (StartedRadix cfg)
      (fun s op => s.Allowed cfg (PageSafe cfg) op ∧ PlainPages cfg op) s)
    {running offered : List ℕ} {remInputTokens : ℤ} {remChunkTokens : Option ℤ} {mixed : ℕ}
    (hrun : ∀ id ∈ running, (s.heap id).outputIds.length ≤ (env.params id).maxNewTokens)
    (hchunk : s.memory.cache.disable → remChunkTokens = none)
    (halign : env.truncationAlignSize = none) (hnd : offered.Nodup)
    (hne : ∀ id ∈ offered, (s.heap id).tokens ≠ []) :
    let pass := (PrefillAdder.create env s running remInputTokens remChunkTokens mixed).addReqs
      cfg env s offered
    (∀ pick, (pass.2.memory.allocForExtend cfg pick (pass.2.reqs pass.1.canRunList)).2 ≠ none ∧
      ∀ n, pass.2.memory.prepareForExtend cfg pick (pass.2.reqs pass.1.canRunList) ≠
          .error (.outOfMemory n) ∧
        pass.2.memory.prepareForExtend cfg pick (pass.2.reqs pass.1.canRunList) ≠
          .error (.prefillOutOfMemory n)) ∧
      ∀ id ∈ pass.1.canRunList.dropLast, (pass.2.heap id).fillIds = (pass.2.heap id).tokens := by
  intro pass
  have hpass : PrefillAdder.Budgeted cfg pass.1 pass.2 :=
    (PrefillAdder.budgeted_create (stocked_of_reachable h) hrun hchunk remInputTokens mixed).addReqs
      halign hnd (by simp [PrefillAdder.create]) hne
  refine ⟨fun pick => ⟨hpass.allocForExtend pick,
    PagedMemory.prepareForExtend_ne_outOfMemory (hpass.allocForExtend pick)⟩, ?_⟩
  rcases hpass.truncated with hw | ⟨-, hw⟩
  · exact fun id hid => hw id (mem_of_mem_dropLast hid)
  · exact hw

instance (s : ServingState η β) (op : ResultOp) : Decidable (s.PageSafe cfg op) := by
  delta PageSafe
  induction op using ResultOp.casesOn <;> infer_instance

def fourNewTokens : AdderConfig where
  params _ := { maxNewTokens := 4 }
  newTokenRatio := 7 / 10
  newTokenRatio_nonneg := by norm_num

/-- A pass over two waiting requests, one with the prompt of the running request. -/
def sharedPromptPass (s : ServingState (List (List Token)) (List (List Token))) :
    PrefillAdder × ServingState (List (List Token)) (List (List Token)) :=
  (PrefillAdder.create fourNewTokens s [0] 100 (some 8) 0).addReqs (chainConfig 4) fourNewTokens s
    [1, 2]

/-- The shared prompt is admitted whole and the other request is cut to one page. -/
theorem prefill_admission_allocates_sharedPrompt :
    ∃ s, Reachable (step (chainConfig 4)) (StartedRadix (chainConfig 4))
        (fun s op => s.Allowed (chainConfig 4) (PageSafe (chainConfig 4)) op ∧
          PlainPages (chainConfig 4) op) s ∧
      (sharedPromptPass s).1.canRunList = [1, 2] ∧
      ((sharedPromptPass s).2.heap 2).fillIds = [21, 22, 23, 24] ∧
      ((sharedPromptPass s).2.heap 1).fillIds = ((sharedPromptPass s).2.heap 1).tokens ∧
      ∀ pick, ((sharedPromptPass s).2.memory.allocForExtend (chainConfig 4) pick
        ((sharedPromptPass s).2.reqs (sharedPromptPass s).1.canRunList)).2 ≠ none :=
  exists_reachable_imp (p := fun s => _ ∧ _ ∧ (s.heap 0).outputIds.length ≤ 4 ∧
      s.memory.cache.disable = false ∧ (s.heap 1).tokens ≠ [] ∧ (s.heap 2).tokens ≠ [])
    ⟨by decide, 40, 4, false, false, rfl⟩
    [.receive { originInputIds := [1, 2, 3, 4, 5, 6, 7, 8, 9, 10] },
      .receive { originInputIds := [1, 2, 3, 4, 5, 6, 7, 8, 9, 10] },
      .receive { originInputIds := [21, 22, 23, 24, 25, 26, 27, 28, 29] }, .admitReq 0 none,
      .extend [0] fun _ => 0, .results false [.sample 0 11, .cacheUnfinished 0]] (by decide +kernel)
    fun s hs ⟨hcan, hcut, hout, hdis, hne⟩ =>
      have ⟨halloc, hwhole⟩ := @prefill_admission_allocates _ _ (chainConfig 4) fourNewTokens s hs
        [0] [1, 2] 100 (some 8) 0 (by simpa [fourNewTokens] using hout) (by simp [hdis]) rfl
        (by decide) (by simpa using hne)
      ⟨hcan, hcut, hwhole 1 (by rw [← sharedPromptPass, hcan]; simp), fun pick => (halloc pick).1⟩

/-- One more token for request `0`, none for the others. -/
def noNewTokens : AdderConfig where
  params id := { maxNewTokens := if id = 0 then 2 else 0 }
  newTokenRatio := 7 / 10
  newTokenRatio_nonneg := by norm_num

def noNewTokensPass (s : ServingState (List (List Token)) (List (List Token))) :
    PrefillAdder × ServingState (List (List Token)) (List (List Token)) :=
  (PrefillAdder.create noNewTokens s [0, 1, 2, 3] 100 none 0).addReqs (chainConfig 1) noNewTokens s
    [4]

/-- Three requests with `max_new_tokens = 0` have finished during the decode step that ran ahead and
are still in the running batch. Each has one output token too many and lowers the offset, so a prompt
of eight tokens is admitted where seven are left. -/
theorem prefill_admission_out_of_memory :
    ∃ s, Reachable (step (chainConfig 1)) (StartedRadix (chainConfig 1))
        (fun s op => s.Allowed (chainConfig 1) (PageSafe (chainConfig 1)) op ∧
          PlainPages (chainConfig 1) op) s ∧
      (noNewTokensPass s).1.canRunList = [4] ∧
      ((noNewTokensPass s).2.memory.allocForExtend (chainConfig 1) (fun _ => 0)
        ((noNewTokensPass s).2.reqs (noNewTokensPass s).1.canRunList)).2 = none :=
  exists_reachable ⟨by decide, 16, 5, false, false, rfl⟩
    [.receive { originInputIds := [1, 2, 3, 4, 5, 6, 7, 8] }, .receive { originInputIds := [11] },
      .receive { originInputIds := [12] }, .receive { originInputIds := [13] },
      .admitReq 0 none, .admitReq 1 none, .admitReq 2 none, .admitReq 3 none,
      .extend [0, 1, 2, 3] fun _ => 0, .decode [0, 1, 2, 3] fun _ => 0,
      .results false [.sample 0 9, .cacheUnfinished 0, .sample 1 21, .finish 1 true,
        .sample 2 22, .finish 2 true, .sample 3 23, .finish 3 true],
      .receive { originInputIds := [31, 32, 33, 34, 35, 36, 37, 38] }] (by decide +kernel)

end ServingState

end LLM42
