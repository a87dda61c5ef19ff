import LLM42.Serving.PrefillAdder
import Mathlib.Tactic.Linarith

/-! # Admission of requests that ignore the end token

`add_one_req_ignore_eos` simulates the requests at hand in the order of the tokens they have left.
Its answer depends on the set of states only, as long as they are sorted. -/

namespace LLM42.PrefillAdder

open List Library
open RadixState (chainConfig)

def InOrder (states : List (ℚ × ℕ)) : Prop := states.Pairwise (·.1 ≤ ·.1)
deriving Decidable

/-- The tokens do not last until every request with less than `t` tokens left is done and the others
have `t` more. -/
def Short (rem : ℚ) (states : List (ℚ × ℕ)) (t : ℚ) : Prop :=
  rem + ((states.filter (·.1 < t)).map fun x => (x.2 : ℚ)).sum ≤ (t + 1) * states.countP (t ≤ ·.1)

variable {rem freed t : ℚ} {states states' : List (ℚ × ℕ)} {x : ℚ × ℕ}

theorem short_of_le (h : ∀ y ∈ states, t ≤ y.1) :
    Short rem states t ↔ rem ≤ (t + 1) * states.length := by
  have hnone : states.filter (·.1 < t) = [] :=
    filter_eq_nil_iff.mpr fun y hy => by simpa using h y hy
  have hall : states.countP (t ≤ ·.1) = states.length :=
    countP_eq_length.mpr fun y hy => by simpa using h y hy
  rw [Short, hnone, hall, map_nil, sum_nil, add_zero]

theorem short_cons_of_lt (h : x.1 < t) :
    Short rem (x :: states) t ↔ Short (rem + x.2) states t := by
  rw [Short, Short, filter_cons_of_pos (by simpa using h), countP_cons_of_neg (by simpa using h),
    map_cons, sum_cons, add_assoc]

theorem runsOut_iff (hsorted : InOrder states) (hpos : ∀ y ∈ states, 0 < y.1) :
    runsOut rem freed states ↔ ∃ y ∈ states, Short (rem + freed) states y.1 := by
  induction states generalizing freed with
  | nil => simp [runsOut]
  | cons x states ih =>
    obtain ⟨hx, hrest⟩ := pairwise_cons.mp hsorted
    have hx0 := hpos x mem_cons_self
    have hhead : Short (rem + freed) (x :: states) x.1 ↔
        rem + freed - x.1 * (states.length + 1) ≤ states.length + 1 := by
      rw [short_of_le (by simpa using hx), length_cons, sub_le_iff_le_add']
      push_cast
      rw [add_one_mul]
    rw [runsOut]
    split
    next hout => exact iff_of_true rfl ⟨x, mem_cons_self, hhead.mpr hout⟩
    next hout =>
    rw [ih hrest fun y hy => hpos y (mem_cons_of_mem _ hy), ← add_assoc]
    have htail : ∀ y ∈ states, Short (rem + freed + x.2) states y.1 ↔
        Short (rem + freed) (x :: states) y.1 := by
      intro y hy
      rcases (hx y hy).eq_or_lt with heq | hlt
      · -- a request that is done together with the first one needs no more than that one
        rw [← heq, hhead, short_of_le hx]
        refine iff_of_false (fun hle => hout ?_) hout
        have hocc : (0 : ℚ) ≤ x.2 := Nat.cast_nonneg _
        linarith
      · exact (short_cons_of_lt hlt).symm
    constructor
    · rintro ⟨y, hy, hshort⟩
      exact ⟨y, mem_cons_of_mem _ hy, (htail y hy).mp hshort⟩
    · rintro ⟨y, hy, hshort⟩
      rcases mem_cons.mp hy with rfl | hy
      · exact absurd (hhead.mp hshort) hout
      · exact ⟨y, hy, (htail y hy).mpr hshort⟩

/-- Requests that are done at the same time may stand in any order. -/
theorem runsOut_perm (hsorted : InOrder states) (hsorted' : InOrder states')
    (hpos : ∀ y ∈ states, 0 < y.1) (hperm : states'.Perm states) :
    runsOut rem freed states' = runsOut rem freed states := by
  rw [Bool.eq_iff_iff, runsOut_iff hsorted hpos,
    runsOut_iff hsorted' fun y hy => hpos y (hperm.mem_iff.mp hy)]
  simp only [Short, hperm.mem_iff, hperm.countP_eq, ((hperm.filter _).map _).sum_eq]

variable {η β : Type*} (env : AdderConfig) (s : ServingState η β) (id : ℕ)

def reqState : ℚ × ℕ :=
  ((env.params id).maxNewTokens * (if (env.params id).ignoreEos then 1 else env.newTokenRatio) -
    (s.heap id).outputIds.length, (s.heap id).originInputIds.length + (s.heap id).outputIds.length)

/-- What `add_req_state` adds to `req_states`, one way or the other. -/
theorem addReqState_eq (insertSort : Bool) (states : List (ℚ × ℕ)) :
    addReqState env s insertSort states id = if (reqState env s id).1 ≤ 0 then states
      else if insertSort then states.insertIdx
        ((states.findIdx? fun x => (reqState env s id).1 ≤ x.1).getD (states.length - 1))
        (reqState env s id)
      else states ++ [reqState env s id] := rfl

variable {env s id}

theorem pos_addReqState {insertSort : Bool} (h : ∀ y ∈ states, 0 < y.1) :
    ∀ y ∈ addReqState env s insertSort states id, 0 < y.1 := by
  rw [addReqState_eq]
  intro y hy
  split at hy
  · exact h y hy
  next hleft =>
  have hself : 0 < (reqState env s id).1 := not_le.mp hleft
  split at hy
  · rcases eq_or_mem_of_mem_insertIdx hy with rfl | hy
    · exact hself
    · exact h y hy
  · rcases mem_append.mp hy with hy | hy
    · exact h y hy
    · rwa [mem_singleton.mp hy]

/-- The scan for the insertion point ends at the last index, not after it, so a state above all the
others is put before the last one. -/
theorem inOrder_insertIdx_iff (hsorted : InOrder states) :
    InOrder (states.insertIdx ((states.findIdx? fun y => x.1 ≤ y.1).getD (states.length - 1)) x) ↔
      states = [] ∨ ∃ y ∈ states, x.1 ≤ y.1 := by
  induction states with
  | nil => simp [InOrder]
  | cons y states ih =>
    obtain ⟨hy, hrest⟩ := pairwise_cons.mp hsorted
    by_cases hxy : x.1 ≤ y.1
    · refine iff_of_true ?_ (.inr ⟨y, mem_cons_self, hxy⟩)
      rw [findIdx?_cons, if_pos (decide_eq_true hxy), Option.getD_some, insertIdx_zero]
      exact pairwise_cons.mpr ⟨forall_mem_cons.mpr ⟨hxy, fun z hz => hxy.trans (hy z hz)⟩, hsorted⟩
    rw [findIdx?_cons, if_neg (by simpa using hxy)]
    rcases eq_or_ne states [] with rfl | hne
    · simp [InOrder]
    have hidx : ((states.findIdx? fun y => x.1 ≤ y.1).map (· + 1)).getD ((y :: states).length - 1) =
        (states.findIdx? fun y => x.1 ≤ y.1).getD (states.length - 1) + 1 := by
      have := length_pos_iff.mpr hne
      cases states.findIdx? fun y => x.1 ≤ y.1 <;> grind
    have hhead : ∀ i, ∀ z ∈ states.insertIdx i x, y.1 ≤ z.1 := by
      intro i z hz
      rcases eq_or_mem_of_mem_insertIdx hz with rfl | hz
      · exact (not_le.mp hxy).le
      · exact hy z hz
    rw [hidx, insertIdx_succ_cons, InOrder, pairwise_cons, and_iff_right (hhead _), ← InOrder,
      ih hrest]
    simp [hne, hxy]

variable (env) in
/-- The request offered is the first one, or has no more tokens left than some request before it. -/
def InsertsInOrder (a : PrefillAdder) (call : ServingState η β × ℕ) : Prop :=
  ∀ states ∈ a.reqStates, 0 < (reqState env call.1 call.2).1 →
    states = [] ∨ ∃ y ∈ states, (reqState env call.1 call.2).1 ≤ y.1

/-- The states are sorted, of requests that are not done. -/
def Simulated (states : List (ℚ × ℕ)) : Prop := InOrder states ∧ ∀ y ∈ states, 0 < y.1

variable {a : PrefillAdder} {call : ServingState η β × ℕ}

theorem pos_nextReqStates (h : ∀ states ∈ a.reqStates, Simulated states) :
    ∀ y ∈ a.nextReqStates env call.1 call.2, 0 < y.1 := by
  rw [nextReqStates]
  cases hstates : a.reqStates with
  | none =>
    intro y hy
    refine List.foldlRecOn (motive := fun states : List (ℚ × ℕ) => ∀ y ∈ states, 0 < y.1) _ _
      (by simp) (fun _ h _ _ => pos_addReqState h) y (mem_mergeSort.mp hy)
  | some states => exact pos_addReqState (h states hstates).2

theorem inOrder_nextReqStates_iff (h : ∀ states ∈ a.reqStates, Simulated states) :
    InOrder (a.nextReqStates env call.1 call.2) ↔ InsertsInOrder env a call := by
  rw [nextReqStates, InsertsInOrder]
  cases hstates : a.reqStates with
  | none =>
    refine iff_of_true ?_ (by simp)
    refine (pairwise_mergeSort ?_ ?_ _).imp (by simp)
    · simpa using fun a b c => le_trans
    · simpa using le_total
  | some states =>
    have hsorted := (h states hstates).1
    simp only [Option.mem_some_iff, forall_eq', addReqState_eq]
    split
    next hdone => exact iff_of_true hsorted fun hpos => absurd hdone hpos.not_ge
    next hleft =>
      rw [if_pos trivial, inOrder_insertIdx_iff hsorted, forall_prop_of_true (not_le.mp hleft)]

variable (cfg : RadixConfig η β) (env)

/-- One call of `add_one_req_ignore_eos`, in any state of the server. -/
def ignoreEosStep (a : PrefillAdder) (call : ServingState η β × ℕ) : Except Empty PrefillAdder :=
  .ok (a.addOneReqIgnoreEos cfg env call.1 call.2).2.1

theorem reqStates_addOneReqIgnoreEos (a : PrefillAdder) (s : ServingState η β) (id : ℕ) :
    (a.addOneReqIgnoreEos cfg env s id).2.1.reqStates = a.reqStates ∨
      (a.addOneReqIgnoreEos cfg env s id).2.1.reqStates = some (a.nextReqStates env s id) := by
  rw [addOneReqIgnoreEos]
  split
  · exact .inl rfl
  right
  dsimp only
  repeat' split
  all_goals rfl

variable {env cfg}

theorem simulated_of_reachable
    (h : Reachable (ignoreEosStep env cfg) (·.reqStates = none) (InsertsInOrder env) a) :
    ∀ states ∈ a.reqStates, Simulated states := by
  induction h with
  | init hstart => simp [hstart]
  | @next a _ call _ hcall hstep hinv =>
  cases hstep
  intro states hstates
  rcases reqStates_addOneReqIgnoreEos env cfg a call.1 call.2 with hsame | hnext
  · exact hinv states (hsame ▸ hstates)
  · rw [hnext] at hstates
    cases hstates
    exact ⟨(inOrder_nextReqStates_iff hinv).mpr hcall, pos_nextReqStates hinv⟩

/-- As long as every request offered has no more tokens left than some request before it, the states
are sorted exactly if that holds for the next one too, and then the decision is that of any other
sorting of the same states. -/
theorem ignore_eos_states_sorted_iff
    (h : Reachable (ignoreEosStep env cfg) (·.reqStates = none) (InsertsInOrder env) a)
    (call : ServingState η β × ℕ) :
    (InOrder (a.nextReqStates env call.1 call.2) ↔ InsertsInOrder env a call) ∧
      (InsertsInOrder env a call → ∀ states : List (ℚ × ℕ),
        states.Perm (a.nextReqStates env call.1 call.2) → InOrder states → ∀ curRemTokens : ℚ,
        runsOut curRemTokens 0 (a.nextReqStates env call.1 call.2) =
          runsOut curRemTokens 0 states) := by
  have hinv := simulated_of_reachable h
  have hiff : InOrder (a.nextReqStates env call.1 call.2) ↔ InsertsInOrder env a call :=
    inOrder_nextReqStates_iff hinv
  exact ⟨hiff, fun hcall states hperm hsorted _ =>
    (runsOut_perm (hiff.mpr hcall) hsorted (pos_nextReqStates hinv) hperm).symm⟩

/-- Request `1` has ten tokens left, the others five. -/
def tenTokensLeft : AdderConfig where
  params id := { maxNewTokens := if id = 1 then 10 else 5, ignoreEos := true }
  newTokenRatio := 1
  newTokenRatio_nonneg := zero_le_one

/-- Twenty-six free slots; request `0` has a prompt of ten tokens, the others of one. -/
def twentySixSlots : ServingState (List (List Token)) (List (List Token)) :=
  { ServingState.create (chainConfig 1) 26 4 false .chunkCache with
    heap id := { originInputIds := replicate (if id = 0 then 10 else 1) 7
                 extendInputLen := if id = 0 then 10 else 1 } }

def afterFirst : PrefillAdder :=
  ((PrefillAdder.create tenTokensLeft twentySixSlots [] 100 none 0).addOneReqIgnoreEos
    (chainConfig 1) tenTokensLeft twentySixSlots 0).2.1

theorem ignore_eos_states_sorted_second : afterFirst.canRunList = [0] ∧
    InOrder (afterFirst.nextReqStates tenTokensLeft twentySixSlots 2) := by
  have hfirst : InsertsInOrder tenTokensLeft (create tenTokensLeft twentySixSlots [] 100 none 0)
      (twentySixSlots, 0) := by simp [InsertsInOrder, create]
  have hreach : Reachable (ignoreEosStep tenTokensLeft (chainConfig 1)) (·.reqStates = none)
      (InsertsInOrder tenTokensLeft) afterFirst := .next (.init rfl) hfirst rfl
  have hsorted := ignore_eos_states_sorted_iff hreach (twentySixSlots, 2)
  have hone : afterFirst.reqStates = some [(5, 10)] := by decide +kernel
  refine ⟨by decide +kernel, hsorted.1.mpr fun states hstates _ => .inr ?_⟩
  cases hone.symm.trans hstates
  exact ⟨(5, 10), mem_cons_self, by decide +kernel⟩

/-- Request `1` is put before request `0`, and is rejected although the tokens last until both are
done. -/
theorem longer_request_rejected :
    ¬ InOrder (afterFirst.nextReqStates tenTokensLeft twentySixSlots 1) ∧
      (afterFirst.addOneReqIgnoreEos (chainConfig 1) tenTokensLeft twentySixSlots 1).1 = .noToken ∧
      ∃ states, states.Perm (afterFirst.nextReqStates tenTokensLeft twentySixSlots 1) ∧
        InOrder states ∧
        runsOut (afterFirst.curRemTokens twentySixSlots.memory - 1) 0 states = false := by
  refine ⟨?_, ?_, [(5, 10), (10, 1)], ?_, ?_, ?_⟩
  all_goals decide +kernel

end LLM42.PrefillAdder
