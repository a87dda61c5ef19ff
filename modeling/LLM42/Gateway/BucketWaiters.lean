import LLM42.Gateway.ConcurrencyLimit

/-! # Tasks that wait for tokens

`acquire` looks into the bucket and creates its `notified()` future in two steps, and
`notify_waiters` reaches only the futures that exist already. A future knows how often
`notify_waiters` had been called when it was created, and is woken once the count has moved on. -/

namespace LLM42.Gateway

open Library

structure Waiters where
  bucket : TokenBucket
  /-- calls of `notify_waiters` so far -/
  notifyCalls : Nat
  now : Nat

/-- Where a task is in `acquire` or in `return_tokens`. -/
inductive BucketTask
  | idle
  | missed (tokens : ℚ≥0)
  | notified (tokens : ℚ≥0) (calls : Nat)
  | returned
  deriving DecidableEq

inductive BucketAction
  | acquire (tokens : ℚ≥0)
  | createNotified
  | wake
  | returnTokens (tokens : ℚ≥0)
  | notifyWaiters

def Waiters.tryAcquire (m : Waiters) (tokens : ℚ≥0) : Waiters × BucketTask :=
  let r := m.bucket.tryAcquire tokens m.now
  ({ m with bucket := r.2 }, if r.1 then .idle else .missed tokens)

def waitersAct (m : Waiters) :
    BucketTask → BucketAction → Except LimitMisuse (Waiters × BucketTask)
  | .idle, .acquire tokens => .ok (m.tryAcquire tokens)
  | .missed tokens, .createNotified => .ok (m, .notified tokens m.notifyCalls)
  | .notified tokens calls, .wake =>
    if calls < m.notifyCalls then .ok (m.tryAcquire tokens) else .error .disabled
  | .idle, .returnTokens tokens =>
    .ok ({ m with bucket := m.bucket.returnTokens tokens }, .returned)
  | .returned, .notifyWaiters => .ok ({ m with notifyCalls := m.notifyCalls + 1 }, .idle)
  | _, _ => .error .disabled

def waitersProgram : Program Waiters BucketTask BucketAction Nat LimitMisuse where
  act := waitersAct
  env m elapsed := .ok { m with now := m.now + elapsed }

def WaitersStart (capacity : Nat) (w : Pool Waiters BucketTask) : Prop :=
  ∃ n now, w = ⟨⟨.new capacity 0 now, 0, now⟩, List.replicate n .idle⟩

/-- The task waits for tokens that are there, and nothing has woken it. -/
def BucketTask.asleep (m : Waiters) : BucketTask → Bool
  | .notified tokens calls => decide (m.notifyCalls ≤ calls ∧ tokens ≤ m.bucket.tokens)
  | _ => false

/-- A task is asleep and no other is about to call `notify_waiters`. -/
def LeftAsleep (w : Pool Waiters BucketTask) : Prop :=
  .returned ∉ w.threads ∧ ∃ p ∈ w.threads, p.asleep w.shared
  deriving Decidable

/-- The bucket has nothing for a task that found too few tokens and has no future yet. -/
def BucketTask.misses (b : TokenBucket) : BucketTask → Bool
  | .missed tokens => decide (b.tokens < tokens)
  | _ => true

/-- No return of tokens falls between the look into the bucket and the future of a task that could
take them. -/
def ReturnsSeen (w : Pool Waiters BucketTask) : Move BucketAction Nat → Prop
  | .thread _ (.returnTokens tokens) =>
    ∀ p ∈ w.threads, p.misses (w.shared.bucket.returnTokens tokens)
  | _ => True

instance (w : Pool Waiters BucketTask) (e : Move BucketAction Nat) :
    Decidable (ReturnsSeen w e) := by
  unfold ReturnsSeen
  split <;> infer_instance

/-- What holds of a task while no wake-up is lost. -/
def BucketTask.Watched (m : Waiters) (notifying : Prop) : BucketTask → Prop
  | .missed tokens => m.bucket.tokens < tokens
  | .notified tokens calls =>
    calls ≤ m.notifyCalls ∧ (calls = m.notifyCalls → m.bucket.tokens < tokens ∨ notifying)
  | _ => True

structure AllWatched (w : Pool Waiters BucketTask) : Prop where
  rate : w.shared.bucket.refillRate = 0
  tasks : ∀ p ∈ w.threads, p.Watched w.shared (.returned ∈ w.threads)

section Step

variable {w w' : Pool Waiters BucketTask} {m : Waiters} {p p' : BucketTask} {i : Nat}
  {a : BucketAction} {tokens : ℚ≥0}

theorem BucketTask.Watched.mono {m m' : Waiters} {notifying notifying' : Prop}
    (h : p.Watched m notifying) (htokens : m'.bucket.tokens ≤ m.bucket.tokens)
    (hcalls : m'.notifyCalls = m.notifyCalls) (hn : notifying → notifying') :
    p.Watched m' notifying' := by
  cases p with
  | missed tokens => exact htokens.trans_lt h
  | notified tokens calls =>
    obtain ⟨hle, heq⟩ := h
    exact ⟨hcalls ▸ hle, fun hc => (heq (hcalls ▸ hc)).imp htokens.trans_lt hn⟩
  | idle => trivial
  | returned => trivial

/-- A task that is not about to notify leaves the others about to do it. -/
theorem returned_mem_set (hi : w.threads[i]? = some p) (hp : p ≠ .returned)
    (h : .returned ∈ w.threads) : .returned ∈ w.threads.set i p' := by
  by_contra hnot
  exact forall_threads_of_set (Q := (· ≠ .returned)) hi hp
    (fun q hq heq => hnot (heq ▸ hq)) _ h rfl

theorem tryAcquire_watched (hrate : m.bucket.refillRate = 0) (tokens : ℚ≥0) (notifying : Prop) :
    (m.tryAcquire tokens).1.bucket.refillRate = 0 ∧
      (m.tryAcquire tokens).1.bucket.tokens ≤ m.bucket.tokens ∧
      (m.tryAcquire tokens).1.notifyCalls = m.notifyCalls ∧
      (m.tryAcquire tokens).2.Watched (m.tryAcquire tokens).1 notifying := by
  have hrefill : (m.bucket.refill m.now).tokens ≤ m.bucket.tokens := by
    simp [TokenBucket.refill, hrate]
  by_cases hle : (tokens : ℚ) ≤ (m.bucket.refill m.now).tokens
  · simp only [Waiters.tryAcquire, TokenBucket.tryAcquire, if_pos hle, if_true]
    exact ⟨hrate, (sub_le_self _ tokens.2).trans hrefill, trivial, trivial⟩
  · simp only [Waiters.tryAcquire, TokenBucket.tryAcquire, if_neg hle, Bool.false_eq_true, if_false]
    exact ⟨hrate, hrefill, trivial, not_le.mp hle⟩

variable (h : AllWatched w)
include h

theorem AllWatched.acquired (hi : w.threads[i]? = some p) (hp : p ≠ .returned) :
    AllWatched ⟨(w.shared.tryAcquire tokens).1,
      w.threads.set i (w.shared.tryAcquire tokens).2⟩ := by
  obtain ⟨hrate, htokens, hcalls, hnew⟩ := tryAcquire_watched h.rate tokens
    (.returned ∈ w.threads.set i (w.shared.tryAcquire tokens).2)
  refine ⟨hrate, forall_threads_set hnew fun j q _ hj => ?_⟩
  exact (h.tasks q (List.mem_of_getElem? hj)).mono htokens hcalls (returned_mem_set hi hp)

theorem AllWatched.act (hi : w.threads[i]? = some p) (hseen : ReturnsSeen w (.thread i a))
    (hact : waitersAct w.shared p a = .ok (m, p')) : AllWatched ⟨m, w.threads.set i p'⟩ := by
  have hold : ∀ (j : Nat) (q : BucketTask), w.threads[j]? = some q →
      q.Watched w.shared (.returned ∈ w.threads) :=
    fun j q hj => h.tasks q (List.mem_of_getElem? hj)
  unfold waitersAct at hact
  split at hact
  next =>
    cases hact
    exact h.acquired hi nofun
  next tokens =>
    cases hact
    refine ⟨h.rate, forall_threads_set ⟨le_rfl, fun _ => .inl (hold i _ hi)⟩ fun j q _ hj => ?_⟩
    exact (hold j q hj).mono le_rfl rfl (returned_mem_set hi nofun)
  next =>
    split at hact
    · cases hact
      exact h.acquired hi nofun
    · cases hact
  next =>
    cases hact
    -- whoever has a future will be woken by the call to come
    refine ⟨h.rate, forall_threads_set trivial fun j q _ hj => ?_⟩
    have hq := hold j q hj
    have hmiss := hseen q (List.mem_of_getElem? hj)
    cases q with
    | missed tokens =>
      have hlt := of_decide_eq_true hmiss
      exact hlt
    | notified tokens calls => exact ⟨hq.1, fun _ => .inr (mem_threads_set hi)⟩
    | idle => trivial
    | returned => trivial
  next =>
    cases hact
    refine ⟨h.rate, forall_threads_set trivial fun j q _ hj => ?_⟩
    have hq := hold j q hj
    cases q with
    | notified tokens calls =>
      exact ⟨hq.1.trans (Nat.le_succ _), fun hc => absurd (hc ▸ hq.1) (Nat.not_succ_le_self _)⟩
    | missed tokens => exact hq
    | idle => trivial
    | returned => trivial
  next => cases hact

theorem AllWatched.step {e : Move BucketAction Nat} (hseen : ReturnsSeen w e)
    (he : waitersProgram.step w e = .ok w') : AllWatched w' := by
  cases e with
  | environment elapsed =>
    obtain ⟨m, hm, rfl⟩ := Program.step_environment he
    cases hm
    exact ⟨h.rate, fun q hq => (h.tasks q hq).mono le_rfl rfl id⟩
  | thread i a =>
    rcases Program.step_thread he with rfl | ⟨p, m, p', hi, hact, rfl⟩
    · exact h
    · exact h.act hi hseen hact

end Step

/-- Where no return is missed between the two steps of `acquire`, no task sleeps on tokens that are
in the bucket. -/
theorem Waiters.not_leftAsleep {capacity : Nat} {w : Pool Waiters BucketTask}
    (h : Reachable waitersProgram.step (WaitersStart capacity) ReturnsSeen w) : ¬ LeftAsleep w := by
  have hinv : AllWatched w := by
    refine h.invariant ?_ fun _ _ _ hw hseen he => hw.step hseen he
    rintro _ ⟨n, now, rfl⟩
    refine ⟨Nat.cast_zero, fun p hp => ?_⟩
    rw [List.eq_of_mem_replicate hp]
    trivial
  rintro ⟨hquiet, p, hp, hasleep⟩
  have hwatched := hinv.tasks p hp
  cases p with
  | notified tokens calls =>
    obtain ⟨hcalls, htokens⟩ := of_decide_eq_true hasleep
    rcases hwatched.2 (hwatched.1.antisymm hcalls) with hlt | hret
    · exact absurd htokens (not_le.mpr hlt)
    · exact hquiet hret
  | idle => cases hasleep
  | missed tokens => cases hasleep
  | returned => cases hasleep

def twoTasks : Pool Waiters BucketTask := ⟨⟨.new 1 0 0, 0, 0⟩, List.replicate 2 .idle⟩

theorem Waiters.not_leftAsleep_twoTasks :
    ∃ w, Reachable waitersProgram.step (WaitersStart 1) ReturnsSeen w ∧
      w.threads = [.returned, .notified 1 0] ∧ ¬ LeftAsleep w :=
  exists_reachable_imp (s := twoTasks) ⟨2, 0, rfl⟩
    [.thread 0 (.acquire 1), .thread 1 (.acquire 1), .thread 1 .createNotified,
      .thread 0 (.returnTokens 1)] (by decide +kernel)
    fun _ hreach hthreads => ⟨hthreads, Waiters.not_leftAsleep hreach⟩

/-- The token comes back after the second task has looked and before its future exists. -/
theorem Waiters.wakeup_lost :
    ∃ w, Reachable waitersProgram.step (WaitersStart 1) (fun _ _ => True) w ∧ LeftAsleep w :=
  exists_reachable (s := twoTasks) ⟨2, 0, rfl⟩
    [.thread 0 (.acquire 1), .thread 1 (.acquire 1), .thread 0 (.returnTokens 1),
      .thread 0 .notifyWaiters, .thread 1 .createNotified] (by decide +kernel)

end LLM42.Gateway
