import LLM42.Library.Interleaving
import Mathlib.Algebra.Order.BigOperators.Group.List
import Mathlib.Tactic.Linarith

/-! # The concurrency limit of the gateway

A request takes a token from the bucket, either at once or through the queue processor and the
permit channel, and gives it back when the body of its response ends. Every request carries what
belongs to it: its future, and the sender of its permit channel, which travels through the queue to
the processor and on to a task that waits for a token. -/

namespace LLM42.Gateway

open Library

/-- Times are in nanoseconds, tokens per second. -/
structure TokenBucket where
  capacity : ℚ
  refillRate : ℚ
  tokens : ℚ
  lastRefill : Nat

namespace TokenBucket

def new (capacity refillRate now : Nat) : TokenBucket := ⟨capacity, refillRate, capacity, now⟩

def refill (b : TokenBucket) (now : Nat) : TokenBucket :=
  { b with
    tokens := min (b.tokens + ((now - b.lastRefill : Nat) : ℚ) / 10 ^ 9 * b.refillRate) b.capacity
    lastRefill := now }

def tryAcquire (b : TokenBucket) (tokens : ℚ) (now : Nat) : Bool × TokenBucket :=
  if tokens ≤ (b.refill now).tokens then
    (true, { b.refill now with tokens := (b.refill now).tokens - tokens })
  else (false, b.refill now)

def returnTokens (b : TokenBucket) (tokens : ℚ) : TokenBucket :=
  { b with tokens := min (b.tokens + tokens) b.capacity }

end TokenBucket

inductive StatusCode
  | tooManyRequests
  | requestTimeout
  deriving DecidableEq

/-- Where the sender of a permit channel is. -/
inductive PermitSender
  | queued (queuedAt : Nat)
  | received (queuedAt : Nat)
  | checked (remaining : Nat)
  | spawned (remaining : Nat)
  | parked (deadline : Nat)
  | granted (byProcessor : Bool)
  deriving DecidableEq

/-- How far a request has come. -/
inductive LimitPhase
  | arrived
  | refused
  | waiting (sender : PermitSender)
  | answered (result : Except StatusCode Unit)
  | handling
  | streaming
  | responded (status : Option StatusCode)
  | dropped
  | orphaned (sender : PermitSender)
  deriving DecidableEq

namespace LimitPhase

/-- The sender, whether the request still waits or not. -/
def sender? : LimitPhase → Option PermitSender
  | .waiting sender | .orphaned sender => some sender
  | _ => none

def pass (sender : PermitSender) : LimitPhase → LimitPhase
  | .waiting _ => .waiting sender
  | .orphaned _ => .orphaned sender
  | phase => phase

/-- `permit_tx.send`; without a receiver the result is gone. -/
def send (result : Except StatusCode Unit) : LimitPhase → LimitPhase
  | .waiting _ => .answered result
  | .orphaned _ => .dropped
  | phase => phase

def live : LimitPhase → Bool
  | .arrived | .refused | .waiting _ | .answered _ | .handling | .streaming => true
  | .responded _ | .dropped | .orphaned _ => false

/-- Permits that a live request holds or that are on their way to it. -/
def permits : LimitPhase → ℚ
  | .handling | .streaming | .waiting (.granted _) | .answered (.ok _) => 1
  | _ => 0

end LimitPhase

structure LimitRequest where
  id : Nat
  phase : LimitPhase
  deriving DecidableEq

structure LimitConfig where
  /-- no queue if zero -/
  queueSize : Nat
  queueTimeout : Nat

structure Limiter where
  bucket : TokenBucket
  queue : List Nat
  /-- the processor is at work on an entry it took from the queue -/
  processing : Bool
  now : Nat

inductive LimitAction
  -- the request's future and the body of its response
  | exceedGlobalLimit
  | tryAcquire
  | trySend
  | takeResult
  | respond
  | endBody
  | drop
  -- the queue processor
  | receive
  | check
  | acquire
  | send
  -- the task that waits for a token
  | start
  | wake
  | elapse
  deriving DecidableEq

inductive LimitMisuse
  | disabled
  deriving DecidableEq

namespace Limiter

/-- Try to take one token; what becomes of the phase in either case. -/
def take (m : Limiter) (got missed : LimitPhase) : Limiter × LimitPhase :=
  ({ m with bucket := (m.bucket.tryAcquire 1 m.now).2 },
    if (m.bucket.tryAcquire 1 m.now).1 then got else missed)

def middleware (cfg : LimitConfig) (m : Limiter) (r : LimitRequest) :
    LimitAction → Except LimitMisuse (Limiter × LimitPhase)
  | .exceedGlobalLimit => match r.phase with
    | .arrived => .ok (m, .responded (some .tooManyRequests))
    | _ => .error .disabled
  | .tryAcquire => match r.phase with
    | .arrived => .ok (m.take .handling .refused)
    | _ => .error .disabled
  | .trySend => match r.phase with
    | .refused =>
      if m.queue.length < cfg.queueSize then
        .ok ({ m with queue := m.queue ++ [r.id] }, .waiting (.queued m.now))
      else .ok (m, .responded (some .tooManyRequests))
    | _ => .error .disabled
  | .takeResult => match r.phase with
    | .answered (.ok _) => .ok (m, .handling)
    | .answered (.error status) => .ok (m, .responded (some status))
    | _ => .error .disabled
  | .respond => match r.phase with
    | .handling => .ok (m, .streaming)
    | _ => .error .disabled
  | .endBody => match r.phase with
    | .streaming => .ok ({ m with bucket := m.bucket.returnTokens 1 }, .responded none)
    | _ => .error .disabled
  | .drop => match r.phase with
    | .arrived | .answered _ | .handling => .ok (m, .dropped)
    | .waiting sender => .ok (m, .orphaned sender)
    | _ => .error .disabled
  | _ => .error .disabled

def processor (cfg : LimitConfig) (m : Limiter) (r : LimitRequest) (sender : PermitSender) :
    LimitAction → Except LimitMisuse (Limiter × LimitPhase)
  | .receive => match sender, m.queue with
    | .queued queuedAt, id :: rest =>
      if id = r.id ∧ m.processing = false then
        .ok ({ m with queue := rest, processing := true }, r.phase.pass (.received queuedAt))
      else .error .disabled
    | _, _ => .error .disabled
  | .check => match sender with
    | .received queuedAt =>
      if cfg.queueTimeout ≤ m.now - queuedAt then
        .ok ({ m with processing := false }, r.phase.send (.error .requestTimeout))
      else .ok (m, r.phase.pass (.checked (cfg.queueTimeout - (m.now - queuedAt))))
    | _ => .error .disabled
  | .acquire => match sender with
    | .checked remaining =>
      let taken := m.take (r.phase.pass (.granted true)) (r.phase.pass (.spawned remaining))
      .ok ({ taken.1 with processing := (m.bucket.tryAcquire 1 m.now).1 }, taken.2)
    | _ => .error .disabled
  | .send => match sender with
    | .granted byProcessor =>
      .ok ({ m with processing := !byProcessor && m.processing }, r.phase.send (.ok ()))
    | _ => .error .disabled
  | .start => match sender with
    | .spawned remaining =>
      .ok (m.take (r.phase.pass (.granted false)) (r.phase.pass (.parked (m.now + remaining))))
    | _ => .error .disabled
  | .wake => match sender with
    | .parked deadline =>
      .ok (m.take (r.phase.pass (.granted false)) (r.phase.pass (.parked deadline)))
    | _ => .error .disabled
  | .elapse => match sender with
    | .parked deadline =>
      if deadline ≤ m.now then .ok (m, r.phase.send (.error .requestTimeout))
      else .error .disabled
    | _ => .error .disabled
  | _ => .error .disabled

end Limiter

/-- The actions of the request's own future; the others belong to the processor and its tasks. -/
def LimitAction.own : LimitAction → Bool
  | .exceedGlobalLimit | .tryAcquire | .trySend | .takeResult | .respond | .endBody | .drop => true
  | _ => false

def limitAct (cfg : LimitConfig) (m : Limiter) (r : LimitRequest) (a : LimitAction) :
    Except LimitMisuse (Limiter × LimitPhase) :=
  if a.own then m.middleware cfg r a
  else match r.phase.sender? with
    | some sender => m.processor cfg r sender a
    | none => .error .disabled

def limitProgram (cfg : LimitConfig) :
    Program Limiter LimitRequest LimitAction Nat LimitMisuse where
  act m r a := match limitAct cfg m r a with
    | .ok (m', phase) => .ok (m', ⟨r.id, phase⟩)
    | .error x => .error x
  env m elapsed := .ok { m with now := m.now + elapsed }

/-- A full bucket without refill, and any number of requests to come. -/
def LimitStart (capacity : Nat) (w : Pool Limiter LimitRequest) : Prop :=
  ∃ n now, w.shared = ⟨.new capacity 0 now, [], false, now⟩ ∧
    w.threads = (List.range n).map fun id => ⟨id, .arrived⟩

/-- The steps after which nobody returns a token: the future is dropped while it runs the handler or
while its permit is on the way, or the processor or a task takes a token for a future that is gone. -/
def Loses (m : Limiter) (r : LimitRequest) : LimitAction → Bool
  | .drop => match r.phase with
    | .handling | .answered (.ok _) | .waiting (.granted _) => true
    | _ => false
  | .acquire | .start | .wake => match r.phase with
    | .orphaned _ => (m.bucket.tryAcquire 1 m.now).1
    | _ => false
  | _ => false

def Lossless (w : Pool Limiter LimitRequest) : Move LimitAction Nat → Prop
  | .thread i a => ∀ r ∈ w.threads[i]?, Loses w.shared r a = false
  | .environment _ => True

instance (w : Pool Limiter LimitRequest) (e : Move LimitAction Nat) : Decidable (Lossless w e) := by
  unfold Lossless
  split <;> infer_instance

def permitsHeld (w : Pool Limiter LimitRequest) : ℚ := (w.threads.map (·.phase.permits)).sum

/-! ## One step -/

/-- What is in the bucket, when it gets no tokens but those returned. -/
structure TokenBucket.Pure (b : TokenBucket) (capacity : ℚ) : Prop where
  rate : b.refillRate = 0
  capacity : b.capacity = capacity

namespace TokenBucket

variable {b : TokenBucket} {capacity : ℚ}

section

variable (h : b.Pure capacity)

include h

theorem Pure.refill_tokens (hle : b.tokens ≤ capacity) (now : Nat) :
    (b.refill now).tokens = b.tokens := by
  simp [refill, h.rate, h.capacity, hle]

theorem Pure.tryAcquire (tokens : ℚ) (now : Nat) : (b.tryAcquire tokens now).2.Pure capacity := by
  unfold TokenBucket.tryAcquire
  split <;> exact ⟨h.rate, h.capacity⟩

theorem Pure.tokens_tryAcquire (hle : b.tokens ≤ capacity) (now : Nat) :
    (b.tryAcquire 1 now).2.tokens + (if (b.tryAcquire 1 now).1 then 1 else 0) = b.tokens := by
  have hrefill := h.refill_tokens hle now
  unfold TokenBucket.tryAcquire
  split
  · simp [hrefill]
  · simp [hrefill]

end

end TokenBucket

section Balance

open LimitPhase (permits)

variable {cfg : LimitConfig} {m m' : Limiter} {r : LimitRequest} {a : LimitAction}
  {phase : LimitPhase} {capacity : ℚ}

theorem LimitPhase.permits_nonneg (p : LimitPhase) : 0 ≤ p.permits := by
  unfold permits
  split <;> norm_num

/-- Tokens in the bucket and permits of the request, before and after; a losing step loses one. -/
def Balanced (capacity : ℚ) (m : Limiter) (r : LimitRequest) (a : LimitAction)
    (after : Limiter × LimitPhase) : Prop :=
  after.1.bucket.Pure capacity ∧
    after.1.bucket.tokens + after.2.permits + (if Loses m r a then 1 else 0) =
      m.bucket.tokens + r.phase.permits

theorem Balanced.take {got missed : LimitPhase} (hb : m.bucket.Pure capacity)
    (hle : m.bucket.tokens ≤ capacity) (hr : r.phase.permits = 0) (hmissed : missed.permits = 0)
    (hgot : (m.bucket.tryAcquire 1 m.now).1 = true →
      got.permits + (if Loses m r a then 1 else 0) = 1)
    (hno : (m.bucket.tryAcquire 1 m.now).1 = false → Loses m r a = false) :
    Balanced capacity m r a (m.take got missed) := by
  refine ⟨hb.tryAcquire 1 m.now, ?_⟩
  rw [hr, add_zero, ← hb.tokens_tryAcquire hle m.now]
  cases hacq : (m.bucket.tryAcquire 1 m.now).1 with
  | true => simp [Limiter.take, hacq, add_assoc, hgot hacq]
  | false => simp [Limiter.take, hacq, hmissed, hno hacq]

theorem Limiter.middleware_balanced (hb : m.bucket.Pure capacity)
    (hle : m.bucket.tokens + r.phase.permits ≤ capacity)
    (h : m.middleware cfg r a = .ok (m', phase)) : Balanced capacity m r a (m', phase) := by
  have htokens : m.bucket.tokens ≤ capacity := by
    have := r.phase.permits_nonneg
    linarith
  obtain ⟨id, p⟩ := r
  -- in every other phase the action is not enabled
  cases a with
  | exceedGlobalLimit | respond =>
    cases p <;> cases h
    exact ⟨hb, by simp [permits, Loses]⟩
  | tryAcquire =>
    cases p <;> cases h
    exact .take hb htokens rfl rfl (fun _ => by simp [permits, Loses]) fun _ => rfl
  | trySend =>
    cases p with
    | refused =>
      simp only [Limiter.middleware] at h
      split at h <;> cases h <;> exact ⟨hb, by simp [permits, Loses]⟩
    | _ => cases h
  | takeResult =>
    cases p with
    | answered result =>
      cases result <;> cases h <;> exact ⟨hb, by simp [permits, Loses]⟩
    | _ => cases h
  | endBody =>
    cases p <;> cases h
    refine ⟨⟨hb.rate, hb.capacity⟩, ?_⟩
    have hle : m.bucket.tokens + 1 ≤ capacity := hle
    simp [TokenBucket.returnTokens, hb.capacity, hle, permits, Loses]
  | drop =>
    cases p with
    | arrived | handling =>
      cases h
      exact ⟨hb, by simp [permits, Loses]⟩
    | answered result =>
      cases h
      exact ⟨hb, by cases result <;> simp [permits, Loses]⟩
    | waiting sender =>
      cases h
      exact ⟨hb, by cases sender <;> simp [permits, Loses]⟩
    | _ => cases h
  | _ => cases h

def PermitSender.empty : PermitSender → Bool
  | .granted _ => false
  | _ => true

theorem LimitPhase.permits_of_empty {sender : PermitSender} {p : LimitPhase}
    (hp : p.sender? = some sender) (hs : sender.empty) :
    p.permits = 0 ∧ (∀ sender' : PermitSender, sender'.empty → (p.pass sender').permits = 0) ∧
      ∀ status, (p.send (.error status)).permits = 0 := by
  have hzero : ∀ s : PermitSender, s.empty →
      (waiting s).permits = 0 ∧ (orphaned s).permits = 0 := by
    intro s hs
    cases s with
    | granted => simp [PermitSender.empty] at hs
    | _ => exact ⟨rfl, rfl⟩
  cases p with
  | waiting s =>
    cases hp
    exact ⟨(hzero _ hs).1, fun _ hs' => (hzero _ hs').1, fun _ => rfl⟩
  | orphaned s =>
    cases hp
    exact ⟨(hzero _ hs).2, fun _ hs' => (hzero _ hs').2, fun _ => rfl⟩
  | _ => cases hp

theorem Balanced.grant {sender sender' : PermitSender} (byProcessor : Bool)
    (hb : m.bucket.Pure capacity) (hle : m.bucket.tokens ≤ capacity)
    (hp : r.phase.sender? = some sender) (hs : sender.empty) (hs' : sender'.empty)
    (ha : a = .acquire ∨ a = .start ∨ a = .wake) :
    Balanced capacity m r a
      (m.take (r.phase.pass (.granted byProcessor)) (r.phase.pass sender')) := by
  obtain ⟨hr, hpass, -⟩ := LimitPhase.permits_of_empty hp hs
  -- only an entry whose request is gone loses the token it gets
  have hloses : (∃ s, r.phase = .waiting s ∧ Loses m r a = false) ∨
      (∃ s, r.phase = .orphaned s ∧ Loses m r a = (m.bucket.tryAcquire 1 m.now).1) := by
    obtain ⟨id, p⟩ := r
    cases p with
    | waiting s => exact .inl ⟨s, rfl, by rcases ha with rfl | rfl | rfl <;> rfl⟩
    | orphaned s => exact .inr ⟨s, rfl, by rcases ha with rfl | rfl | rfl <;> rfl⟩
    | _ => cases hp
  refine .take hb hle hr (hpass sender' hs') (fun hacq => ?_) fun hacq => ?_
  · obtain ⟨s, hw, hl⟩ | ⟨s, ho, hl⟩ := hloses
    · simp [hw, hl, LimitPhase.pass, permits]
    · simp [ho, hl, hacq, LimitPhase.pass, permits]
  · obtain ⟨s, -, hl⟩ | ⟨s, -, hl⟩ := hloses
    · exact hl
    · exact hl.trans hacq

theorem Limiter.processor_balanced {sender : PermitSender} (hb : m.bucket.Pure capacity)
    (hle : m.bucket.tokens + r.phase.permits ≤ capacity) (hp : r.phase.sender? = some sender)
    (h : m.processor cfg r sender a = .ok (m', phase)) :
    Balanced capacity m r a (m', phase) := by
  have htokens : m.bucket.tokens ≤ capacity := by
    have := r.phase.permits_nonneg
    linarith
  cases a with
  | receive =>
    simp only [Limiter.processor] at h
    split at h
    · next queuedAt id rest _ =>
      obtain ⟨hr, hpass, -⟩ := LimitPhase.permits_of_empty hp rfl
      split at h <;> cases h
      exact ⟨hb, by simp [hr, hpass (.received queuedAt) rfl, Loses]⟩
    · cases h
  | check =>
    simp only [Limiter.processor] at h
    split at h
    · obtain ⟨hr, hpass, hsend⟩ := LimitPhase.permits_of_empty hp rfl
      split at h <;> cases h
      · exact ⟨hb, by simp [hr, hsend, Loses]⟩
      · exact ⟨hb, by simp [hr, hpass (.checked _) rfl, Loses]⟩
    · cases h
  | acquire =>
    cases sender with
    | checked remaining =>
      cases h
      exact Balanced.grant true hb htokens hp rfl rfl (.inl rfl)
    | _ => cases h
  | start =>
    cases sender with
    | spawned remaining =>
      cases h
      exact Balanced.grant false hb htokens hp rfl rfl (.inr (.inl rfl))
    | _ => cases h
  | wake =>
    cases sender with
    | parked deadline =>
      cases h
      exact Balanced.grant false hb htokens hp rfl rfl (.inr (.inr rfl))
    | _ => cases h
  | send =>
    obtain ⟨id, p⟩ := r
    cases sender with
    | granted byProcessor =>
      cases h
      refine ⟨hb, ?_⟩
      cases p <;> cases hp <;> simp [LimitPhase.send, permits, Loses]
    | _ => cases h
  | elapse =>
    simp only [Limiter.processor] at h
    split at h
    · obtain ⟨hr, -, hsend⟩ := LimitPhase.permits_of_empty hp rfl
      split at h <;> cases h
      exact ⟨hb, by simp [hr, hsend, Loses]⟩
    · cases h
  | _ => cases h

theorem limitAct_balanced (hb : m.bucket.Pure capacity)
    (hle : m.bucket.tokens + r.phase.permits ≤ capacity)
    (h : limitAct cfg m r a = .ok (m', phase)) : Balanced capacity m r a (m', phase) := by
  unfold limitAct at h
  split at h
  · exact Limiter.middleware_balanced hb hle h
  · split at h
    · next hp => exact Limiter.processor_balanced hb hle hp h
    · cases h

end Balance

/-! ## Runs -/

/-- Every token is in the bucket, with a live request or on its way to one. -/
structure Conserved (capacity : Nat) (w : Pool Limiter LimitRequest) : Prop where
  bucket : w.shared.bucket.Pure capacity
  total : w.shared.bucket.tokens + permitsHeld w = capacity

variable {w : Pool Limiter LimitRequest} {cfg : LimitConfig} {capacity : Nat} {r r' : LimitRequest}

theorem le_permitsHeld {r : LimitRequest} (h : r ∈ w.threads) : r.phase.permits ≤ permitsHeld w :=
  List.single_le_sum (by simp [LimitPhase.permits_nonneg]) _ (List.mem_map_of_mem h)

theorem permitsHeld_eq_zero (h : ∀ r ∈ w.threads, r.phase.permits = 0) : permitsHeld w = 0 :=
  List.sum_eq_zero (by simpa using h)

theorem Conserved.start (h : LimitStart capacity w) : Conserved capacity w := by
  obtain ⟨n, now, hm, ht⟩ := h
  have hheld : permitsHeld w = 0 := permitsHeld_eq_zero (by simp [ht, LimitPhase.permits])
  refine ⟨?_, ?_⟩
  · rw [hm]
    exact ⟨Nat.cast_zero, rfl⟩
  · rw [hheld, hm]
    exact add_zero _

theorem limitProgram_act {m m' : Limiter} {a : LimitAction}
    (h : (limitProgram cfg).act m r a = .ok (m', r')) :
    limitAct cfg m r a = .ok (m', r'.phase) := by
  simp only [limitProgram] at h
  split at h
  · next hact =>
    cases h
    exact hact
  · cases h

theorem Conserved.total_thread {i : Nat} {a : LimitAction} {m : Limiter} (h : Conserved capacity w)
    (hi : w.threads[i]? = some r) (hact : (limitProgram cfg).act w.shared r a = .ok (m, r')) :
    m.bucket.Pure capacity ∧ m.bucket.tokens + permitsHeld ⟨m, w.threads.set i r'⟩ +
      (if Loses w.shared r a then 1 else 0) = capacity := by
  have hle : w.shared.bucket.tokens + r.phase.permits ≤ capacity := by
    have := le_permitsHeld (List.mem_of_getElem? hi)
    linarith [h.total]
  obtain ⟨hb, hbal⟩ := limitAct_balanced h.bucket hle (limitProgram_act hact)
  have hsum : permitsHeld ⟨m, w.threads.set i r'⟩ + r.phase.permits =
      permitsHeld w + r'.phase.permits :=
    sum_map_threads_set (fun r : LimitRequest => r.phase.permits) hi r'
  exact ⟨hb, by linarith [h.total]⟩

/-- A step conserves the permits exactly if it loses none. -/
theorem Conserved.step_iff {w w' : Pool Limiter LimitRequest} {e : Move LimitAction Nat}
    (h : Conserved capacity w) (he : (limitProgram cfg).step w e = .ok w') :
    Conserved capacity w' ↔ Lossless w e := by
  cases e with
  | environment elapsed =>
    obtain ⟨m, hm, rfl⟩ := Program.step_environment he
    cases hm
    exact iff_of_true ⟨h.bucket, h.total⟩ trivial
  | thread i a =>
    cases hi : w.threads[i]? with
    | none =>
      simp only [Program.step, hi, Except.ok.injEq] at he
      exact iff_of_true (he ▸ h) (by simp [Lossless, hi])
    | some r =>
      have hloss : Lossless w (.thread i a) ↔ Loses w.shared r a = false := by
        simp [Lossless, hi]
      cases hact : (limitProgram cfg).act w.shared r a with
      | error x => simp [Program.step, hi, hact] at he
      | ok after =>
        simp only [Program.step, hi, hact, Except.ok.injEq] at he
        obtain ⟨hb, htotal⟩ := h.total_thread hi hact
        rw [hloss, ← he]
        cases hl : Loses w.shared r a with
        | false => exact iff_of_true ⟨hb, by simpa [hl] using htotal⟩ rfl
        | true =>
          refine iff_of_false (fun hc => ?_) (by simp)
          simp only [hl, if_true] at htotal
          linarith [hc.total]

/-- In a run that loses no token the bucket and the live requests have them all, and without a live
request the bucket is full. -/
theorem Limiter.permits_conserved {cfg : LimitConfig} {capacity : Nat}
    {w : Pool Limiter LimitRequest}
    (h : Reachable (limitProgram cfg).step (LimitStart capacity) Lossless w) :
    w.shared.bucket.tokens + permitsHeld w = capacity ∧
      ((∀ r ∈ w.threads, r.phase.live = false) → w.shared.bucket.tokens = capacity) := by
  have hinv : Conserved capacity w :=
    h.invariant (fun _ => Conserved.start) fun _ _ _ hc ha he => (hc.step_iff he).mpr ha
  refine ⟨hinv.total, fun hdead => ?_⟩
  have hheld : permitsHeld w = 0 := by
    refine permitsHeld_eq_zero fun r hr => ?_
    have := hdead r hr
    cases hp : r.phase <;> simp_all [LimitPhase.live, LimitPhase.permits]
  have := hinv.total
  rwa [hheld, add_zero] at this

def oneSlot : LimitConfig := ⟨1, 10⟩

def twoRequests : Pool Limiter LimitRequest :=
  ⟨⟨.new 1 0 0, [], false, 0⟩, (List.range 2).map fun id => ⟨id, .arrived⟩⟩

theorem Limiter.permits_conserved_oneSlot :
    ∃ w, Reachable (limitProgram oneSlot).step (LimitStart 1) Lossless w ∧
      w.threads.map (·.phase) = [.responded none, .handling] ∧
      w.shared.bucket.tokens + permitsHeld w = 1 :=
  -- the second request waits in the queue and then in a task until the first body ends
  exists_reachable_imp (s := twoRequests) ⟨2, 0, rfl, rfl⟩
    [.thread 0 .tryAcquire, .thread 1 .tryAcquire, .thread 1 .trySend, .thread 1 .receive,
      .thread 1 .check, .thread 1 .acquire, .thread 1 .start, .thread 0 .respond,
      .thread 0 .endBody, .thread 1 .wake, .thread 1 .send, .thread 1 .takeResult]
    (by decide +kernel)
    fun _ hreach hphases => ⟨hphases, by simpa using (Limiter.permits_conserved hreach).1⟩

/-- The client goes away while the handler runs: nobody is left to return the token. -/
theorem Limiter.permit_lost :
    ∃ w, Reachable (limitProgram oneSlot).step (LimitStart 1) (fun _ _ => True) w ∧
      (∀ r ∈ w.threads, r.phase.live = false) ∧ w.shared.bucket.tokens = 0 :=
  exists_reachable (s := twoRequests) ⟨2, 0, rfl, rfl⟩
    [.thread 0 .tryAcquire, .thread 0 .drop, .thread 1 .drop] (by decide +kernel)

end LLM42.Gateway
