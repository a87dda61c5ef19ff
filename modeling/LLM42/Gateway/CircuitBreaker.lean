import LLM42.Library.Interleaving
import Mathlib.Data.List.TakeWhile

/-! # The circuit breaker of a gateway worker

The breaker is a handful of atomics. A call of `state`, `record_success` or `record_failure` is a
sequence of single loads, stores, swaps and exchanges, and the calls of any number of threads
interleave between them. Beside the atomics the memory keeps what the transitions are judged by: the
outcomes recorded so far and when the breaker last became open. -/

namespace LLM42.Gateway

open Library

structure CircuitBreakerConfig where
  failureThreshold : Nat
  successThreshold : Nat
  timeoutDuration : Nat
  windowDuration : Nat

inductive CircuitState
  | closed
  | opened
  | halfOpen
  deriving DecidableEq

/-- A recorded outcome and the time of the atomic increment that counted it. -/
structure Outcome where
  success : Bool
  time : Nat
  deriving DecidableEq

/-- The atomics, the clock, and the history the transitions are judged by. -/
structure CircuitBreaker where
  state : CircuitState
  consecutiveFailures : Nat
  consecutiveSuccesses : Nat
  totalFailures : Nat
  totalSuccesses : Nat
  lastFailureTimeMs : Nat
  lastStateChangeMs : Nat
  nowMs : Nat
  /-- outcomes recorded since the state last changed, the newest first -/
  period : List Outcome
  /-- outcomes recorded before that -/
  earlier : List Outcome
  openedAt : Nat
  deriving DecidableEq

namespace CircuitBreaker

def new (nowMs : Nat) : CircuitBreaker where
  state := .closed
  consecutiveFailures := 0
  consecutiveSuccesses := 0
  totalFailures := 0
  totalSuccesses := 0
  lastFailureTimeMs := 0
  lastStateChangeMs := nowMs
  nowMs := nowMs
  period := []
  earlier := []
  openedAt := 0

def history (b : CircuitBreaker) : List Outcome := b.period ++ b.earlier

def streak (b : CircuitBreaker) : List Outcome := b.period.takeWhile fun o => !o.success

def successStreak (b : CircuitBreaker) : List Outcome := b.period.takeWhile fun o => o.success

def record (b : CircuitBreaker) (success : Bool) : CircuitBreaker :=
  { b with period := ⟨success, b.nowMs⟩ :: b.period }

/-- The state atomic takes a new value; a new period begins. -/
def enter (b : CircuitBreaker) (new : CircuitState) : CircuitBreaker :=
  { b with
    state := new
    period := []
    earlier := b.history
    openedAt := if new = .opened then b.nowMs else b.openedAt }

end CircuitBreaker

def addU32 (n : Nat) : Nat := (n + 1) % 2 ^ 32

theorem addU32_le (n : Nat) : addU32 n ≤ n + 1 := Nat.mod_le _ _

/-- Where a thread stands: between calls, or before the next atomic step of the call it is in. -/
inductive Pc
  | returned (result : Option CircuitState)
  -- check_and_update_state_returning
  | loadState
  | loadStateChange
  | readClock (lastChangeMs : Nat)
  | exchange
  | reloadState
  | halfOpenClock
  | halfOpenChange (now : Nat)
  | halfOpenFailures
  | halfOpenSuccesses
  -- record_success
  | addTotalSuccess
  | resetFailures
  | addSuccess
  | judgeSuccess (successes : Nat)
  -- record_failure
  | addTotalFailure
  | resetSuccesses
  | addFailure
  | failureClock (failures : Nat)
  | storeFailureTime (failures now : Nat)
  | judgeFailure (failures : Nat)
  -- transition_to
  | swap (new : CircuitState)
  | changeClock (new : CircuitState)
  | storeChange (new : CircuitState) (now : Nat)
  | clearFailures
  | clearSuccesses
  deriving DecidableEq

inductive BreakerCall
  | state
  | recordSuccess
  | recordFailure

def BreakerCall.entry : BreakerCall → Pc
  | .state => .loadState
  | .recordSuccess => .addTotalSuccess
  | .recordFailure => .addTotalFailure

inductive BreakerAction
  | call (c : BreakerCall)
  | run

inductive BreakerMisuse
  | busy
  deriving DecidableEq

namespace Pc

def run (cfg : CircuitBreakerConfig) (b : CircuitBreaker) : Pc → CircuitBreaker × Pc
  | .returned r => (b, .returned r)
  | .loadState =>
    if b.state = .opened then (b, .loadStateChange) else (b, .returned (some b.state))
  | .loadStateChange => (b, .readClock b.lastStateChangeMs)
  | .readClock lastChangeMs =>
    if cfg.timeoutDuration ≤ b.nowMs - lastChangeMs then (b, .exchange)
    else (b, .returned (some .opened))
  | .exchange =>
    if b.state = .opened then (b.enter .halfOpen, .halfOpenClock) else (b, .reloadState)
  | .reloadState => (b, .returned (some b.state))
  | .halfOpenClock => (b, .halfOpenChange b.nowMs)
  | .halfOpenChange now => ({ b with lastStateChangeMs := now }, .halfOpenFailures)
  | .halfOpenFailures => ({ b with consecutiveFailures := 0 }, .halfOpenSuccesses)
  | .halfOpenSuccesses => ({ b with consecutiveSuccesses := 0 }, .returned (some .halfOpen))
  | .addTotalSuccess => ({ b with totalSuccesses := b.totalSuccesses + 1 }, .resetFailures)
  | .resetFailures => ({ b with consecutiveFailures := 0 }, .addSuccess)
  | .addSuccess =>
    ({ b.record true with consecutiveSuccesses := addU32 b.consecutiveSuccesses },
      .judgeSuccess (addU32 b.consecutiveSuccesses))
  | .judgeSuccess successes =>
    if b.state = .halfOpen ∧ cfg.successThreshold ≤ successes then (b, .swap .closed)
    else (b, .returned none)
  | .addTotalFailure => ({ b with totalFailures := b.totalFailures + 1 }, .resetSuccesses)
  | .resetSuccesses => ({ b with consecutiveSuccesses := 0 }, .addFailure)
  | .addFailure =>
    ({ b.record false with consecutiveFailures := addU32 b.consecutiveFailures },
      .failureClock (addU32 b.consecutiveFailures))
  | .failureClock failures => (b, .storeFailureTime failures b.nowMs)
  | .storeFailureTime failures now => ({ b with lastFailureTimeMs := now }, .judgeFailure failures)
  | .judgeFailure failures => match b.state with
    | .closed =>
      if cfg.failureThreshold ≤ failures then (b, .swap .opened) else (b, .returned none)
    | .halfOpen => (b, .swap .opened)
    | .opened => (b, .returned none)
  | .swap new => if b.state = new then (b, .returned none) else (b.enter new, .changeClock new)
  | .changeClock new => (b, .storeChange new b.nowMs)
  | .storeChange new now =>
    ({ b with lastStateChangeMs := now }, if new = .opened then .clearSuccesses else .clearFailures)
  | .clearFailures => ({ b with consecutiveFailures := 0 }, .clearSuccesses)
  | .clearSuccesses => ({ b with consecutiveSuccesses := 0 }, .returned none)

end Pc

/-- Threads call the breaker and run their calls; the clock only goes forward. -/
def breakerProgram (cfg : CircuitBreakerConfig) :
    Program CircuitBreaker Pc BreakerAction Nat BreakerMisuse where
  act b
    | .returned _, .call c => .ok (b, c.entry)
    | _, .call _ => .error .busy
    | p, .run => .ok (p.run cfg b)
  env b elapsed := .ok { b with nowMs := b.nowMs + elapsed }

/-- A breaker as it is built, with any number of threads that have not called it yet. -/
def BreakerStart (w : Pool CircuitBreaker Pc) : Prop :=
  (∃ nowMs, w.shared = .new nowMs) ∧ ∀ p ∈ w.threads, p = .returned none

/-- What a change of the state from `b` to `b'` must rest on. -/
structure Justified (cfg : CircuitBreakerConfig) (b b' : CircuitBreaker) : Prop where
  halfOpen : b.state = .opened → b'.state = .halfOpen →
    b.openedAt + cfg.timeoutDuration ≤ b.nowMs
  closed : b.state = .halfOpen → b'.state = .closed →
    cfg.successThreshold ≤ b.period.length ∧ ∀ o ∈ b.period, o.success = true
  opened : b.state = .closed → b'.state = .opened →
    (b.history.take cfg.failureThreshold).length = cfg.failureThreshold ∧
    ∀ o ∈ b.history.take cfg.failureThreshold, o.success = false ∧
      ∀ o' ∈ b.history.take cfg.failureThreshold, o.time ≤ o'.time + cfg.windowDuration

namespace Pc

def publishing : Pc → Bool
  | .halfOpenClock | .halfOpenChange _ | .halfOpenFailures | .halfOpenSuccesses => true
  | .changeClock _ | .storeChange _ _ | .clearFailures | .clearSuccesses => true
  | _ => false

def failing : Pc → Bool
  | .failureClock _ | .storeFailureTime _ _ | .judgeFailure _ | .swap .opened => true
  | _ => false

/-- The thread is between its first store to a counter and the end of its decision. -/
def recording : Pc → Bool
  | .addSuccess | .judgeSuccess _ | .addFailure => true
  | .failureClock _ | .storeFailureTime _ _ | .judgeFailure _ | .swap _ => true
  | _ => false

/-- The thread holds something it read from the breaker or has begun to write. -/
def engaged (p : Pc) : Bool :=
  match p with
  | .loadStateChange | .readClock _ | .exchange => true
  | _ => p.recording || p.publishing

/-- The thread's next step is its first store to a counter. -/
def beginsRecord : Pc → Bool
  | .resetFailures | .resetSuccesses => true
  | _ => false

def changes (b : CircuitBreaker) : Pc → Bool
  | .exchange => b.state = .opened
  | .swap new => b.state ≠ new
  | _ => false

/-- A failure counted while the circuit is closed falls in the window of the unbroken failures
before it. -/
def InWindow (cfg : CircuitBreakerConfig) (b : CircuitBreaker) (p : Pc) : Prop :=
  p = .addFailure → b.state = .closed → ∀ o ∈ b.streak, b.nowMs ≤ o.time + cfg.windowDuration
deriving Decidable

/-- Thread `q` does not get in the way of the next step of `p`. -/
def Yields (b : CircuitBreaker) (p q : Pc) : Prop :=
  q.publishing = false ∧ (p.beginsRecord = true → q.recording = false) ∧
    (p.changes b = true → q.engaged = false)
deriving Decidable

end Pc

/-- Outcomes are recorded one call at a time, the state changes while no other call is under way,
the change is published before anything else happens, and failures that add up fall in one window. -/
def Orderly (cfg : CircuitBreakerConfig) (w : Pool CircuitBreaker Pc) :
    Move BreakerAction Nat → Prop
  | .thread i .run => ∀ p ∈ w.threads[i]?, p.InWindow cfg w.shared ∧
      ∀ j < w.threads.length, j ≠ i → ∀ q ∈ w.threads[j]?, p.Yields w.shared q
  | _ => True

instance (cfg : CircuitBreakerConfig) (w : Pool CircuitBreaker Pc) (e : Move BreakerAction Nat) :
    Decidable (Orderly cfg w e) := by
  unfold Orderly
  split <;> infer_instance

end LLM42.Gateway
