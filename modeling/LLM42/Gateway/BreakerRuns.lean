import LLM42.Gateway.CircuitBreaker

/-! # Justified transitions of the circuit breaker

Each thread knows something of the memory at its program counter. In orderly runs the steps of the
others keep what it knows, so that a thread that changes the state has the reason for it. -/

namespace LLM42.Gateway

open Library List CircuitBreaker

variable {cfg : CircuitBreakerConfig} {b : CircuitBreaker} {p q : Pc} {w : Pool CircuitBreaker Pc}
  {i : Nat}

def Pc.Knows (cfg : CircuitBreakerConfig) (b : CircuitBreaker) : Pc → Prop
  | .loadStateChange => b.state = .opened
  | .readClock lastChangeMs => b.state = .opened ∧ b.openedAt ≤ lastChangeMs
  | .exchange => b.openedAt + cfg.timeoutDuration ≤ b.nowMs
  | .addSuccess => b.consecutiveFailures = 0
  | .judgeSuccess successes => successes ≤ b.period.length ∧
      (b.state = .halfOpen → ∀ o ∈ b.period, o.success = true)
  | .addFailure => b.consecutiveSuccesses = 0
  | .failureClock failures | .storeFailureTime failures _ | .judgeFailure failures =>
    b.state ≠ .opened → failures ≤ b.streak.length
  | .swap .opened => b.state = .closed → cfg.failureThreshold ≤ b.streak.length
  | .swap .closed => b.state = .halfOpen ∧ cfg.successThreshold ≤ b.period.length ∧
      ∀ o ∈ b.period, o.success = true
  | .swap .halfOpen => False
  | .halfOpenClock | .halfOpenChange _ | .halfOpenFailures => b.state = .halfOpen ∧ b.period = []
  | .halfOpenSuccesses => b.state = .halfOpen ∧ b.period = [] ∧ b.consecutiveFailures = 0
  | .changeClock new => b.state = new ∧ b.period = []
  | .storeChange new now => b.state = new ∧ b.period = [] ∧ b.openedAt ≤ now
  | .clearFailures => b.state ≠ .opened ∧ b.period = []
  | .clearSuccesses => b.period = [] ∧ (b.state = .opened → b.openedAt ≤ b.lastStateChangeMs) ∧
      (b.state ≠ .opened → b.consecutiveFailures = 0)
  | _ => True

/-- Recorded times lie in the past, and unbroken failures of a closed circuit in one window. -/
structure Timely (cfg : CircuitBreakerConfig) (b : CircuitBreaker) : Prop where
  openedAt : b.openedAt ≤ b.nowMs
  period : ∀ o ∈ b.period, o.time ≤ b.nowMs
  window : b.state = .closed →
    ∀ o ∈ b.streak, ∀ o' ∈ b.streak, o.time ≤ o'.time + cfg.windowDuration

/-- The stored time and the counters, when no change is being published. -/
structure Counted (b : CircuitBreaker) : Prop where
  stamp : b.state = .opened → b.openedAt ≤ b.lastStateChangeMs
  failures : b.state ≠ .opened → b.consecutiveFailures ≤ b.streak.length
  successes : b.consecutiveSuccesses ≤ b.successStreak.length

/-- Two threads do not record at the same time, and none is inside a call while one publishes. -/
def Pc.Apart (p q : Pc) : Prop :=
  (p.recording = true → q.recording = false) ∧ (p.publishing = true → q.engaged = false)

structure Upheld (cfg : CircuitBreakerConfig) (w : Pool CircuitBreaker Pc) : Prop where
  timely : Timely cfg w.shared
  counted : (∀ p ∈ w.threads, p.publishing = false) → Counted w.shared
  clean : (∀ p ∈ w.threads, p.failing = false) → w.shared.state = .halfOpen →
    ∀ o ∈ w.shared.period, o.success = true
  knows : ∀ p ∈ w.threads, p.Knows cfg w.shared
  apart : EachTwo Pc.Apart w.threads

namespace CircuitBreaker

@[simp] theorem streak_record_false (b : CircuitBreaker) :
    (b.record false).streak = ⟨false, b.nowMs⟩ :: b.streak := by
  simp [record, streak]

@[simp] theorem streak_record_true (b : CircuitBreaker) : (b.record true).streak = [] := by
  simp [record, streak]

@[simp] theorem successStreak_record_true (b : CircuitBreaker) :
    (b.record true).successStreak = ⟨true, b.nowMs⟩ :: b.successStreak := by
  simp [record, successStreak]

theorem take_history {n : Nat} (h : n ≤ b.streak.length) : b.history.take n = b.streak.take n := by
  obtain ⟨rest, hrest⟩ := takeWhile_prefix (l := b.period) fun o => !o.success
  rw [history, ← hrest, append_assoc]
  exact take_append_of_le_length h

end CircuitBreaker

namespace Timely

section

variable (h : Timely cfg b)

include h

theorem enter (new : CircuitState) : Timely cfg (b.enter new) where
  openedAt := by
    unfold CircuitBreaker.enter
    split
    · exact le_rfl
    · exact h.openedAt
  period := by simp [CircuitBreaker.enter]
  window := by simp [CircuitBreaker.enter, CircuitBreaker.streak]

theorem record_true : Timely cfg (b.record true) where
  openedAt := h.openedAt
  period := forall_mem_cons.mpr ⟨le_rfl, h.period⟩
  window := by simp

theorem record_false
    (hw : b.state = .closed → ∀ o ∈ b.streak, b.nowMs ≤ o.time + cfg.windowDuration) :
    Timely cfg (b.record false) where
  openedAt := h.openedAt
  period := forall_mem_cons.mpr ⟨le_rfl, h.period⟩
  window := by
    intro hcl
    have hold : ∀ o ∈ b.streak, o.time ≤ b.nowMs := fun o ho => h.period o (takeWhile_subset _ ho)
    rw [streak_record_false]
    intro o ho o' ho'
    rcases mem_cons.mp ho with rfl | ho <;> rcases mem_cons.mp ho' with rfl | ho'
    · exact Nat.le_add_right _ _
    · exact hw hcl o' ho'
    · exact (hold o ho).trans (Nat.le_add_right _ _)
    · exact h.window hcl o ho o' ho'

end

end Timely

/-! ## One step of a thread -/

namespace Pc

theorem recording_of_failing (h : p.failing = true) : p.recording = true := by
  unfold failing at h
  split at h <;> simp_all [recording]

theorem knows_of_not_engaged (h : p.engaged = false) : p.Knows cfg b := by
  cases p <;> simp_all [engaged, recording, publishing, Knows]

theorem run_recording (h : (p.run cfg b).2.recording = true) :
    p.recording = true ∨ p.beginsRecord = true := by
  cases p <;> simp only [run] at h <;> (try split at h) <;> (try split at h) <;>
    simp_all [recording, beginsRecord]

theorem run_publishing (h : (p.run cfg b).2.publishing = true) :
    p.publishing = true ∨ p.changes b = true := by
  cases p <;> simp only [run] at h <;> (try split at h) <;> (try split at h) <;>
    simp_all [publishing, changes]

theorem run_state (hpub : p.publishing = false) (hch : p.changes b = false) :
    (p.run cfg b).1.state = b.state ∧ (p.run cfg b).1.openedAt = b.openedAt ∧
      (p.run cfg b).1.nowMs = b.nowMs := by
  cases p <;> simp only [run] <;> (try split) <;> (try split) <;>
    simp_all [publishing, changes, record]

theorem run_counters (hpub : p.publishing = false) (hch : p.changes b = false)
    (hrec : p.recording = false) (hbeg : p.beginsRecord = false) :
    (p.run cfg b).1.period = b.period ∧
      (p.run cfg b).1.consecutiveFailures = b.consecutiveFailures ∧
      (p.run cfg b).1.consecutiveSuccesses = b.consecutiveSuccesses := by
  cases p <;> simp only [run] <;> (try split) <;> (try split) <;>
    simp_all [publishing, changes, recording, beginsRecord]

theorem Knows.congr {b' : CircuitBreaker} (h : q.Knows cfg b) (hpub : q.publishing = false)
    (hstate : b'.state = b.state) (hopened : b'.openedAt = b.openedAt) (hnow : b.nowMs ≤ b'.nowMs)
    (hcounters : q.recording = true → b'.period = b.period ∧
      b'.consecutiveFailures = b.consecutiveFailures ∧
      b'.consecutiveSuccesses = b.consecutiveSuccesses) : q.Knows cfg b' := by
  by_cases hrec : q.recording = true
  · obtain ⟨hp, hf, hs⟩ := hcounters hrec
    have hstreak : b'.streak = b.streak := by rw [streak, hp, streak]
    cases q with
    | swap new =>
      cases new <;> simp_all [Knows]
    | _ => simp_all [Knows, recording]
  · cases q with
    | exchange =>
      simp only [Knows] at h ⊢
      omega
    | _ => simp_all [Knows, recording, publishing]

theorem run_other (hy : p.Yields b q) (hpq : p.Apart q) (hqp : q.Apart p) (hq : q.Knows cfg b) :
    q.Knows cfg (p.run cfg b).1 ∧ (p.run cfg b).2.Apart q ∧ q.Apart (p.run cfg b).2 := by
  obtain ⟨hpub, hbeg, hch⟩ := hy
  have hrec : (p.run cfg b).2.recording = true → q.recording = false := by
    intro h
    rcases run_recording h with h | h
    · exact hpq.1 h
    · exact hbeg h
  have heng : (p.run cfg b).2.publishing = true → q.engaged = false := by
    intro h
    rcases run_publishing h with h | h
    · exact hpq.2 h
    · exact hch h
  refine ⟨?_, ⟨hrec, heng⟩, ?_, ?_⟩
  · by_cases he : q.engaged = false
    · exact knows_of_not_engaged he
    · have hpp : p.publishing = false := by
        by_contra h
        exact he (hpq.2 (by simpa using h))
      have hpc : p.changes b = false := by
        by_contra h
        exact he (hch (by simpa using h))
      obtain ⟨hs, ho, hn⟩ := @run_state cfg b p hpp hpc
      refine hq.congr hpub hs ho hn.ge fun hqr => ?_
      refine run_counters hpp hpc (hqp.1 hqr) ?_
      by_contra h
      simp [hbeg (by simpa using h)] at hqr
  · intro hqr
    by_contra h
    simp [hrec (by simpa using h)] at hqr
  · intro hqp'
    simp [hpub] at hqp'

theorem run_timely (h : Timely cfg b) (hw : p.InWindow cfg b) : Timely cfg (p.run cfg b).1 := by
  cases p with
  | addSuccess => exact { h.record_true with }
  | addFailure => exact { h.record_false (hw rfl) with }
  | exchange =>
    simp only [run]
    split
    · exact h.enter _
    · exact h
  | swap new =>
    simp only [run]
    split
    · exact h
    · exact h.enter _
  | judgeFailure failures =>
    simp only [run]
    split
    · split <;> exact h
    all_goals exact h
  | loadState | readClock | judgeSuccess =>
    simp only [run]
    split <;> exact h
  | _ => exact { h with }

theorem run_counted (h : p.publishing = false → Counted b) (hk : p.Knows cfg b)
    (hpub : (p.run cfg b).2.publishing = false) : Counted (p.run cfg b).1 := by
  cases p with
  | addSuccess =>
    have hc := h rfl
    refine ⟨hc.stamp, fun _ => ?_, ?_⟩
    · exact (Nat.le_of_eq hk).trans (Nat.zero_le _)
    · change addU32 _ ≤ (b.record true).successStreak.length
      rw [successStreak_record_true]
      exact (addU32_le _).trans (Nat.add_le_add_right hc.successes 1)
  | addFailure =>
    have hc := h rfl
    refine ⟨hc.stamp, fun hs => ?_, ?_⟩
    · change addU32 _ ≤ (b.record false).streak.length
      rw [streak_record_false]
      exact (addU32_le _).trans (Nat.add_le_add_right (hc.failures hs) 1)
    · exact (Nat.le_of_eq hk).trans (Nat.zero_le _)
  | resetFailures => exact ⟨(h rfl).stamp, fun _ => Nat.zero_le _, (h rfl).successes⟩
  | resetSuccesses => exact ⟨(h rfl).stamp, (h rfl).failures, Nat.zero_le _⟩
  | addTotalSuccess | addTotalFailure | storeFailureTime =>
    exact ⟨(h rfl).stamp, (h rfl).failures, (h rfl).successes⟩
  | halfOpenSuccesses =>
    obtain ⟨hs, -, hf⟩ := hk
    refine ⟨fun ho => ?_, fun _ => ?_, Nat.zero_le _⟩
    · rw [show (run cfg b .halfOpenSuccesses).1.state = b.state from rfl, hs] at ho
      cases ho
    · exact (Nat.le_of_eq hf).trans (Nat.zero_le _)
  | clearSuccesses =>
    obtain ⟨-, hs, hf⟩ := hk
    exact ⟨hs, fun ho => (Nat.le_of_eq (hf ho)).trans (Nat.zero_le _), Nat.zero_le _⟩
  | halfOpenClock | halfOpenChange | halfOpenFailures | changeClock | clearFailures =>
    simp [run, publishing] at hpub
  | storeChange new now =>
    simp only [run] at hpub
    split at hpub <;> simp [publishing] at hpub
  | exchange | swap =>
    simp only [run] at hpub ⊢
    split at hpub <;> simp_all [publishing]
  | judgeFailure failures =>
    simp only [run]
    split
    · split <;> exact h rfl
    all_goals exact h rfl
  | loadState | readClock | judgeSuccess =>
    simp only [run]
    split <;> exact h rfl
  | _ => exact h rfl

theorem run_knows (ht : Timely cfg b) (hc : p.publishing = false → Counted b)
    (hk : p.Knows cfg b) (hclean : p = .addSuccess → b.state = .halfOpen →
      ∀ o ∈ b.period, o.success = true) : (p.run cfg b).2.Knows cfg (p.run cfg b).1 := by
  cases p with
  | loadState =>
    simp only [run]
    split
    · assumption
    · trivial
  | loadStateChange => exact ⟨hk, (hc rfl).stamp hk⟩
  | readClock lastChangeMs =>
    obtain ⟨-, hlast⟩ := hk
    have := ht.openedAt
    simp only [run]
    split
    · simp only [Knows]
      omega
    · trivial
  | exchange =>
    simp only [run]
    split
    · exact ⟨rfl, rfl⟩
    · trivial
  | halfOpenFailures => exact ⟨hk.1, hk.2, rfl⟩
  | resetFailures | resetSuccesses => exact rfl
  | addSuccess =>
    refine ⟨?_, fun hs => forall_mem_cons.mpr ⟨rfl, hclean rfl hs⟩⟩
    exact (addU32_le _).trans
      (Nat.add_le_add_right ((hc rfl).successes.trans (List.takeWhile_prefix _).length_le) 1)
  | judgeSuccess successes =>
    simp only [run]
    split
    · next hs => exact ⟨hs.1, hs.2.trans hk.1, hk.2 hs.1⟩
    · trivial
  | addFailure =>
    intro hs
    change addU32 _ ≤ (b.record false).streak.length
    rw [streak_record_false]
    exact (addU32_le _).trans (Nat.add_le_add_right ((hc rfl).failures hs) 1)
  | judgeFailure failures =>
    simp only [run]
    split
    · next hs =>
      split
      · next hle => exact fun _ => hle.trans (hk (by simp [hs]))
      · trivial
    · next hs => exact fun h => by simp [hs] at h
    · trivial
  | swap new =>
    simp only [run]
    split
    · trivial
    · exact ⟨rfl, rfl⟩
  | changeClock new => exact ⟨hk.1, hk.2, ht.openedAt⟩
  | storeChange new now =>
    obtain ⟨hs, hp, hnow⟩ := hk
    simp only [run]
    split
    · next hnew => exact ⟨hp, fun _ => hnow, fun h => absurd (hs.trans hnew) h⟩
    · next hnew => exact ⟨hs ▸ hnew, hp⟩
  | clearFailures => exact ⟨hk.2, fun h => absurd h hk.1, fun _ => rfl⟩
  | _ => first | exact hk | trivial

theorem run_clean (h : p.failing = false → b.state = .halfOpen → ∀ o ∈ b.period, o.success = true)
    (hfail : (p.run cfg b).2.failing = false) (hs : (p.run cfg b).1.state = .halfOpen) :
    ∀ o ∈ (p.run cfg b).1.period, o.success = true := by
  cases p with
  | addSuccess => exact forall_mem_cons.mpr ⟨rfl, h rfl hs⟩
  | addFailure | failureClock | storeFailureTime => simp [run, failing] at hfail
  | judgeFailure failures =>
    -- the step only reads: a closed or open circuit is not half-open, a half-open one opens next
    cases hb : b.state with
    | closed =>
      simp only [run, hb] at hs
      split at hs <;> simp [hb] at hs
    | halfOpen => simp [run, hb, failing] at hfail
    | opened => simp [run, hb] at hs
  | exchange | swap =>
    simp only [run] at hs ⊢
    split <;> simp_all [enter, failing]
  | loadState | readClock | judgeSuccess =>
    simp only [run] at hs ⊢
    split <;> simp_all [failing]
  | _ => exact h rfl hs

end Pc

/-! ## Runs -/

theorem Upheld.start (h : BreakerStart w) : Upheld cfg w := by
  obtain ⟨⟨nowMs, hb⟩, hp⟩ := h
  refine ⟨?_, fun _ => ?_, fun _ => ?_, ?_, ?_⟩
  · rw [hb]
    exact ⟨Nat.zero_le _, by simp [new], by simp [new,
      streak]⟩
  · rw [hb]
    exact ⟨by simp [new], fun _ => Nat.zero_le _, Nat.zero_le _⟩
  · simp [hb, new]
  · intro p hmem
    rw [hp p hmem]
    trivial
  · intro i j p q _ hi _
    rw [hp p (mem_of_getElem? hi)]
    exact ⟨nofun, nofun⟩

section

variable (h : Upheld cfg w)

include h

theorem Upheld.tick (elapsed : Nat) :
    Upheld cfg ⟨{ w.shared with nowMs := w.shared.nowMs + elapsed }, w.threads⟩ where
  timely := { h.timely with
    openedAt := h.timely.openedAt.trans (Nat.le_add_right _ _)
    period := fun o ho => (h.timely.period o ho).trans (Nat.le_add_right _ _) }
  counted hpub := ⟨(h.counted hpub).stamp, (h.counted hpub).failures, (h.counted hpub).successes⟩
  clean := h.clean
  knows p hp := by
    by_cases hpub : p.publishing = true
    · have := h.knows p hp
      cases p <;> simp_all [Pc.Knows, Pc.publishing]
    · exact (h.knows p hp).congr (by simpa using hpub) rfl rfl (Nat.le_add_right _ _)
        fun _ => ⟨rfl, rfl, rfl⟩
  apart := h.apart

theorem Upheld.set {p p' : Pc} {b' : CircuitBreaker} (hi : w.threads[i]? = some p)
    (htimely : Timely cfg b')
    (hcounted : (p.publishing = false → Counted w.shared) → p'.publishing = false → Counted b')
    (hclean : (p.failing = false → w.shared.state = .halfOpen →
        ∀ o ∈ w.shared.period, o.success = true) →
      p'.failing = false → b'.state = .halfOpen → ∀ o ∈ b'.period, o.success = true)
    (hknows : p'.Knows cfg b')
    (hothers : ∀ j q, j ≠ i → w.threads[j]? = some q → q.Knows cfg b' ∧ p'.Apart q ∧ q.Apart p') :
    Upheld cfg ⟨b', w.threads.set i p'⟩ where
  timely := htimely
  counted hset := hcounted (fun hp => h.counted (forall_threads_of_set hi hp hset))
    (hset p' (mem_threads_set hi))
  clean hset := hclean (fun hp => h.clean (forall_threads_of_set hi hp hset))
    (hset p' (mem_threads_set hi))
  knows := forall_threads_set hknows fun j q hj hq => (hothers j q hj hq).1
  apart := h.apart.set fun j q hj hq => (hothers j q hj hq).2

theorem Upheld.call {r : Option CircuitState} (hi : w.threads[i]? = some (.returned r))
    (c : BreakerCall) : Upheld cfg ⟨w.shared, w.threads.set i c.entry⟩ := by
  have hentry : c.entry.engaged = false := by cases c <;> rfl
  have hrec : c.entry.recording = false := by cases c <;> rfl
  have hpub : c.entry.publishing = false := by cases c <;> rfl
  refine h.set hi h.timely (fun hc _ => hc rfl) (fun hc _ => hc rfl)
    (Pc.knows_of_not_engaged hentry) fun j q _ hj => ?_
  refine ⟨h.knows q (mem_of_getElem? hj), ⟨?_, ?_⟩, ?_, ?_⟩
  · simp [hrec]
  · simp [hpub]
  · exact fun _ => hrec
  · exact fun _ => hentry

/-- A step inside its window, with the others yielding, upholds the breaker. -/
theorem Upheld.run {p : Pc} (hi : w.threads[i]? = some p) (hw : p.InWindow cfg w.shared)
    (hy : ∀ j q, j ≠ i → w.threads[j]? = some q → p.Yields w.shared q) :
    Upheld cfg ⟨(p.run cfg w.shared).1, w.threads.set i (p.run cfg w.shared).2⟩ := by
  have hk : p.Knows cfg w.shared := h.knows p (mem_of_getElem? hi)
  have hcounted : p.publishing = false → Counted w.shared := fun hp =>
    h.counted (forall_threads hi hp fun j q hj hq => (hy j q hj hq).1)
  have hclean : p = .addSuccess → w.shared.state = .halfOpen →
      ∀ o ∈ w.shared.period, o.success = true := by
    rintro rfl
    refine h.clean (forall_threads hi rfl fun j q hj hq => ?_)
    by_contra hf
    have hrec := Pc.recording_of_failing (by simpa using hf)
    simp [(h.apart i j _ q (Ne.symm hj) hi hq).1 rfl] at hrec
  refine h.set hi (Pc.run_timely h.timely hw) (fun hc => Pc.run_counted hc hk) Pc.run_clean
    (Pc.run_knows h.timely hcounted hk hclean) fun j q hj hq => ?_
  exact Pc.run_other (hy j q hj hq) (h.apart i j p q (Ne.symm hj) hi hq)
    (h.apart j i q p hj hq hi) (h.knows q (mem_of_getElem? hq))

end

theorem Upheld.step {w w' : Pool CircuitBreaker Pc} {e : Move BreakerAction Nat}
    (h : Upheld cfg w) (ho : Orderly cfg w e) (he : (breakerProgram cfg).step w e = .ok w') :
    Upheld cfg w' := by
  cases e with
  | environment elapsed =>
    obtain ⟨m, hm, rfl⟩ := Program.step_environment he
    cases hm
    exact h.tick elapsed
  | thread i a =>
    obtain rfl | ⟨p, m, p', hi, hact, rfl⟩ := Program.step_thread he
    · exact h
    cases a with
    | call c =>
      cases p with
      | returned r =>
        cases hact
        exact h.call hi c
      | _ => cases hact
    | run =>
      obtain ⟨hw, hy⟩ := ho p hi
      have hrun : p.run cfg w.shared = (m, p') := by
        cases p <;> exact Except.ok.inj hact
      have := h.run hi hw fun j q hj hq =>
        hy j (List.getElem?_eq_some_iff.mp hq).1 hj q hq
      rwa [hrun] at this

/-- A thread that moves the state has the reason for it. -/
theorem Pc.run_justified (ht : Timely cfg b) (hk : p.Knows cfg b) :
    Justified cfg b (p.run cfg b).1 := by
  by_cases hpub : p.publishing = true
  · have hs : (p.run cfg b).1.state = b.state := by
      cases p <;> simp_all [Pc.run, Pc.publishing]
    constructor <;> simp_all
  by_cases hch : p.changes b = true
  · cases p with
    | exchange =>
      have hb : b.state = .opened := by simpa [Pc.changes] using hch
      constructor
      · exact fun _ _ => hk
      · simp [hb]
      · simp [hb]
    | swap new =>
      have hb : b.state ≠ new := by simpa [Pc.changes] using hch
      have hrun : ((Pc.swap new).run cfg b).1.state = new := by
        simp [Pc.run, hb, enter]
      cases new with
      | closed => exact ⟨by simp [hrun], fun _ _ => hk.2, by simp [hrun]⟩
      | halfOpen => cases hk
      | opened =>
        refine ⟨by simp [hrun], by simp [hrun], fun hcl _ => ?_⟩
        rw [take_history (hk hcl)]
        refine ⟨length_take_of_le (hk hcl), fun o ho => ⟨?_, fun o' ho' => ?_⟩⟩
        · simpa using mem_takeWhile_imp (mem_of_mem_take ho)
        · exact ht.window hcl o (mem_of_mem_take ho) o' (mem_of_mem_take ho')
    | _ => simp [Pc.changes] at hch
  · have hs := (@Pc.run_state cfg b p (by simpa using hpub) (by simpa using hch)).1
    constructor <;> simp_all

/-- Every change of the state in an orderly run is justified, whichever threads take part. -/
theorem CircuitBreaker.transitions_justified {w w' : Pool CircuitBreaker Pc}
    {e : Move BreakerAction Nat}
    (h : Reachable (breakerProgram cfg).step BreakerStart (Orderly cfg) w)
    (he : (breakerProgram cfg).step w e = .ok w') :
    Justified cfg w.shared w'.shared := by
  have hinv : Upheld cfg w := h.invariant (fun _ => Upheld.start) fun _ _ _ => Upheld.step
  have hsame : ∀ b : CircuitBreaker, b.state = w.shared.state → Justified cfg w.shared b := by
    intro b hb
    constructor <;> simp_all
  cases e with
  | environment elapsed =>
    obtain ⟨m, hm, rfl⟩ := Program.step_environment he
    cases hm
    exact hsame _ rfl
  | thread i a =>
    obtain rfl | ⟨p, m, p', hi, hact, rfl⟩ := Program.step_thread he
    · exact hsame _ rfl
    cases a with
    | call c =>
      cases p with
      | returned r =>
        cases hact
        exact hsame _ rfl
      | _ => cases hact
    | run =>
      have hrun : p.run cfg w.shared = (m, p') := by
        cases p <;> exact Except.ok.inj hact
      have := Pc.run_justified hinv.timely (hinv.knows p (mem_of_getElem? hi))
      rwa [hrun] at this

/-- One failure opens the circuit for a second. -/
def oneStrike : CircuitBreakerConfig := ⟨1, 1, 1000, 1000⟩

def twoCallers : Pool CircuitBreaker Pc := ⟨.new 0, [.returned none, .returned none]⟩

def runSteps (i n : Nat) : List (Move BreakerAction Nat) := replicate n (.thread i .run)

/-- The failure of one thread opens the circuit while the other asks for the state; a second later
that one half-opens it while the first begins to report a success. -/
theorem CircuitBreaker.transitions_justified_twoCallers :
    ∃ w w', Reachable (breakerProgram oneStrike).step BreakerStart (Orderly oneStrike) w ∧
      (breakerProgram oneStrike).step w (.thread 1 .run) = .ok w' ∧
      w.shared.state = .opened ∧ w'.shared.state = .halfOpen ∧
      Justified oneStrike w.shared w'.shared := by
  simp only [exists_and_left]
  exact exists_reachable_imp (s := twoCallers) (p := fun _ => ∃ _, _ ∧ _ ∧ _) ⟨⟨0, rfl⟩, by decide⟩
    (.environment 5000 :: .thread 0 (.call .recordFailure) :: .thread 1 (.call .state) ::
      runSteps 0 1 ++ runSteps 1 1 ++ runSteps 0 9 ++
      .environment 1000 :: .thread 1 (.call .state) :: .thread 0 (.call .recordSuccess) ::
      runSteps 1 2 ++ runSteps 0 1 ++ runSteps 1 1) (by decide +kernel)
    fun _ hreach ⟨w', hstep, hstates⟩ =>
      ⟨w', hstep, hstates.1, hstates.2, transitions_justified hreach hstep⟩

/-- While the thread that opens the circuit has not stored the time yet, another thread reads the
time of the state before and half-opens the circuit at once. -/
theorem CircuitBreaker.halfOpens_early :
    ∃ w w', Reachable (breakerProgram oneStrike).step BreakerStart (fun _ _ => True) w ∧
      (breakerProgram oneStrike).step w (.thread 1 .run) = .ok w' ∧
      w.shared.state = .opened ∧ w'.shared.state = .halfOpen ∧
      w.shared.nowMs < w.shared.openedAt + oneStrike.timeoutDuration := by
  simp only [exists_and_left]
  exact exists_reachable (s := twoCallers) ⟨⟨0, rfl⟩, by decide⟩
    (.environment 5000 :: .thread 0 (.call .recordFailure) :: runSteps 0 7 ++
      .thread 1 (.call .state) :: runSteps 1 3) (by decide +kernel)

end LLM42.Gateway
