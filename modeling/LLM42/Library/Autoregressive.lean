import Mathlib.Tactic.Common

/-! # Autoregressive generation with a cache

A generator extends a cache by one entry for every token it reads and emits a token from the
cache. Replaying guessed tokens over a correct cache reproduces the generator's own sequence up
to and including the first emission that the guesses did not predict. -/

namespace LLM42.Library

/-- `entry` extends the cache, `emit` reads it, `commit` is what becomes of the token emitted for
a given position. -/
structure Generator (τ E : Type*) where
  entry : τ → List E → E
  emit : List E → τ
  commit : ℕ → τ → τ

namespace Generator

variable {τ E : Type*} (g : Generator τ E)

def generate (start : List E) (first : τ) : ℕ → List E × τ
  | 0 => (start, first)
  | n + 1 =>
    let (cache, token) := generate start first n
    let cache' := cache ++ [g.entry token cache]
    (cache', g.commit (n + 1) (g.emit cache'))

def cacheAt (start : List E) (first : τ) (n : ℕ) : List E := (g.generate start first n).1

def tokenAt (start : List E) (first : τ) (n : ℕ) : τ := (g.generate start first n).2

def replayOut (cache : List E) : List τ → List τ
  | [] => []
  | t :: ts => g.emit (cache ++ [g.entry t cache]) :: replayOut (cache ++ [g.entry t cache]) ts

def replayCache (cache : List E) : List τ → List E
  | [] => cache
  | t :: ts => replayCache (cache ++ [g.entry t cache]) ts

variable {start : List E} {first : τ}

@[simp] theorem tokenAt_zero : g.tokenAt start first 0 = first := rfl

theorem cacheAt_succ (n : ℕ) : g.cacheAt start first (n + 1) =
    g.cacheAt start first n ++ [g.entry (g.tokenAt start first n) (g.cacheAt start first n)] := rfl

/-- Guesses that agree with the first `m` emissions are the generator's own tokens, and the
emission after them is the one the generator commits next. -/
theorem replay_of_agree {n m : ℕ} {ids : List τ} (hm : m < ids.length)
    (hfirst : ids[0]? = some (g.tokenAt start first n))
    (hagree : ∀ i < m, ids[i + 1]? = (g.replayOut (g.cacheAt start first n) ids)[i]?)
    (hcommit : ∀ i < m, ∀ t, ids[i + 1]? = some t → g.commit (n + i + 1) t = t) :
    (∀ i ≤ m, ids[i]? = some (g.tokenAt start first (n + i))) ∧
    (∀ i ≤ m, (g.replayOut (g.cacheAt start first n) ids)[i]? =
      some (g.emit (g.cacheAt start first (n + i + 1)))) ∧
    (∀ i ≤ m + 1, g.replayCache (g.cacheAt start first n) (ids.take i) =
      g.cacheAt start first (n + i)) := by
  induction ids generalizing n m with
  | nil => simp at hm
  | cons t ts ih =>
    simp only [List.getElem?_cons_zero, Option.some.injEq] at hfirst
    subst hfirst
    rw [replayOut, ← cacheAt_succ] at hagree ⊢
    cases m with
    | zero =>
      refine ⟨?_, ?_, ?_⟩
      · intro i hi
        obtain rfl : i = 0 := by omega
        rfl
      · intro i hi
        obtain rfl : i = 0 := by omega
        rfl
      · intro i hi
        obtain rfl | rfl : i = 0 ∨ i = 1 := by omega
        · rfl
        · simp [replayCache, cacheAt_succ]
    | succ m =>
      have hnext : ts[0]? = some (g.tokenAt start first (n + 1)) := by
        have h0 := hagree 0 (by omega)
        simp only [List.getElem?_cons_succ, List.getElem?_cons_zero] at h0
        have hc := hcommit 0 (by omega) _ h0
        rw [h0]
        exact congrArg some hc.symm
      obtain ⟨h1, h2, h3⟩ := ih (by simpa using hm) hnext (by
          intro i hi
          simpa using hagree (i + 1) (by omega))
        (by
          intro i hi u hu
          have := hcommit (i + 1) (by omega) u (by simpa using hu)
          rwa [show n + 1 + i + 1 = n + (i + 1) + 1 by omega])
      refine ⟨?_, ?_, ?_⟩
      · intro i hi
        cases i with
        | zero => rfl
        | succ i =>
          rw [List.getElem?_cons_succ, h1 i (by omega)]
          congr 2
          omega
      · intro i hi
        cases i with
        | zero => rfl
        | succ i =>
          rw [List.getElem?_cons_succ, h2 i (by omega)]
          congr 3
          omega
      · intro i hi
        cases i with
        | zero => rfl
        | succ i =>
          rw [List.take_succ_cons, replayCache, ← cacheAt_succ, h3 i (by omega)]
          congr 1
          omega

end Generator

end LLM42.Library
