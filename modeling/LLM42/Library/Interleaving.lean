import LLM42.Library.Runs
import Mathlib.Algebra.BigOperators.Group.List.Basic

/-! # Threads over a shared memory

Each thread has a state of its own, its program counter with the values it holds, and moves by one
atomic step at a time; the environment may change the memory between two steps. -/

namespace LLM42.Library

open List

variable {σ π α β χ : Type*}

/-- A shared memory and the threads that work on it. -/
structure Pool (σ π : Type*) where
  shared : σ
  threads : List π

/-- Who moves next. -/
inductive Move (α β : Type*)
  | thread (i : Nat) (action : α)
  | environment (event : β)

/-- What an action of a thread does to the memory and to the thread, and what the environment does. -/
structure Program (σ π α β χ : Type*) where
  act : σ → π → α → Except χ (σ × π)
  env : σ → β → Except χ σ

def Program.step (P : Program σ π α β χ) (w : Pool σ π) : Move α β → Except χ (Pool σ π)
  | .thread i a => match w.threads[i]? with
    | none => .ok w
    | some p => match P.act w.shared p a with
      | .ok (m, p') => .ok ⟨m, w.threads.set i p'⟩
      | .error x => .error x
  | .environment b => match P.env w.shared b with
    | .ok m => .ok ⟨m, w.threads⟩
    | .error x => .error x

variable {P : Program σ π α β χ} {w w' : Pool σ π} {ps : List π} {i : Nat} {Q : π → Prop} {p : π}

theorem Program.step_thread {a : α} (h : P.step w (.thread i a) = .ok w') :
    w' = w ∨ ∃ p m p', w.threads[i]? = some p ∧ P.act w.shared p a = .ok (m, p') ∧
      w' = ⟨m, w.threads.set i p'⟩ := by
  cases hp : w.threads[i]? with
  | none =>
    simp only [step, hp, Except.ok.injEq] at h
    exact .inl h.symm
  | some p =>
    cases hact : P.act w.shared p a with
    | error x => simp [step, hp, hact] at h
    | ok r =>
      simp only [step, hp, hact, Except.ok.injEq] at h
      exact .inr ⟨p, r.1, r.2, rfl, hact, h.symm⟩

theorem Program.step_environment {b : β} (h : P.step w (.environment b) = .ok w') :
    ∃ m, P.env w.shared b = .ok m ∧ w' = ⟨m, w.threads⟩ := by
  cases henv : P.env w.shared b with
  | error x => simp [step, henv] at h
  | ok m =>
    simp only [step, henv, Except.ok.injEq] at h
    exact ⟨m, rfl, h.symm⟩

theorem getElem?_set_cases {i j : Nat} {p q : π} (h : (ps.set i p)[j]? = some q) :
    (j = i ∧ q = p) ∨ (j ≠ i ∧ ps[j]? = some q) := by
  rw [getElem?_set] at h
  split at h
  · next hij =>
    split at h
    · exact .inl ⟨hij.symm, (Option.some.inj h).symm⟩
    · cases h
  · next hij => exact .inr ⟨fun hji => hij hji.symm, h⟩

/-- What holds of the moved thread and still holds of the others holds of every thread. -/
theorem forall_threads_set (hp : Q p) (hothers : ∀ j q, j ≠ i → ps[j]? = some q → Q q) :
    ∀ q ∈ ps.set i p, Q q := by
  intro q hq
  obtain ⟨j, hj⟩ := getElem?_of_mem hq
  obtain ⟨-, rfl⟩ | ⟨hji, hj⟩ := getElem?_set_cases hj
  · exact hp
  · exact hothers j q hji hj

/-- What holds of one thread and of the threads at other places holds of every thread. -/
theorem forall_threads (hi : ps[i]? = some p) (hp : Q p)
    (hothers : ∀ j q, j ≠ i → ps[j]? = some q → Q q) : ∀ q ∈ ps, Q q := by
  intro q hq
  obtain ⟨j, hj⟩ := getElem?_of_mem hq
  by_cases hji : j = i
  · rw [hji, hi] at hj
    exact Option.some.inj hj ▸ hp
  · exact hothers j q hji hj

/-- What holds of every thread after a move held of every thread before it, the moved one apart. -/
theorem forall_threads_of_set {p p' : π} (hi : ps[i]? = some p) (hp : Q p)
    (h : ∀ q ∈ ps.set i p', Q q) : ∀ q ∈ ps, Q q := by
  refine forall_threads hi hp fun j q hji hj => ?_
  rw [← getElem?_set_ne (Ne.symm hji)] at hj
  exact h q (mem_of_getElem? hj)

theorem mem_threads_set {p p' : π} (hi : ps[i]? = some p) : p' ∈ ps.set i p' :=
  mem_of_getElem? (by rw [getElem?_set_self (List.getElem?_eq_some_iff.mp hi).1])

/-- A sum over the threads changes by the part of the one that moves. -/
theorem sum_map_threads_set {M : Type*} [AddCommMonoid M] (f : π → M) (hi : ps[i]? = some p)
    (p' : π) : ((ps.set i p').map f).sum + f p = (ps.map f).sum + f p' := by
  induction ps generalizing i with
  | nil => simp at hi
  | cons q qs ih => cases i with
    | zero =>
      obtain rfl : q = p := by simpa using hi
      simp only [set_cons_zero, map_cons, sum_cons]
      rw [add_right_comm, add_comm (f p'), add_right_comm, add_assoc]
    | succ n =>
      simp only [set_cons_succ, map_cons, sum_cons]
      rw [add_assoc, ih (by simpa using hi), add_assoc]

/-- Each two threads at different places are related. -/
def EachTwo (R : π → π → Prop) (ps : List π) : Prop :=
  ∀ (i j : Nat) (p q : π), i ≠ j → ps[i]? = some p → ps[j]? = some q → R p q

theorem EachTwo.set {R : π → π → Prop} (h : EachTwo R ps)
    (hp : ∀ j q, j ≠ i → ps[j]? = some q → R p q ∧ R q p) : EachTwo R (ps.set i p) := by
  intro j k q r hjk hq hr
  rcases getElem?_set_cases hq with ⟨hji, hqp⟩ | ⟨hji, hq'⟩
  · rcases getElem?_set_cases hr with ⟨hki, -⟩ | ⟨hki, hr'⟩
    · exact absurd (hji.trans hki.symm) hjk
    · exact hqp ▸ (hp k r hki hr').1
  · rcases getElem?_set_cases hr with ⟨-, hrp⟩ | ⟨-, hr'⟩
    · exact hrp ▸ (hp j q hji hq').2
    · exact h j k q r hjk hq' hr'

end LLM42.Library
