import Mathlib.Tactic.Common

/-! # Runs of a fallible transition function

A system is a step function into `Except`; a run that raises has no further states. -/

namespace LLM42.Library

universe u

open List

variable {σ ε χ : Type*}

/-- States reached from a start state by steps that succeed and meet `allowed`. -/
inductive Reachable (step : σ → ε → Except χ σ) (start : σ → Prop) (allowed : σ → ε → Prop) :
    σ → Prop
  | init {s : σ} : start s → Reachable step start allowed s
  | next {s t : σ} {e : ε} : Reachable step start allowed s → allowed s e →
      step s e = .ok t → Reachable step start allowed t

variable {step : σ → ε → Except χ σ} {start : σ → Prop} {allowed : σ → ε → Prop} {ι : Type*}
  {s t : σ}

/-- What holds at the start and is kept by every allowed step holds in every reachable state. -/
theorem Reachable.invariant {Inv : σ → Prop} {s : σ} (h : Reachable step start allowed s)
    (hinit : ∀ s, start s → Inv s)
    (hstep : ∀ s e t, Inv s → allowed s e → step s e = .ok t → Inv t) : Inv s := by
  induction h with
  | init hs => exact hinit _ hs
  | next _ ha he ih => exact hstep _ _ _ ih ha he

def runEvents (step : σ → ε → Except χ σ) (s : σ) : List ε → Except χ σ
  | [] => .ok s
  | e :: es => match step s e with
    | .ok t => runEvents step t es
    | .error x => .error x

/-- Every event of a script meets `allowed` in the state it finds. -/
def runMeets (step : σ → ε → Except χ σ) (allowed : σ → ε → Prop)
    [∀ s e, Decidable (allowed s e)] (s : σ) : List ε → Bool
  | [] => true
  | e :: es => decide (allowed s e) && match step s e with
    | .ok t => runMeets step allowed t es
    | .error _ => true

theorem Reachable.of_runEvents [∀ s e, Decidable (allowed s e)] {es : List ε}
    (hs : Reachable step start allowed s) (hmeets : runMeets step allowed s es)
    (h : runEvents step s es = .ok t) : Reachable step start allowed t := by
  induction es generalizing s with
  | nil =>
    simp only [runEvents, Except.ok.injEq] at h
    exact h ▸ hs
  | cons e es ih =>
    simp only [runMeets, Bool.and_eq_true, decide_eq_true_eq] at hmeets
    cases he : step s e with
    | error x => simp [runEvents, he] at h
    | ok u =>
      simp only [runEvents, he] at h
      exact ih (.next hs hmeets.1 he) (by simpa [he] using hmeets.2) h

/-- A script that runs to its end, with a decidable property of the last state. -/
theorem exists_runEvents (step : σ → ε → Except χ σ) (s : σ) (es : List ε) {p : σ → Prop}
    [DecidablePred p]
    (h : ((runEvents step s es).toOption.map fun t => decide (p t)) = some true) :
    ∃ t, runEvents step s es = .ok t ∧ p t := by
  cases hrun : runEvents step s es with
  | error e =>
    rw [hrun] at h
    cases h
  | ok t =>
    rw [hrun] at h
    exact ⟨t, rfl, of_decide_eq_true (Option.some.inj h)⟩

section Scripts

variable [∀ s e, Decidable (allowed s e)] {p q : σ → Prop} [DecidablePred p] (hs : start s)
  (es : List ε) (h : runMeets step allowed s es ∧
    ((runEvents step s es).toOption.map fun t => decide (p t)) = some true)

include hs h

/-- A script whose events are all allowed reaches a state with a decidable property. -/
theorem exists_reachable : ∃ t, Reachable step start allowed t ∧ p t := by
  obtain ⟨t, hrun, hp⟩ := exists_runEvents step s es h.2
  exact ⟨t, .of_runEvents (.init hs) h.1 hrun, hp⟩

variable (himp : ∀ t, Reachable step start allowed t → p t → q t)

include himp

/-- As `exists_reachable`, with a consequence of what the script was run for. -/
theorem exists_reachable_imp : ∃ t, Reachable step start allowed t ∧ q t := by
  obtain ⟨t, hreach, hp⟩ := exists_reachable hs es h
  exact ⟨t, hreach, himp t hreach hp⟩

variable {es}

/-- As `exists_reachable_imp`, for a script that is part of the statement. -/
theorem exists_runEvents_imp : ∃ t, runEvents step s es = .ok t ∧ q t := by
  obtain ⟨t, hrun, hp⟩ := exists_runEvents step s es h.2
  exact ⟨t, hrun, himp t (.of_runEvents (.init hs) h.1 hrun) hp⟩

end Scripts

/-- Whether a step raised a given error can be evaluated also when states cannot be compared. -/
instance decEqError [DecidableEq χ] (x : Except χ σ) (c : χ) : Decidable (x = .error c) :=
  match x with
  | .ok _ => isFalse nofun
  | .error d => decidable_of_iff (d = c) (by simp)

instance decExistsOk {α : Type*} (x : Except χ α) (p : α → Prop) [DecidablePred p] :
    Decidable (∃ a, x = .ok a ∧ p a) :=
  match x with
  | .ok a => decidable_of_iff (p a) (by simp)
  | .error _ => isFalse (by simp)

/-! ## Loops with a program counter -/

/-- At most `fuel` steps of a loop that carries a state and a program counter. -/
def runLoop {π : Type*} (step : σ → π → σ × π) : ℕ → σ → π → σ × π
  | 0, s, pc => (s, pc)
  | fuel + 1, s, pc => runLoop step fuel (step s pc).1 (step s pc).2

/-- A loop keeps what each step keeps, and with enough fuel nothing is left to do at its end. -/
theorem runLoop_ends {π : Type*} {step : σ → π → σ × π} (Inv : σ → π → Prop) (left : σ → π → ℕ)
    (hstep : ∀ s pc, Inv s pc → Inv (step s pc).1 (step s pc).2 ∧
      left (step s pc).1 (step s pc).2 ≤ left s pc - 1) {fuel : ℕ} {s : σ} {pc : π}
    (h : Inv s pc) (hfuel : left s pc ≤ fuel) :
    Inv (runLoop step fuel s pc).1 (runLoop step fuel s pc).2 ∧
      left (runLoop step fuel s pc).1 (runLoop step fuel s pc).2 = 0 := by
  induction fuel generalizing s pc with
  | zero => exact ⟨h, Nat.le_zero.mp hfuel⟩
  | succ fuel ih =>
    obtain ⟨hinv, hleft⟩ := hstep s pc h
    exact ih hinv (by omega)

theorem bind_eq_ok {α β : Type u} {x : Except χ α} {f : α → Except χ β} {b : β}
    (h : x >>= f = .ok b) : ∃ a, x = .ok a ∧ f a = .ok b := by
  cases x with
  | error e => cases h
  | ok a => exact ⟨a, rfl, h⟩

theorem bind_eq_error {α β : Type u} {x : Except χ α} {f : α → Except χ β} {c : χ}
    (h : x >>= f = .error c) : x = .error c ∨ ∃ a, x = .ok a ∧ f a = .error c := by
  cases x with
  | error e =>
    cases h
    exact .inl rfl
  | ok a => exact .inr ⟨a, rfl, h⟩

theorem foldlM_invariant {op : σ → ι → Except χ σ} (Inv : σ → Prop) {xs : List ι}
    (hop : ∀ s x t, x ∈ xs → Inv s → op s x = .ok t → Inv t) (h : xs.foldlM op s = .ok t)
    (hinv : Inv s) : Inv t := by
  induction xs generalizing s with
  | nil =>
    cases h
    exact hinv
  | cons x xs ih =>
    obtain ⟨u, hu, h⟩ := bind_eq_ok h
    exact ih (fun s y t hy => hop s y t (mem_cons_of_mem _ hy)) h (hop s x u (by simp) hinv hu)

/-- A loop over distinct objects: each pass takes its own object from `Pre` to `Post` and leaves
what holds of the others alone. -/
theorem foldlM_spec {op : σ → ι → Except χ σ} (Inv : σ → Prop) (Pre Post : ι → σ → Prop)
    (hop : ∀ s x t, Inv s → Pre x s → op s x = .ok t →
      Inv t ∧ Post x t ∧ ∀ y, y ≠ x → (Pre y s → Pre y t) ∧ (Post y s → Post y t)) {xs : List ι}
    (hnd : xs.Nodup) (h : xs.foldlM op s = .ok t) (hinv : Inv s) (hpre : ∀ x ∈ xs, Pre x s) :
    Inv t ∧ (∀ x ∈ xs, Post x t) ∧ ∀ y ∉ xs, Post y s → Post y t := by
  induction xs generalizing s with
  | nil =>
    cases h
    exact ⟨hinv, by simp, fun _ _ => id⟩
  | cons x xs ih =>
    obtain ⟨u, hu, h⟩ := bind_eq_ok h
    obtain ⟨hx, hnd'⟩ := nodup_cons.mp hnd
    obtain ⟨hinvu, hpost, hframe⟩ := hop s x u hinv (hpre x (by simp)) hu
    have hpreu : ∀ y ∈ xs, Pre y u := fun y hy =>
      (hframe y fun hyx => hx (hyx ▸ hy)).1 (hpre y (by simp [hy]))
    obtain ⟨hinvt, hposts, hrest⟩ := ih hnd' h hinvu hpreu
    refine ⟨hinvt, ?_, ?_⟩
    · intro y hy
      rcases mem_cons.mp hy with rfl | hy
      · exact hrest y hx hpost
      · exact hposts y hy
    · intro y hy hp
      obtain ⟨hyx, hyxs⟩ := not_or.mp (mem_cons.not.mp hy)
      exact hrest y hyxs ((hframe y hyx).2 hp)

/-- A loop over distinct objects that fails does so at an object that met `Pre`. -/
theorem foldlM_error {op : σ → ι → Except χ σ} (Inv : σ → Prop) (Pre : ι → σ → Prop)
    (hop : ∀ s x t, Inv s → Pre x s → op s x = .ok t → Inv t ∧ ∀ y, y ≠ x → Pre y s → Pre y t)
    {xs : List ι} (hnd : xs.Nodup) {s : σ} {c : χ} (h : xs.foldlM op s = .error c) (hinv : Inv s)
    (hpre : ∀ x ∈ xs, Pre x s) : ∃ x ∈ xs, ∃ u, Pre x u ∧ op u x = .error c := by
  induction xs generalizing s with
  | nil => cases h
  | cons x xs ih =>
    obtain ⟨hx, hnd'⟩ := nodup_cons.mp hnd
    rw [foldlM_cons] at h
    cases hu : op s x with
    | error e =>
      rw [hu] at h
      cases h
      exact ⟨x, by simp, s, hpre x (by simp), hu⟩
    | ok u =>
      rw [hu] at h
      obtain ⟨hinvu, hframe⟩ := hop s x u hinv (hpre x (by simp)) hu
      obtain ⟨y, hy, v, hv⟩ := ih hnd' h hinvu fun y hy =>
        hframe y (fun hyx => hx (hyx ▸ hy)) (hpre y (by simp [hy]))
      exact ⟨y, mem_cons_of_mem _ hy, v, hv⟩

end LLM42.Library
