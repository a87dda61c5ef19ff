import Mathlib.Data.List.Infix

/-! # Transducers

A transducer reads symbols one at a time and writes a few others at each; at the end of the input
it writes what its last state owes. An input may be read in two parts where nothing is owed. -/

namespace LLM42.Library

structure Transducer (σ α β : Type*) where
  init : σ
  step : σ → α → σ × List β
  /-- what is written when the input ends -/
  flush : σ → List β

namespace Transducer

variable {σ α β : Type*} (t : Transducer σ α β)

def stateAfter (s : σ) : List α → σ
  | [] => s
  | a :: as => stateAfter (t.step s a).1 as

def written (s : σ) : List α → List β
  | [] => []
  | a :: as => (t.step s a).2 ++ written (t.step s a).1 as

def translate (xs : List α) : List β := t.written t.init xs ++ t.flush (t.stateAfter t.init xs)

/-- After the input the transducer is where it started. -/
def Settled (xs : List α) : Prop := t.stateAfter t.init xs = t.init

instance [DecidableEq σ] (xs : List α) : Decidable (t.Settled xs) :=
  inferInstanceAs (Decidable (_ = _))

theorem stateAfter_append (s : σ) (xs ys : List α) :
    t.stateAfter s (xs ++ ys) = t.stateAfter (t.stateAfter s xs) ys := by
  induction xs generalizing s with
  | nil => rfl
  | cons a xs ih => exact ih _

theorem written_append (s : σ) (xs ys : List α) :
    t.written s (xs ++ ys) = t.written s xs ++ t.written (t.stateAfter s xs) ys := by
  induction xs generalizing s with
  | nil => rfl
  | cons a xs ih =>
    simp only [List.cons_append, written, stateAfter, List.append_assoc]
    rw [ih]

@[simp] theorem settled_nil : t.Settled [] := rfl

variable {t}

theorem Settled.append {xs ys : List α} (hx : t.Settled xs) (hy : t.Settled ys) :
    t.Settled (xs ++ ys) := by
  rw [Settled, stateAfter_append, hx, hy]

theorem written_prefix_translate (xs ys : List α) :
    t.written t.init xs <+: t.translate (xs ++ ys) := by
  rw [translate, written_append, List.append_assoc]
  exact List.prefix_append _ _

section

variable (hflush : t.flush t.init = [])
include hflush

theorem Settled.translate_eq {xs : List α} (h : t.Settled xs) :
    t.translate xs = t.written t.init xs := by
  rw [translate, h, hflush, List.append_nil]

/-- From a settled point on, the rest is translated by itself. -/
theorem Settled.translate_append {xs : List α} (h : t.Settled xs) (ys : List α) :
    t.translate (xs ++ ys) = t.translate xs ++ t.translate ys := by
  rw [h.translate_eq hflush, translate, stateAfter_append, written_append, h, translate,
    List.append_assoc]

end

end Transducer

end LLM42.Library
