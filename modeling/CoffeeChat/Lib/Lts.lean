import Mathlib.Data.List.Basic

/-!
# Labelled transition systems

Runs of a system from its initial states, the rule of invariants for them, and the restriction of a
system to the steps that meet a condition: a property of all runs whose steps meet the condition is a
property of the restricted system.
-/

universe u v

structure Lts (S : Type u) (A : Type v) where
  init : S → Prop
  step : S → A → S → Prop

namespace Lts
variable {S : Type u} {A : Type v} {L : Lts S A}

/-- `L.Run as s`: the actions `as`, in this order, lead from an initial state to `s`. -/
inductive Run (L : Lts S A) : List A → S → Prop where
  | nil {s : S} (h : L.init s) : Run L [] s
  | snoc {as : List A} {s : S} {a : A} {s' : S} (h : Run L as s) (hstep : L.step s a s') :
      Run L (as ++ [a]) s'

theorem Run.invariant {I : S → Prop} (h₀ : ∀ s, L.init s → I s)
    (hstep : ∀ s a s', I s → L.step s a s' → I s') {as : List A} {s : S} (h : L.Run as s) : I s := by
  induction h with
  | nil h => exact h₀ _ h
  | snoc _ hs ih => exact hstep _ _ _ ih hs

/-- `L.Path s as s'`: the actions `as`, in this order, lead from `s` to `s'`. -/
inductive Path (L : Lts S A) (s : S) : List A → S → Prop where
  | nil : Path L s [] s
  | snoc {as : List A} {s' : S} {a : A} {s'' : S} (h : Path L s as s') (hstep : L.step s' a s'') :
      Path L s (as ++ [a]) s''

theorem Run.append {as as' : List A} {s s' : S} (h : L.Run as s) (hpath : L.Path s as' s') :
    L.Run (as ++ as') s' := by
  induction hpath with
  | nil => rwa [List.append_nil]
  | snoc _ hs ih =>
    rw [← List.append_assoc]
    exact ih.snoc hs

theorem Path.append {as as' : List A} {s s' s'' : S} (h : L.Path s as s') (hpath : L.Path s' as' s'') :
    L.Path s (as ++ as') s'' := by
  induction hpath with
  | nil => rwa [List.append_nil]
  | snoc _ hs ih =>
    rw [← List.append_assoc]
    exact ih.snoc hs

/-! ### Steps that meet a condition -/

/-- The steps of `L` that meet `P`, a condition on the state before the step and the action. -/
def restrict (L : Lts S A) (P : S → A → Prop) : Lts S A where
  init := L.init
  step s a s' := L.step s a s' ∧ P s a

theorem Run.restrict {P : A → Prop} {as : List A} {s : S} (h : L.Run as s) (hP : ∀ a ∈ as, P a) :
    (L.restrict fun _ a => P a).Run as s := by
  induction h with
  | nil h => exact .nil h
  | snoc _ hs ih =>
    exact (ih fun a ha => hP a (List.mem_append_left _ ha)).snoc ⟨hs, hP _ (by simp)⟩

theorem Path.of_restrict {P : S → A → Prop} {as : List A} {s s' : S} (h : (L.restrict P).Path s as s') :
    L.Path s as s' := by
  induction h with
  | nil => exact .nil
  | snoc _ hs ih => exact ih.snoc hs.1

end Lts
