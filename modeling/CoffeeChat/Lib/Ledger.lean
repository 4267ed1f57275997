import Mathlib.Data.List.Count

/-!
# Ledgers of held resources

The history of acquiring and releasing resources, newest event first, with marks at which nothing may
be held. In a sound history only held resources are released, and so none more often than it was
acquired; a history that is not sound stays so, whatever follows.
-/

universe u

namespace Ledger

inductive Event (α : Type u) where
  | acquire (a : α)
  | release (a : α)
  /-- Nothing may be held from here on, until the next `acquire`. -/
  | settle
  deriving DecidableEq, Repr

variable {α : Type u} [DecidableEq α] {a : α} {history newer : List (Event α)}

def held : List (Event α) → List α
  | [] => []
  | .acquire a :: history => a :: held history
  | .release a :: history => (held history).filter (· ≠ a)
  | .settle :: history => held history

def Sound : List (Event α) → Prop
  | [] => True
  | .acquire _ :: history => Sound history
  | .release a :: history => a ∈ held history ∧ Sound history
  | .settle :: history => held history = [] ∧ Sound history

theorem Sound.of_append (h : Sound (newer ++ history)) : Sound history := by
  induction newer with
  | nil => exact h
  | cons event newer ih =>
    cases event with
    | acquire a => exact ih h
    | release a => exact ih h.2
    | settle => exact ih h.2

theorem count_held_release (a b : α) :
    (held (.release b :: history)).count a = if b = a then 0 else (held history).count a := by
  rw [held]
  by_cases hab : b = a
  · subst hab
    rw [if_pos rfl]
    exact List.count_eq_zero.2 (by simp)
  · rw [if_neg hab]
    exact List.count_filter (by simpa using Ne.symm hab)

theorem Sound.count_le (h : Sound history) (a : α) :
    history.count (.release a) + (held history).count a ≤ history.count (.acquire a) := by
  induction history with
  | nil => simp [held]
  | cons event history ih =>
    cases event with
    | acquire b =>
      have ih := ih h
      simp only [held, List.count_cons, beq_iff_eq, reduceCtorEq, if_false, Event.acquire.injEq]
      omega
    | release b =>
      have ih := ih h.2
      have hheld := List.count_pos_iff.2 h.1
      simp only [count_held_release, List.count_cons, beq_iff_eq, reduceCtorEq, if_false,
        Event.release.injEq]
      by_cases hab : b = a
      · subst hab
        simp only [if_true]
        omega
      · simp only [if_neg hab]
        omega
    | settle =>
      have ih := ih h.2
      simp only [held, List.count_cons, beq_iff_eq, reduceCtorEq, if_false]
      exact ih

theorem Sound.released_le (h : Sound history) (a : α) :
    history.count (.release a) ≤ history.count (.acquire a) :=
  Nat.le_trans (Nat.le_add_right _ _) (h.count_le a)

end Ledger
