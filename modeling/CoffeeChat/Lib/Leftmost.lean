import Mathlib.Data.List.Infix
import Mathlib.Logic.Relation

/-!
# Rewriting with one rule, leftmost first

Lists are rewritten by one rule `l → r`, always at the leftmost occurrence of `l`. A replacement can
form a new occurrence with what stands before it and with what stands behind it. Termination follows
from a measure (`ends_of_measure`), or from what a replacement does to the text before it alone
(`ends_of_settled`): the text is read from the left, and what has been read is free of `l`.
-/

universe u

namespace Leftmost

variable {α : Type u} {l r s t : List α}

/-- `l` does not occur in `s`. -/
def Free (l s : List α) : Prop := ¬ l <:+: s

/-- The leftmost occurrence of `l` becomes `r`: no occurrence ends before this one does. -/
inductive Step (l r : List α) : List α → List α → Prop where
  | mk {u : List α} (h : Free l (u ++ l.dropLast)) (v : List α) : Step l r (u ++ l ++ v) (u ++ r ++ v)

def Steps (l r : List α) : List α → List α → Prop := Relation.ReflTransGen (Step l r)

/-- The rewriting of `s` ends. -/
def Ends (l r s : List α) : Prop := ∃ t, Steps l r s t ∧ Free l t

/-- `x` and `y` are the front and the back of `l`, neither of them all of it. -/
structure Cut (l x y : List α) : Prop where
  append_eq : x ++ y = l
  left_ne : x ≠ []
  right_ne : y ≠ []

/-! ### Occurrences -/

theorem Free.of_infix (h : Free l s) (hts : t <:+: s) : Free l t := fun hl => h (hl.trans hts)

theorem Free.left {u v : List α} (h : Free l (u ++ v)) : Free l u :=
  h.of_infix (List.prefix_append u v).isInfix

theorem Cut.length_left {x y : List α} (h : Cut l x y) : x.length < l.length := by
  have hpos := List.length_pos_iff.2 h.right_ne
  rw [← h.append_eq, List.length_append]
  omega

/-- The first occurrence ends where the list ceases to be free. -/
theorem exists_last (hl : l ≠ []) {c : α} (hs : Free l s) (h : ¬ Free l (s ++ [c])) :
    ∃ u, u ++ l = s ++ [c] ∧ Free l (u ++ l.dropLast) := by
  obtain ⟨u, v, huv⟩ := not_not.1 h
  rcases List.eq_nil_or_concat' v with rfl | ⟨v, d, rfl⟩
  · rw [List.append_nil] at huv
    have hinit := congrArg List.dropLast huv
    rw [List.dropLast_append_of_ne_nil hl, List.dropLast_concat] at hinit
    exact ⟨u, huv, by rwa [hinit]⟩
  · rw [← List.append_assoc] at huv
    exact absurd ⟨u, v, (List.append_inj' huv rfl).1⟩ hs

theorem exists_leftmost (hl : l ≠ []) (h : ¬ Free l s) :
    ∃ u v, s = u ++ l ++ v ∧ Free l (u ++ l.dropLast) := by
  induction s using List.reverseRecOn with
  | nil => exact absurd (List.infix_nil.1 (not_not.1 h)) hl
  | append_singleton s c ih =>
    by_cases hs : Free l s
    · obtain ⟨u, hu, hfree⟩ := exists_last hl hs h
      exact ⟨u, [], by rw [List.append_nil, hu], hfree⟩
    · obtain ⟨u, v, rfl, hfree⟩ := ih hs
      exact ⟨u, v ++ [c], by simp, hfree⟩

/-- Two free lists have the first occurrence of their concatenation between them. -/
theorem exists_cut (hl : l ≠ []) (hs : Free l s) (ht : Free l t) (h : ¬ Free l (s ++ t)) :
    ∃ u x y v, s = u ++ x ∧ t = y ++ v ∧ Cut l x y ∧ Free l (u ++ l.dropLast) := by
  obtain ⟨u, v, huv, hfree⟩ := exists_leftmost hl h
  rcases List.append_eq_append_iff.1 huv with ⟨y, hy, rfl⟩ | ⟨b, rfl, -⟩
  · rcases List.append_eq_append_iff.1 hy with ⟨x, rfl, hx⟩ | ⟨b, -, rfl⟩
    · refine ⟨u, x, y, v, rfl, rfl, ⟨hx.symm, ?_, ?_⟩, hfree⟩
      · rintro rfl
        exact ht ⟨[], v, by rw [hx]; rfl⟩
      · rintro rfl
        exact hs ⟨u, [], by rw [hx]; simp⟩
    · exact absurd ⟨b, v, by simp⟩ ht
  · exact absurd ⟨u, b, rfl⟩ hs

theorem suffix_append_cases {x : List α} (h : x <:+ s ++ t) : x <:+ t ∨ ∃ b, x = b ++ t ∧ b <:+ s := by
  obtain ⟨a, ha⟩ := h
  rcases List.append_eq_append_iff.1 ha with ⟨b, rfl, rfl⟩ | ⟨b, -, rfl⟩
  · exact .inr ⟨b, rfl, List.suffix_append a b⟩
  · exact .inl (List.suffix_append b x)

/-! ### Runs -/

theorem Step.append_right (h : Step l r s t) (w : List α) : Step l r (s ++ w) (t ++ w) := by
  cases h with
  | mk h v =>
    rw [List.append_assoc _ v, List.append_assoc _ v]
    exact .mk h (v ++ w)

theorem Steps.append_right (h : Steps l r s t) (w : List α) : Steps l r (s ++ w) (t ++ w) := by
  induction h with
  | refl => exact .refl
  | tail _ hstep ih => exact ih.tail (hstep.append_right w)

theorem Ends.of_steps (h : Steps l r s t) (ht : Ends l r t) : Ends l r s := by
  obtain ⟨z, hz, hfree⟩ := ht
  exact ⟨z, h.trans hz, hfree⟩

theorem Ends.of_free (h : Free l s) : Ends l r s := ⟨s, .refl, h⟩

/-- A replacement at the seam of two lists, `v` being what is left of the second one. -/
theorem steps_seam {u x y v : List α} (hcut : Cut l x y) (hfree : Free l (u ++ l.dropLast)) (hs : s = u ++ x)
    (ht : t = y ++ v) : Steps l r (s ++ t) (u ++ r ++ v) := by
  have heq : s ++ t = u ++ l ++ v := by
    rw [hs, ht, ← hcut.append_eq]
    simp
  rw [heq]
  exact .single (.mk hfree v)

theorem length_le_of_leftmost (hl : l ≠ []) {u u' v v' : List α} (hfree : Free l (u' ++ l.dropLast))
    (h : u ++ l ++ v = u' ++ l ++ v') : u'.length ≤ u.length := by
  by_contra hlt
  have hpos := List.length_pos_iff.2 hl
  have hinit : u' ++ l.dropLast <+: u ++ l ++ v := by
    rw [h]
    exact ((List.prefix_append_right_inj u').2 (List.dropLast_prefix l)).trans (List.prefix_append _ _)
  have hprefix : u ++ l <+: u' ++ l.dropLast := by
    refine List.prefix_of_prefix_length_le (List.prefix_append _ v) hinit ?_
    simp only [List.length_append, List.length_dropLast]
    omega
  exact hfree ((List.suffix_append u l).isInfix.trans hprefix.isInfix)

/-- There is one leftmost occurrence, and so one next list. -/
theorem Step.unique (hl : l ≠ []) {t' : List α} (h : Step l r s t) (h' : Step l r s t') : t = t' := by
  cases h with
  | @mk u hu v =>
    generalize hs : u ++ l ++ v = s at h'
    cases h' with
    | @mk u' hu' v' =>
      have hlen : u.length = u'.length :=
        Nat.le_antisymm (length_le_of_leftmost hl hu hs.symm) (length_le_of_leftmost hl hu' hs)
      rw [List.append_assoc, List.append_assoc] at hs
      obtain ⟨rfl, hrest⟩ := List.append_inj hs hlen
      rw [List.append_cancel_left hrest]

theorem ends_iff_of_step (hl : l ≠ []) (h : Step l r s t) : Ends l r s ↔ Ends l r t := by
  constructor
  · rintro ⟨z, hz, hfree⟩
    rcases Relation.ReflTransGen.cases_head hz with rfl | ⟨t', hstep, hz⟩
    · cases h with
      | @mk u _ v => exact absurd ⟨u, v, rfl⟩ hfree
    · rw [h.unique hl hstep]
      exact ⟨z, hz, hfree⟩
  · exact Ends.of_steps (.single h)

/-! ### Termination -/

theorem ends_of_measure (hl : l ≠ []) (f : List α → Nat) (hf : ∀ s t, Step l r s t → f t < f s)
    (s : List α) : Ends l r s := by
  induction hn : f s using Nat.strong_induction_on generalizing s with
  | _ n ih =>
    by_cases hs : Free l s
    · exact .of_free hs
    · obtain ⟨u, v, rfl, hfree⟩ := exists_leftmost hl hs
      have hstep : Step l r (u ++ l ++ v) (u ++ r ++ v) := .mk hfree v
      exact .of_steps (.single hstep) (ih _ (hn ▸ hf _ _ hstep) _ rfl)

/-- It is enough that every replacement comes to rest together with the text before it. -/
theorem ends_of_settled (hl : l ≠ [])
    (h : ∀ u, Free l (u ++ l.dropLast) → ∃ s, Steps l r (u ++ r) s ∧ Free l s) (s : List α) :
    Ends l r s := by
  suffices hread : ∀ w s, Free l s → Ends l r (s ++ w) by
    exact hread s [] fun hnil => hl (List.infix_nil.1 hnil)
  intro w
  -- the rest of the text, read one element after the other
  induction w with
  | nil =>
    intro s hs
    rw [List.append_nil]
    exact .of_free hs
  | cons c w ih =>
    intro s hs
    rw [List.append_cons]
    by_cases hc : Free l (s ++ [c])
    · exact ih _ hc
    · obtain ⟨u, hu, hfree⟩ := exists_last hl hs hc
      obtain ⟨s', hsteps, hs'⟩ := h u hfree
      rw [← hu]
      have hstep : Step l r (u ++ l ++ w) (u ++ r ++ w) := .mk hfree w
      exact .of_steps ((Relation.ReflTransGen.single hstep).trans (hsteps.append_right w)) (ih s' hs')

end Leftmost
