import CoffeeChat.Lib.LeftmostEnds

/-!
# Rules with a short left side

For a left side of at most two elements the conditions of `Settles` are necessary too. If none of them
holds, the left side is a pair of different elements, the replacement begins with the second one twice
and ends with the first one twice (`Grows`), and some replacement in the list meets an element beside
it with which it forms the next one, for ever (`Overlaid`).
-/

universe u

namespace Leftmost

variable {α : Type u} {a b : α} {l r s t u v w : List α}

structure Grows (a b : α) (r : List α) : Prop where
  ne : a ≠ b
  front : [b, b] <+: r
  back : [a, a] <:+ r

/-- An occurrence of the pair has the first element before it, the second one behind it, or another
occurrence directly behind it. -/
def Overlaid (a b : α) (s : List α) : Prop := [a, a, b] <:+: s ∨ [a, b, b] <:+: s ∨ [a, b, a, b] <:+: s

theorem Overlaid.of_infix (h : Overlaid a b s) (hst : s <:+: t) : Overlaid a b t := by
  rcases h with h | h | h
  · exact .inl (h.trans hst)
  · exact .inr (.inl (h.trans hst))
  · exact .inr (.inr (h.trans hst))

theorem Overlaid.not_free (h : Overlaid a b s) : ¬ Free [a, b] s := by
  intro hfree
  rcases h with h | h | h
  · exact hfree (List.IsInfix.trans ⟨[a], [], rfl⟩ h)
  · exact hfree (List.IsInfix.trans ⟨[], [b], rfl⟩ h)
  · exact hfree (List.IsInfix.trans ⟨[], [a, b], rfl⟩ h)

/-- Where a list with the pair in it can lie around the first occurrence of the pair. -/
theorem infix_around_first (hne : a ≠ b) (hu : Free [a, b] u) {f : List α} (hf : [a, b] <:+: a :: f)
    (h : a :: f <:+: u ++ a :: b :: v) :
    (∃ f₁ f₂, f = f₁ ++ a :: f₂ ∧ a :: f₁ <:+ u) ∨ f <+: b :: v ∨ a :: f <:+: v := by
  rcases List.infix_append_iff_ne_nil.1 h with h | h | ⟨f₁, f₂, hf₁, hf₂, heq, hu₁, hv₂⟩
  · exact absurd (hf.trans h) hu
  · rcases List.infix_cons_iff.1 h with h | h
    · exact .inr (.inl (List.cons_prefix_cons.1 h).2)
    · rcases List.infix_cons_iff.1 h with h | h
      · exact absurd (List.cons_prefix_cons.1 h).1 hne
      · exact .inr (.inr h)
  · obtain ⟨c, f₁, rfl⟩ := List.exists_cons_of_ne_nil hf₁
    obtain ⟨d, f₂, rfl⟩ := List.exists_cons_of_ne_nil hf₂
    obtain ⟨rfl, -⟩ := List.cons_prefix_cons.1 hv₂
    obtain ⟨rfl, rfl⟩ := List.cons.inj heq
    exact .inl ⟨f₁, f₂, rfl, hu₁⟩

/-- Around the first occurrence there is such an overlay, or there is one behind it. -/
theorem Overlaid.around_first (hne : a ≠ b) (hu : Free [a, b] u)
    (h : Overlaid a b (u ++ a :: b :: v)) :
    [a] <:+ u ∨ [b] <+: v ∨ [a, b] <+: v ∨ Overlaid a b v := by
  rcases h with h | h | h
  · rcases infix_around_first (f := [a, b]) hne hu ⟨[a], [], rfl⟩ h with ⟨f₁, f₂, hf, hu₁⟩ | hv | hv
    · cases f₁ with
      | nil => exact .inl hu₁
      | cons c f₁ =>
        have hmem : a ∈ [b] := by
          rw [(List.cons.inj hf).2]
          simp
        exact absurd (List.mem_singleton.1 hmem) hne
    · exact absurd (List.cons_prefix_cons.1 hv).1 hne
    · exact .inr (.inr (.inr (.inl hv)))
  · rcases infix_around_first (f := [b, b]) hne hu ⟨[], [b], rfl⟩ h with ⟨f₁, f₂, hf, -⟩ | hv | hv
    · have hmem : a ∈ [b, b] := by
        rw [hf]
        simp
      exact absurd (by simpa using hmem) hne
    · exact .inr (.inl (List.cons_prefix_cons.1 hv).2)
    · exact .inr (.inr (.inr (.inr (.inl hv))))
  · rcases infix_around_first (f := [b, a, b]) hne hu ⟨[], [a, b], rfl⟩ h with ⟨f₁, f₂, hf, hu₁⟩ | hv | hv
    · cases f₁ with
      | nil => exact absurd (List.cons.inj hf).1.symm hne
      | cons c f₁ =>
        obtain rfl : b = c := (List.cons.inj hf).1
        have hpair : [a, b] <:+: u := List.IsInfix.trans ⟨[], f₁, rfl⟩ hu₁.isInfix
        exact absurd hpair hu
    · exact .inr (.inr (.inl (List.cons_prefix_cons.1 hv).2))
    · exact .inr (.inr (.inr (.inr (.inr hv))))

theorem Overlaid.step (hgrows : Grows a b r) (h : Step [a, b] r s t) (hs : Overlaid a b s) :
    Overlaid a b t := by
  obtain ⟨hne, ⟨front, hfront⟩, ⟨back, hback⟩⟩ := hgrows
  cases h with
  | @mk u hu v =>
    rw [List.append_assoc] at hs
    rcases Overlaid.around_first hne hu.left hs with ⟨u', rfl⟩ | ⟨v', rfl⟩ | ⟨v', rfl⟩ | hv
    · exact .inr (.inl ⟨u', front ++ v, by rw [← hfront]; simp⟩)
    · exact .inl ⟨u ++ back, v', by rw [← hback]; simp⟩
    · exact .inl ⟨u ++ back ++ [a], v', by rw [← hback]; simp⟩
    · exact hv.of_infix (List.suffix_append _ v).isInfix

theorem Overlaid.steps (hgrows : Grows a b r) (h : Steps [a, b] r s t) (hs : Overlaid a b s) :
    Overlaid a b t := by
  induction h with
  | refl => exact hs
  | tail _ hstep ih => exact ih.step hgrows hstep

theorem not_ends_of_overlaid (hgrows : Grows a b r) (hs : Overlaid a b s) : ¬ Ends [a, b] r s := by
  rintro ⟨t, hsteps, hfree⟩
  exact (hs.steps hgrows hsteps).not_free hfree

/-! ### The conditions -/

theorem cut_pair {x y : List α} (h : Cut [a, b] x y) : x = [a] ∧ y = [b] := by
  obtain ⟨c, x, rfl⟩ := List.exists_cons_of_ne_nil h.left_ne
  obtain ⟨rfl, htail⟩ := List.cons.inj h.append_eq
  cases x with
  | nil => exact ⟨rfl, htail⟩
  | cons d x => exact absurd (List.append_eq_nil_iff.1 (List.cons.inj htail).2).2 h.right_ne

/-- What is left of the two conditions on overlaps, and of the one on lengths. -/
theorem grows_of_not_barred (hlen : 2 < r.length) (hleft : ¬ LeftBarred [a, b] r)
    (hright : ¬ RightBarred [a, b] r) : Grows a b r := by
  refine ⟨?_, ?_, ?_⟩
  · rintro rfl
    refine hleft fun x y p q t _ hpq _ _ hp => ?_
    obtain ⟨rfl, rfl⟩ := cut_pair hpq
    exact absurd List.infix_rfl hp
  · by_contra hfront
    refine hleft fun x y p q t hxy hpq _ ht _ => ?_
    obtain ⟨rfl, rfl⟩ := cut_pair hxy
    obtain ⟨rfl, rfl⟩ := cut_pair hpq
    subst ht
    refine ⟨fun h => hfront (List.cons_prefix_cons.2 ⟨rfl, h⟩), fun h => ?_⟩
    have hle := h.length_le
    simp only [List.length_append, List.length_singleton] at hle hlen
    omega
  · by_contra hback
    refine hright fun x y p q s hxy hpq hs _ _ => ?_
    obtain ⟨rfl, rfl⟩ := cut_pair hxy
    obtain ⟨rfl, rfl⟩ := cut_pair hpq
    subst hs
    refine ⟨fun ⟨u, hu⟩ => hback ⟨u, by rw [← hu]; simp⟩, fun h => ?_⟩
    have hle := h.length_le
    simp only [List.length_append, List.length_singleton] at hle hlen
    omega

variable [DecidableEq α]

/-- A replacement that completes an occurrence with the text before it has the first element there. -/
theorem not_ends_of_not_readsClear (hgrows : Grows a b r) (hr : Free [a, b] r) (hs : Free [a, b] s)
    (h : ¬ ReadsClear [a, b] r s w) : ¬ Ends [a, b] r (s ++ w) := by
  have hl : [a, b] ≠ [] := List.cons_ne_nil a [b]
  induction w generalizing s with
  | nil => exact absurd trivial h
  | cons c w ih =>
    rw [List.append_cons]
    by_cases hc : Free [a, b] (s ++ [c])
    · exact ih hc fun hw => h ((readsClear_cons_of_free hc).2 hw)
    · obtain ⟨u, hu, hfree⟩ := exists_last hl hs hc
      rw [readsClear_cons_of_last hu, not_and] at h
      rw [← hu]
      by_cases hur : Free [a, b] (u ++ r)
      · have hstep : Step [a, b] r (u ++ [a, b] ++ w) (u ++ r ++ w) := .mk hfree w
        rw [ends_iff_of_step hl hstep]
        exact ih hur (h hur)
      · obtain ⟨u', x, y, v, rfl, -, hxy, -⟩ := exists_cut hl hfree.left hr hur
        obtain ⟨rfl, -⟩ := cut_pair hxy
        exact not_ends_of_overlaid hgrows (.inl ⟨u', w, by simp⟩)

/-- For at most two elements on the left side exactly these rules and lists end. -/
theorem settles_of_ends (hl : l ≠ []) (hr : Free l r) (hlen : l.length ≤ 2) (h : Ends l r s) :
    Settles l r s := by
  by_contra hsettles
  have hlong : l.length < r.length := Nat.lt_of_not_le fun hshort => hsettles (.short hshort)
  have hcount : ∀ c, l.count c ≤ r.count c := fun c => Nat.le_of_not_lt fun hlt => hsettles (.fewer c hlt)
  obtain ⟨a, l, rfl⟩ := List.exists_cons_of_ne_nil hl
  cases l with
  | nil =>
    have hmem : a ∈ r := List.count_pos_iff.1 (Nat.lt_of_lt_of_le (by simp) (hcount a))
    exact hr ((List.singleton_infix_iff a r).2 hmem)
  | cons b l =>
    obtain rfl : l = [] := by
      simp only [List.length_cons] at hlen
      exact List.length_eq_zero_iff.1 (by omega)
    have hgrows : Grows a b r := grows_of_not_barred hlong (fun h => hsettles (.leftBarred h))
      fun h => hsettles (.rightBarred h)
    have hnil : Free [a, b] [] := fun hnil => hl (List.infix_nil.1 hnil)
    exact not_ends_of_not_readsClear hgrows hr hnil (fun h => hsettles (.clear h)) h

end Leftmost
