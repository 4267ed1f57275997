import CoffeeChat.Lib.LeftmostPair
import CoffeeChat.RobotServer

/-!
# The loop of `replace_all`

`TcpServer::replace_all` searches from the beginning after each replacement, so it is leftmost
rewriting with the rule `mark → replacement`: it ends exactly if the rewriting does, and leaves no mark
(`removes_iff_ends`). A replacement without the mark in it can still form the mark together with the
characters around it: for the mark `ab` and the replacement `bbaa` the loop goes on for ever from `aab`.
-/

namespace CoffeeChat.TcpServer
open Leftmost

variable {α : Type} [DecidableEq α] {mark replacement s t : List α}

/-- The loop ends, and the mark is in what it leaves no more. -/
def Removes (origin mark replacement : List α) : Prop :=
  ∃ fuel out, replaceAll fuel origin mark replacement = some out ∧ ¬ mark <:+: out

/-! ### Rounds of the loop -/

theorem find_of_free (hmark : mark ≠ []) (h : Free mark s) : find mark s = none := by
  induction s with
  | nil => rw [find, if_neg hmark]
  | cons a s ih =>
    rw [find, if_neg fun hp => h hp.isInfix, ih (h.of_infix (List.suffix_cons a s).isInfix)]
    rfl

/-- `find` returns the index of the leftmost occurrence. -/
theorem find_of_leftmost (hmark : mark ≠ []) {u : List α} (h : Free mark (u ++ mark.dropLast))
    (v : List α) : find mark (u ++ mark ++ v) = some u.length := by
  induction u with
  | nil =>
    obtain ⟨a, mark, rfl⟩ := List.exists_cons_of_ne_nil hmark
    have hhead : a :: mark <+: a :: (mark ++ v) := List.prefix_append (a :: mark) v
    rw [List.nil_append, List.cons_append, find, if_pos hhead]
    rfl
  | cons a u ih =>
    have hrest : Free mark (u ++ mark.dropLast) := h.of_infix (List.suffix_cons a _).isInfix
    have hhead : ¬ mark <+: a :: (u ++ mark ++ v) := by
      rintro ⟨v', hv⟩
      have heq : [] ++ mark ++ v' = a :: u ++ mark ++ v := hv
      exact absurd (length_le_of_leftmost hmark h heq) (Nat.not_succ_le_zero _)
    rw [List.cons_append, List.cons_append, find, if_neg hhead, ih hrest]
    rfl

theorem replaceAll_of_free (hmark : mark ≠ []) (h : Free mark s) (fuel : Nat) :
    replaceAll (fuel + 1) s mark replacement = some s := by
  rw [replaceAll, find_of_free hmark h]

theorem replaceAll_of_step (hmark : mark ≠ []) (h : Step mark replacement s t) (fuel : Nat) :
    replaceAll (fuel + 1) s mark replacement = replaceAll fuel t mark replacement := by
  cases h with
  | @mk u hfree v =>
    have hreplace : replace (u ++ mark ++ v) u.length mark replacement = u ++ replacement ++ v := by
      unfold replace
      rw [List.append_assoc u mark, List.take_left, ← List.append_assoc, ← List.length_append,
        List.drop_left]
    rw [replaceAll, find_of_leftmost hmark hfree]
    dsimp only
    rw [hreplace]

/-! ### The loop -/

theorem ends_of_replaceAll (hmark : mark ≠ []) {fuel : Nat} {out : List α}
    (h : replaceAll fuel s mark replacement = some out) :
    Steps mark replacement s out ∧ Free mark out := by
  induction fuel generalizing s with
  | zero => cases h
  | succ fuel ih =>
    by_cases hs : Free mark s
    · rw [replaceAll_of_free hmark hs] at h
      cases h
      exact ⟨.refl, hs⟩
    · obtain ⟨u, v, rfl, hfree⟩ := exists_leftmost hmark hs
      have hstep : Step mark replacement (u ++ mark ++ v) (u ++ replacement ++ v) := .mk hfree v
      rw [replaceAll_of_step hmark hstep] at h
      obtain ⟨hsteps, hout⟩ := ih h
      exact ⟨hsteps.head hstep, hout⟩

theorem replaceAll_of_steps (hmark : mark ≠ []) (h : Steps mark replacement s t) (ht : Free mark t) :
    ∃ fuel, replaceAll fuel s mark replacement = some t := by
  induction h using Relation.ReflTransGen.head_induction_on with
  | refl => exact ⟨1, replaceAll_of_free hmark ht 0⟩
  | head hstep _ ih =>
    obtain ⟨fuel, hfuel⟩ := ih
    exact ⟨fuel + 1, by rw [replaceAll_of_step hmark hstep, hfuel]⟩

/-- The loop is leftmost rewriting. -/
theorem removes_iff_ends (hmark : mark ≠ []) : Removes s mark replacement ↔ Ends mark replacement s := by
  constructor
  · rintro ⟨fuel, out, h, -⟩
    exact ⟨out, ends_of_replaceAll hmark h⟩
  · rintro ⟨out, hsteps, hout⟩
    obtain ⟨fuel, hfuel⟩ := replaceAll_of_steps hmark hsteps hout
    exact ⟨fuel, out, hfuel, hout⟩

/-- What the loop leaves has no mark. It ends for the rules and texts of `Settles`, and for a mark of at
most two characters for no other ones. -/
theorem replaceAll_removes (hmark : mark ≠ []) (hreplacement : ¬ mark <:+: replacement)
    (origin : List α) :
    (∀ fuel out, replaceAll fuel origin mark replacement = some out → ¬ mark <:+: out) ∧
      (Settles mark replacement origin → Removes origin mark replacement) ∧
        (mark.length ≤ 2 → Removes origin mark replacement → Settles mark replacement origin) := by
  refine ⟨?_, ?_, ?_⟩
  · intro fuel out h
    exact (ends_of_replaceAll hmark h).2
  · intro h
    exact (removes_iff_ends hmark).2 (h.ends hmark hreplacement)
  · intro hlen h
    exact settles_of_ends hmark hreplacement hlen ((removes_iff_ends hmark).1 h)

theorem replaceAll_removes_ab :
    (∀ fuel out, replaceAll fuel ['a', 'a', 'b'] ['a', 'b'] ['b', 'c', 'a'] = some out →
        ¬ ['a', 'b'] <:+: out) ∧
      (Settles ['a', 'b'] ['b', 'c', 'a'] ['a', 'a', 'b'] →
        Removes ['a', 'a', 'b'] ['a', 'b'] ['b', 'c', 'a']) ∧
      (['a', 'b'].length ≤ 2 → Removes ['a', 'a', 'b'] ['a', 'b'] ['b', 'c', 'a'] →
        Settles ['a', 'b'] ['b', 'c', 'a'] ['a', 'a', 'b']) :=
  replaceAll_removes (List.cons_ne_nil _ _) (by decide) ['a', 'a', 'b']

/-- From `aab` the replacements of `ab` by `bbaa` do not end. -/
theorem not_removes_aab : ¬ ∀ origin mark replacement : List Char, mark ≠ [] →
    ¬ mark <:+: replacement → Removes origin mark replacement := by
  intro h
  have hmark : ['a', 'b'] ≠ [] := List.cons_ne_nil _ _
  have hends := (removes_iff_ends hmark).1 (h ['a', 'a', 'b'] ['a', 'b'] ['b', 'b', 'a', 'a'] hmark (by decide))
  have hgrows : Grows 'a' 'b' ['b', 'b', 'a', 'a'] := ⟨by decide, by decide, by decide⟩
  exact not_ends_of_overlaid hgrows (.inl List.infix_rfl) hends

end CoffeeChat.TcpServer
