import CoffeeChat.Lib.Leftmost
import Mathlib.Algebra.Order.Ring.Nat
import Mathlib.Data.List.Count

/-!
# Rules whose rewriting ends

Conditions on a rule `l → r`, with `l` not in `r`, under which leftmost rewriting ends from every list:
`r` is not longer than `l`, an element occurs in it less often, or its overlaps with `l` are barred.
A replacement that completes an occurrence with the text before it leaves a rest of itself behind the
next replacement. The rest bars the way to the right if no occurrence can begin in the one and reach
into the other (`LeftBarred`). In the mirror image what a replacement leaves of the one before it bars
the way to the left (`RightBarred`).
-/

universe u

namespace Leftmost

variable {α : Type u} {l r s t : List α}

/-- An occurrence that ends with the front `q` of a replacement begins with `p`, and one that begins
with its back `x` goes on with `y`: the rest behind `q` and `y` contradict each other. -/
def LeftBarred (l r : List α) : Prop :=
  ∀ ⦃x y p q t⦄, Cut l x y → Cut l p q → x <:+ r → q ++ t = r → Free l (p ++ l.dropLast) →
    ¬ y <+: t ∧ ¬ t <+: y

/-- The same with the head before `x` and `p`. -/
def RightBarred (l r : List α) : Prop :=
  ∀ ⦃x y p q s⦄, Cut l x y → Cut l p q → s ++ x = r → q <+: r → Free l (p ++ l.dropLast) →
    ¬ p <:+ s ∧ ¬ s <:+ p

/-! ### Measures -/

theorem ends_of_length_lt (hl : l ≠ []) (h : r.length < l.length) (s : List α) : Ends l r s := by
  refine ends_of_measure hl List.length ?_ s
  rintro _ _ ⟨hfree, v⟩
  simp only [List.length_append]
  omega

theorem ends_of_count_lt [DecidableEq α] (hl : l ≠ []) {c : α} (h : r.count c < l.count c)
    (s : List α) : Ends l r s := by
  refine ends_of_measure hl (List.count c) ?_ s
  rintro _ _ ⟨hfree, v⟩
  simp only [List.count_append]
  omega

/-- The list as a binary number, its digits being the test on the elements. -/
def binary (p : α → Bool) : List α → Nat
  | [] => 0
  | a :: s => (if p a then 2 ^ s.length else 0) + binary p s

theorem binary_lt (p : α → Bool) (s : List α) : binary p s < 2 ^ s.length := by
  induction s with
  | nil => simp [binary]
  | cons a s ih =>
    unfold binary
    rw [List.length_cons, Nat.pow_succ]
    split <;> omega

/-- The first digit that changes decides. -/
theorem binary_append_lt {p : α → Bool} {c e : α} {w w' : List α} (hc : p c = true) (he : p e = false)
    (hlen : w.length = w'.length) (u : List α) : binary p (u ++ e :: w') < binary p (u ++ c :: w) := by
  induction u with
  | nil =>
    have hlt := binary_lt p w'
    simp only [List.nil_append, binary, hc, he, hlen, if_true, Bool.false_eq_true, if_false]
    omega
  | cons a u ih =>
    simp only [List.cons_append, binary, List.length_append, List.length_cons, hlen]
    omega

theorem exists_first_difference (hlen : l.length = r.length) (hne : l ≠ r) :
    ∃ u c e w w', l = u ++ c :: w ∧ r = u ++ e :: w' ∧ c ≠ e := by
  induction l generalizing r with
  | nil => exact absurd (List.length_eq_zero_iff.1 hlen.symm).symm hne
  | cons a l ih =>
    cases r with
    | nil => cases hlen
    | cons b r =>
      by_cases hab : a = b
      · subst hab
        obtain ⟨u, c, e, w, w', rfl, rfl, hce⟩ :=
          ih (Nat.succ.inj hlen) fun h => hne (congrArg (a :: ·) h)
        exact ⟨a :: u, c, e, w, w', rfl, rfl, hce⟩
      · exact ⟨[], a, b, l, r, rfl, rfl, hab⟩

theorem ends_of_length_eq [DecidableEq α] (hl : l ≠ []) (hlen : r.length = l.length) (hne : l ≠ r)
    (s : List α) : Ends l r s := by
  obtain ⟨u, c, e, w, w', rfl, rfl, hce⟩ := exists_first_difference hlen.symm hne
  refine ends_of_measure hl (binary fun a => decide (a = c)) ?_ s
  rintro _ _ ⟨hfree, v⟩
  rename_i pre
  have hw : (w ++ v).length = (w' ++ v).length := by
    simp only [List.length_append, List.length_cons] at hlen ⊢
    omega
  have hlt := binary_append_lt (p := fun a => decide (a = c)) (decide_eq_true rfl)
    (decide_eq_false hce.symm) hw (pre ++ u)
  simpa using hlt

/-! ### What a replacement does to the text before it -/

theorem Free.of_append_cut {u x : List α} (h : Free l (u ++ x ++ l.dropLast)) :
    Free l (x ++ l.dropLast) := by
  rw [List.append_assoc] at h
  exact h.of_infix (List.suffix_append _ _).isInfix

/-- A replacement that completes an occurrence with the text before it is made once more there, with
less text before it; behind it the rest is to be read. -/
theorem settled_of_read (hl : l ≠ []) (hr : Free l r) {Q : List α → Prop}
    (hrest : ∀ u, Free l (u ++ r) → Q (u ++ r))
    (hread : ∀ p q rest s, Cut l p q → q ++ rest = r → Free l (p ++ l.dropLast) → Q s →
      ∃ t, Steps l r (s ++ rest) t ∧ Q t)
    (u : List α) (hu : Free l (u ++ l.dropLast)) : ∃ s, Steps l r (u ++ r) s ∧ Q s := by
  induction hn : u.length using Nat.strong_induction_on generalizing u with
  | _ n ih =>
    by_cases hfree : Free l (u ++ r)
    · exact ⟨u ++ r, .refl, hrest u hfree⟩
    · obtain ⟨u', p, q, rest, rfl, heq, hpq, hu'⟩ := exists_cut hl hu.left hr hfree
      have hshort : u'.length < n := by
        have hpos := List.length_pos_iff.2 hpq.left_ne
        rw [← hn, List.length_append]
        omega
      obtain ⟨s, hsteps, hs⟩ := ih _ hshort u' hu' rfl
      obtain ⟨t, hsteps', ht⟩ := hread p q rest s hpq heq.symm hu.of_append_cut hs
      exact ⟨t, ((steps_seam hpq hu' rfl heq).trans (hsteps.append_right rest)).trans hsteps', ht⟩

/-! ### Overlaps to the left of a replacement -/

section Barred

variable {u x y p q : List α}

/-- A front of `l` at the end of a replacement is a back of it. -/
theorem Cut.suffix (hcut : Cut l x y) (hlen : l.length ≤ r.length) (h : x <:+ u ++ r) : x <:+ r :=
  List.suffix_of_suffix_length_le h (List.suffix_append u r) (hcut.length_left.le.trans hlen)

/-- The fronts of `l` that the list ends with are backs of `r`. -/
def EndsLike (l r s : List α) : Prop := ∀ ⦃x y⦄, Cut l x y → x <:+ s → x <:+ r

/-- The rest of a replacement is read without an occurrence. -/
theorem LeftBarred.read (hbar : LeftBarred l r) (hl : l ≠ []) (hr : Free l r) (hcut : Cut l p q)
    (hp : Free l (p ++ l.dropLast)) {rest : List α} (hrest : q ++ rest = r) (hs : Free l s)
    (hends : EndsLike l r s) : Free l (s ++ rest) ∧ EndsLike l r (s ++ rest) := by
  have hsuffix : rest <:+ r := ⟨q, hrest⟩
  constructor
  · by_contra h
    obtain ⟨u, x, y, v, rfl, rfl, hxy, -⟩ := exists_cut hl hs (hr.of_infix hsuffix.isInfix) h
    have hx : x <:+ r := hends hxy (List.suffix_append u x)
    exact (hbar hxy hcut hx hrest hp).1 (List.prefix_append y v)
  · intro x y hxy hx
    rcases suffix_append_cases hx with hx | ⟨b, rfl, hb⟩
    · exact hx.trans hsuffix
    · -- an occurrence that begins before the rest goes on behind it
      by_cases hb' : b = []
      · subst hb'
        exact hsuffix
      · have hby : Cut l b (rest ++ y) :=
          ⟨by rw [← hxy.append_eq, List.append_assoc], hb', List.append_ne_nil_of_right_ne_nil _ hxy.right_ne⟩
        exact absurd (List.prefix_append rest y) (hbar hby hcut (hends hby hb) hrest hp).2

end Barred

theorem ends_of_leftBarred (hl : l ≠ []) (hr : Free l r) (hlen : l.length ≤ r.length)
    (hbar : LeftBarred l r) (s : List α) : Ends l r s := by
  refine ends_of_settled hl (fun u hu => ?_) s
  have hsettled : ∃ s, Steps l r (u ++ r) s ∧ Free l s ∧ EndsLike l r s := by
    refine settled_of_read hl hr (fun u hfree => ?_) (fun p q rest s hpq hrest hp hs => ?_) u hu
    · exact ⟨hfree, fun x y hxy hx => hxy.suffix hlen hx⟩
    · exact ⟨s ++ rest, .refl, hbar.read hl hr hpq hp hrest hs.1 hs.2⟩
  obtain ⟨s, hsteps, hs, -⟩ := hsettled
  exact ⟨s, hsteps, hs⟩

/-! ### Overlaps to the right of a replacement -/

/-- A free list that ends with a replacement and pieces that are backs of it. -/
inductive Piled (l r : List α) : Nat → List α → Prop where
  | base {g : List α} (h : Free l (g ++ r)) : Piled l r 0 (g ++ r)
  | push {n : Nat} {s w : List α} (hs : Piled l r n s) (hw : w <:+ r) (h : Free l (s ++ w)) :
    Piled l r (n + 1) (s ++ w)

namespace Piled

variable {n m : Nat}

theorem free (h : Piled l r n s) : Free l s := by
  cases h with
  | base h => exact h
  | push _ _ h => exact h

theorem mono (h : Piled l r n s) (hnm : n ≤ m) : Piled l r m s := by
  induction hnm with
  | refl => exact h
  | step _ ih =>
    have hpush := push ih List.nil_suffix (by rw [List.append_nil]; exact ih.free)
    rwa [List.append_nil] at hpush

end Piled

/-- A replacement comes to rest in the place of the end `x` of what is piled. -/
def Pops (l r : List α) (n : Nat) : Prop :=
  ∀ ⦃u x y⦄, Cut l x y → Piled l r n (u ++ x) → Free l (u ++ l.dropLast) →
    ∃ s, Steps l r (u ++ r) s ∧ Piled l r n s

/-- Then a back of the replacement can be read on top. -/
theorem Pops.read (hpops : Pops l r n) (hl : l ≠ []) (hr : Free l r) {v : List α} (hv : v <:+ r)
    (hs : Piled l r n s) : ∃ t, Steps l r (s ++ v) t ∧ Piled l r (n + 1) t := by
  induction hlen : v.length using Nat.strong_induction_on generalizing s v with
  | _ k ih =>
    by_cases hfree : Free l (s ++ v)
    · exact ⟨s ++ v, .refl, hs.push hv hfree⟩
    · obtain ⟨u, x, y, v', rfl, rfl, hcut, hu⟩ := exists_cut hl hs.free (hr.of_infix hv.isInfix) hfree
      obtain ⟨s', hsteps, hs'⟩ := hpops hcut hs hu
      have hshort : v'.length < k := by
        have hpos := List.length_pos_iff.2 hcut.right_ne
        rw [← hlen, List.length_append]
        omega
      obtain ⟨t, hsteps', ht⟩ := ih _ hshort ((List.suffix_append y v').trans hv) hs' rfl
      exact ⟨t, ((steps_seam hcut hu rfl rfl).trans (hsteps.append_right v')).trans hsteps', ht⟩

section RightBarred

variable {u x y p q g h k : List α}

/-- Behind the head of a replacement the next one completes only occurrences that begin before it. -/
theorem RightBarred.exists_eq_append (hbar : RightBarred l r) (hcut : Cut l x y) (hk : k ++ h ++ x = r)
    (hpq : Cut l p q) (hq : q <+: r) (hp : Free l (p ++ l.dropLast)) (hsuffix : p <:+ s ++ h) :
    ∃ b, p = b ++ h ∧ b ≠ [] ∧ b <:+ s := by
  have hnot : ¬ p <:+ h := fun hph =>
    (hbar hcut hpq hk hq hp).1 (hph.trans (List.suffix_append k h))
  rcases suffix_append_cases hsuffix with hph | ⟨b, rfl, hb⟩
  · exact absurd hph hnot
  · refine ⟨b, rfl, ?_, hb⟩
    rintro rfl
    exact hnot List.suffix_rfl

theorem pops_zero (hl : l ≠ []) (hr : Free l r) (hlen : l.length ≤ r.length) (hbar : RightBarred l r) :
    Pops l r 0 := by
  intro u x y hcut hpiled hu
  generalize hs : u ++ x = s at hpiled
  cases hpiled with
  | @base g hfree =>
    obtain ⟨k, hk⟩ : x <:+ r := hcut.suffix hlen (hs ▸ List.suffix_append u x)
    obtain rfl : u = g ++ k := by
      rw [← hk, ← List.append_assoc] at hs
      exact List.append_cancel_right hs
    refine ⟨_, .refl, .base ?_⟩
    by_contra h
    obtain ⟨u', p, q, t, hu', ht, hpq, -⟩ := exists_cut hl hu.left hr h
    rw [hu'] at hu
    have hbarred := hbar hcut hpq hk ⟨t, ht.symm⟩ hu.of_append_cut
    have hpk : p <:+ g ++ k := hu' ▸ List.suffix_append u' p
    rcases List.suffix_or_suffix_of_suffix hpk (List.suffix_append g k) with hpk | hpk
    · exact hbarred.1 hpk
    · exact hbarred.2 hpk

/-- The end `x` is the back of the last piece, and `h` what is left of it. -/
theorem Pops.pop_piece (hpops : Pops l r n) (hl : l ≠ []) (hr : Free l r) (hbar : RightBarred l r)
    (hcut : Cut l x y) (hk : k ++ h ++ x = r) (hs : Piled l r n s)
    (hu : Free l (s ++ h ++ l.dropLast)) :
    ∃ t, Steps l r (s ++ h ++ r) t ∧ Piled l r (n + 1) t := by
  by_cases hfree : Free l (s ++ h ++ r)
  · exact ⟨_, .refl, (Piled.base hfree).mono (Nat.zero_le _)⟩
  · obtain ⟨u, p, q, rest, hsh, hrest, hpq, hu'⟩ := exists_cut hl hu.left hr hfree
    have hp : Free l (p ++ l.dropLast) := by
      rw [hsh] at hu
      exact hu.of_append_cut
    obtain ⟨b, rfl, hb, -⟩ := hbar.exists_eq_append hcut hk hpq ⟨rest, hrest.symm⟩ hp
      (hsh ▸ List.suffix_append u p)
    have hs' : s = u ++ b := by
      rw [← List.append_assoc] at hsh
      exact List.append_cancel_right hsh
    have hcut' : Cut l b (h ++ q) :=
      ⟨by rw [← List.append_assoc, hpq.append_eq], hb, List.append_ne_nil_of_right_ne_nil _ hpq.right_ne⟩
    obtain ⟨s', hsteps, hpiled⟩ := hpops hcut' (hs' ▸ hs) hu'
    obtain ⟨t, hsteps', ht⟩ := hpops.read hl hr ⟨q, hrest.symm⟩ hpiled
    exact ⟨t, ((steps_seam hpq hu' hsh hrest).trans (hsteps.append_right rest)).trans hsteps', ht⟩

theorem pops_succ (hl : l ≠ []) (hr : Free l r) (hbar : RightBarred l r) (hpops : Pops l r n) :
    Pops l r (n + 1) := by
  intro u x y hcut hpiled hu
  generalize hs : u ++ x = s at hpiled
  cases hpiled with
  | @push n s w hpiled hw hfree =>
    obtain ⟨k, hk⟩ := hw
    rcases List.append_eq_append_iff.1 hs with ⟨b, rfl, rfl⟩ | ⟨h, rfl, rfl⟩
    · by_cases hb : b = []
      · subst hb
        rw [List.append_nil] at hpiled
        have hpop := hpops.pop_piece (h := []) hl hr hbar hcut (by rw [List.append_nil]; exact hk) hpiled
        rw [List.append_nil] at hpop
        exact hpop hu
      · -- the end is longer than the last piece
        have hcut' : Cut l b (w ++ y) := ⟨by rw [← hcut.append_eq, List.append_assoc], hb,
          List.append_ne_nil_of_right_ne_nil _ hcut.right_ne⟩
        obtain ⟨s', hsteps, hs'⟩ := hpops hcut' hpiled hu
        exact ⟨s', hsteps, hs'.mono (Nat.le_succ n)⟩
    · exact hpops.pop_piece hl hr hbar hcut (by rw [List.append_assoc]; exact hk) hpiled hu

theorem pops_of_rightBarred (hl : l ≠ []) (hr : Free l r) (hlen : l.length ≤ r.length)
    (hbar : RightBarred l r) (n : Nat) : Pops l r n := by
  induction n with
  | zero => exact pops_zero hl hr hlen hbar
  | succ n ih => exact pops_succ hl hr hbar ih

end RightBarred

theorem ends_of_rightBarred (hl : l ≠ []) (hr : Free l r) (hlen : l.length ≤ r.length)
    (hbar : RightBarred l r) (s : List α) : Ends l r s := by
  refine ends_of_settled hl (fun u hu => ?_) s
  have hsettled : ∃ s, Steps l r (u ++ r) s ∧ ∃ n, Piled l r n s := by
    refine settled_of_read hl hr (fun u hfree => ⟨0, .base hfree⟩) (fun p q rest s _ hrest _ hs => ?_) u hu
    obtain ⟨n, hs⟩ := hs
    obtain ⟨t, hsteps, ht⟩ := (pops_of_rightBarred hl hr hlen hbar n).read hl hr ⟨q, hrest⟩ hs
    exact ⟨t, hsteps, n + 1, ht⟩
  obtain ⟨s, hsteps, n, hs⟩ := hsettled
  exact ⟨s, hsteps, hs.free⟩

/-! ### One list -/

section Clear

variable [DecidableEq α] {u w : List α} {c : α}

/-- The list is read from the left, `s` being what has been read and replaced: no replacement completes
an occurrence with the text before it. -/
def ReadsClear (l r : List α) : List α → List α → Prop
  | _, [] => True
  | s, c :: w =>
    if l <:+ s ++ [c] then
      let s := (s ++ [c]).take (s.length + 1 - l.length) ++ r
      Free l s ∧ ReadsClear l r s w
    else ReadsClear l r (s ++ [c]) w

theorem readsClear_cons_of_last (h : u ++ l = s ++ [c]) :
    ReadsClear l r s (c :: w) ↔ Free l (u ++ r) ∧ ReadsClear l r (u ++ r) w := by
  have htake : (s ++ [c]).take (s.length + 1 - l.length) = u := by
    have hlen := congrArg List.length h
    simp only [List.length_append, List.length_singleton] at hlen
    rw [← h, show s.length + 1 - l.length = u.length by omega, List.take_left]
  rw [ReadsClear, if_pos ⟨u, h⟩, htake]

theorem readsClear_cons_of_free (h : Free l (s ++ [c])) :
    ReadsClear l r s (c :: w) ↔ ReadsClear l r (s ++ [c]) w := by
  rw [ReadsClear, if_neg fun hl => h hl.isInfix]

theorem ends_of_readsClear (hl : l ≠ []) (hs : Free l s) (h : ReadsClear l r s w) :
    Ends l r (s ++ w) := by
  induction w generalizing s with
  | nil =>
    rw [List.append_nil]
    exact .of_free hs
  | cons c w ih =>
    rw [List.append_cons]
    by_cases hc : Free l (s ++ [c])
    · exact ih hc ((readsClear_cons_of_free hc).1 h)
    · obtain ⟨u, hu, hfree⟩ := exists_last hl hs hc
      obtain ⟨hs', hw⟩ := (readsClear_cons_of_last hu).1 h
      have hstep : Step l r (u ++ l ++ w) (u ++ r ++ w) := .mk hfree w
      rw [← hu]
      exact .of_steps (.single hstep) (ih hs' hw)

/-- The conditions on the rule, and the one on the rule and the list. -/
inductive Settles (l r s : List α) : Prop where
  | short (h : r.length ≤ l.length)
  | fewer (c : α) (h : r.count c < l.count c)
  | leftBarred (h : LeftBarred l r)
  | rightBarred (h : RightBarred l r)
  | clear (h : ReadsClear l r [] s)

theorem Settles.ends (hl : l ≠ []) (hr : Free l r) (h : Settles l r s) : Ends l r s := by
  have hne : l ≠ r := by
    rintro rfl
    exact hr List.infix_rfl
  by_cases hlen : r.length ≤ l.length
  · rcases Nat.lt_or_eq_of_le hlen with hlt | heq
    · exact ends_of_length_lt hl hlt s
    · exact ends_of_length_eq hl heq hne s
  · rcases h with h | ⟨c, h⟩ | h | h | h
    · exact absurd h hlen
    · exact ends_of_count_lt hl h s
    · exact ends_of_leftBarred hl hr (Nat.le_of_not_le hlen) h s
    · exact ends_of_rightBarred hl hr (Nat.le_of_not_le hlen) h s
    · exact ends_of_readsClear hl (s := []) (fun hnil => hl (List.infix_nil.1 hnil)) h

end Clear

end Leftmost
