import Mathlib.Data.List.TakeWhile

/-!
# Maximal runs

`runs p s` is the list of the maximal nonempty runs of elements of `s` with the property `p`, from
left to right: what is left of the pieces between the other elements when the empty ones are
dropped. `Cut` says where a run lies; a list whose runs are known is taken apart with
`runs_eq_cons`.
-/

universe u

variable {α : Type u} {p q : α → Bool} {s t w lead gap rest : List α}

def runs (p : α → Bool) (s : List α) : List (List α) :=
  (s.splitOnP (!p ·)).filter (!·.isEmpty)

/-- The list is empty or starts with an element that is not in a run. -/
def StopsAt (p : α → Bool) (s : List α) : Prop := ∀ a t, s = a :: t → p a = false

/-- `w` is the first run of `s`; `lead` stands before it and `rest` behind it. -/
structure Cut (p : α → Bool) (s lead w rest : List α) : Prop where
  eq : s = lead ++ (w ++ rest)
  lead_blank : ∀ a ∈ lead, p a = false
  ne_nil : w ≠ []
  run : ∀ a ∈ w, p a
  stops : StopsAt p rest

@[simp] theorem runs_nil : runs p [] = [] := rfl

theorem runs_cons_of_not {a : α} (h : p a = false) : runs p (a :: s) = runs p s := by
  simp [runs, List.splitOnP_cons_eq_if_modifyHead, h]

theorem runs_blank_append (h : ∀ a ∈ lead, p a = false) : runs p (lead ++ s) = runs p s := by
  induction lead with
  | nil => rfl
  | cons a lead ih =>
    rw [List.cons_append, runs_cons_of_not (h a (by simp))]
    exact ih fun b hb => h b (List.mem_cons_of_mem _ hb)

theorem runs_append (hne : w ≠ []) (hw : ∀ a ∈ w, p a) (hrest : StopsAt p rest) :
    runs p (w ++ rest) = w :: runs p rest := by
  have hnot : ∀ a ∈ w, (!p a) = false := by
    intro a ha
    rw [hw a ha]; rfl
  have hkeep : (fun v : List α => !v.isEmpty) w = true := by simpa using hne
  cases rest with
  | nil =>
    rw [List.append_nil, runs, List.splitOnP_eq_singleton hnot,
      List.filter_cons_of_pos (p := fun v : List α => !v.isEmpty) hkeep]
    rfl
  | cons a t =>
    have ha : p a = false := hrest a t rfl
    rw [runs, List.splitOnP_append_cons_of_forall_mem hnot a (by rw [ha]; rfl),
      List.filter_cons_of_pos (p := fun v : List α => !v.isEmpty) hkeep,
      runs_cons_of_not ha, runs]

theorem Cut.runs_eq (h : Cut p s lead w rest) : runs p s = w :: runs p rest := by
  rw [h.eq, runs_blank_append h.lead_blank, runs_append h.ne_nil h.run h.stops]

theorem stopsAt_dropWhile (p : α → Bool) (s : List α) : StopsAt p (s.dropWhile p) := by
  intro a t h
  have hne : s.dropWhile p ≠ [] := by rw [h]; exact List.cons_ne_nil _ _
  have hhead := List.head_dropWhile_not p hne
  simpa only [h, List.head_cons] using hhead

theorem cut_or_blank (p : α → Bool) (s : List α) :
    (∃ lead w rest, Cut p s lead w rest) ∨ ∀ a ∈ s, p a = false := by
  by_cases hblank : ∀ a ∈ s, p a = false
  · exact .inr hblank
  refine .inl ⟨s.takeWhile (!p ·), (s.dropWhile (!p ·)).takeWhile p, (s.dropWhile (!p ·)).dropWhile p,
    ?_, ?_, ?_, ?_, stopsAt_dropWhile p _⟩
  · rw [List.takeWhile_append_dropWhile, List.takeWhile_append_dropWhile]
  · intro a ha
    simpa using List.mem_takeWhile_imp ha
  · intro hnil
    cases hs : s.dropWhile (!p ·) with
    | nil => exact hblank (by simpa [List.dropWhile_eq_nil_iff] using hs)
    | cons a t =>
      have ha := stopsAt_dropWhile (!p ·) s a t hs
      rw [hs, List.takeWhile_cons_of_pos (by simpa using ha)] at hnil
      cases hnil
  · intro a ha
    exact List.mem_takeWhile_imp ha

theorem runs_eq_nil : runs p s = [] ↔ ∀ a ∈ s, p a = false := by
  refine ⟨fun h => ?_, fun h => ?_⟩
  · rcases cut_or_blank p s with ⟨lead, w, rest, hcut⟩ | hblank
    · rw [hcut.runs_eq] at h
      cases h
    · exact hblank
  · rw [← List.append_nil s, runs_blank_append h, runs_nil]

theorem runs_eq_cons {ws : List (List α)} :
    runs p s = w :: ws ↔ ∃ lead rest, Cut p s lead w rest ∧ runs p rest = ws := by
  refine ⟨fun h => ?_, ?_⟩
  · rcases cut_or_blank p s with ⟨lead, w', rest, hcut⟩ | hblank
    · rw [hcut.runs_eq] at h
      cases h
      exact ⟨lead, rest, hcut, rfl⟩
    · rw [runs_eq_nil.2 hblank] at h
      cases h
  · rintro ⟨lead, rest, hcut, rfl⟩
    exact hcut.runs_eq

theorem runs_congr (h : ∀ a ∈ s, p a = q a) : runs p s = runs q s := by
  have hsplit : s.splitOnP (!p ·) = s.splitOnP (!q ·) := by
    induction s with
    | nil => rfl
    | cons a s ih =>
      rw [List.splitOnP_cons_eq_if_modifyHead, List.splitOnP_cons_eq_if_modifyHead, h a (by simp),
        ih fun b hb => h b (List.mem_cons_of_mem _ hb)]
  rw [runs, hsplit, runs]

theorem StopsAt.takeWhile_eq (hw : ∀ a ∈ w, p a) (h : StopsAt p rest) : (w ++ rest).takeWhile p = w := by
  rw [List.takeWhile_append_of_pos hw]
  cases rest with
  | nil => simp
  | cons a t => simp [h a t rfl]

theorem StopsAt.dropWhile_eq (hw : ∀ a ∈ w, p a) (h : StopsAt p rest) :
    (w ++ rest).dropWhile p = rest := by
  rw [List.dropWhile_append_of_pos hw]
  cases rest with
  | nil => rfl
  | cons a t => simp [h a t rfl]

theorem Cut.stopsAt_run (h : Cut p s lead w rest) : StopsAt (!p ·) (w ++ rest) := by
  intro a t heq
  obtain ⟨b, w, rfl⟩ := List.exists_cons_of_ne_nil h.ne_nil
  cases heq
  simp [h.run a (by simp)]

theorem Cut.dropWhile_eq (h : Cut p s lead w rest) : s.dropWhile (!p ·) = w ++ rest := by
  rw [h.eq]
  exact h.stopsAt_run.dropWhile_eq fun a ha => by simp [h.lead_blank a ha]

/-- Between two runs something stands. -/
theorem Cut.gap_ne_nil {w' rest' : List α} (h : Cut p s lead w rest) (h' : Cut p rest gap w' rest') :
    gap ≠ [] := by
  rintro rfl
  obtain ⟨a, t, rfl⟩ := List.exists_cons_of_ne_nil h'.ne_nil
  have hstop := h.stops a (t ++ rest') h'.eq
  rw [h'.run a (by simp)] at hstop
  cases hstop

theorem Cut.rest_length_lt (h : Cut p s lead w rest) : rest.length < s.length := by
  have hpos := List.length_pos_iff.2 h.ne_nil
  rw [h.eq, List.length_append, List.length_append]
  omega
