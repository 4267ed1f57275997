import CoffeeChat.Trie

/-!
# Detecting sensitive words

`Trie::search` in the version without stop characters. A loop from a node stops at the first end mark,
and a byte `kEndFlag` inside of a word is one; so of every inserted word exactly its `stem` is found
(`search_build`), as it was inserted, in the lower-cased text. `detects_iff` says which dictionaries
are detected completely and soundly, those of plain words among them (`detects_of_plain`).
-/

namespace CoffeeChat
open Cpp

namespace TrieNode

/-- The loop of `search`; `fuel` bounds the rounds that are left. -/
def searchLoop (root : TrieNode) (word : Bytes) : Nat → Nat → Bool
  | 0, _ => false
  | fuel + 1, p2 =>
    if p2 < word.length then
      if root.getSensitiveLength word p2 > 0 then true else root.searchLoop word fuel (p2 + 1)
    else false

/-- `Trie::search`. -/
def search (root : TrieNode) (word : Bytes) : Bool :=
  root.searchLoop (word.map tolower) word.length 0

/-! ### Where the loop of `getSensitiveLength` stops -/

/-- Some node on the way of the text has an end mark. -/
def Ends : TrieNode → Bytes → Prop
  | node, [] => (node.getSubNode kEndFlag).isSome
  | node, c :: text => (node.getSubNode kEndFlag).isSome ∨
    ∃ subNode, node.getSubNode c = some subNode ∧ subNode.Ends text

/-- The same from the root, whose own end mark is not looked at. -/
def Finds : TrieNode → Bytes → Prop
  | _, [] => False
  | root, c :: text => ∃ subNode, root.getSubNode c = some subNode ∧ subNode.Ends text

/-- What is found of a word: its first byte, and on up to the first byte that is an end mark. -/
def stem : Bytes → Bytes
  | [] => []
  | c :: word => c :: word.takeWhile (· ≠ kEndFlag)

section Ends

variable {node : TrieNode} {c d : UInt8} {word text : Bytes}

theorem not_ends_empty (text : Bytes) : ¬ empty.Ends text := by
  cases text <;> simp [Ends]

theorem ends_of_mark (h : (node.getSubNode kEndFlag).isSome) (text : Bytes) : node.Ends text := by
  cases text with
  | nil => exact h
  | cons c text => exact .inl h

theorem ends_getD : ((node.getSubNode c).getD empty).Ends text ↔
    ∃ subNode, node.getSubNode c = some subNode ∧ subNode.Ends text := by
  cases node.getSubNode c with
  | none => simp [not_ends_empty]
  | some subNode => simp

/-- Whatever the node held before, insertion adds the word up to its first end mark. -/
theorem ends_insert : (node.insert word).Ends text ↔
    word.takeWhile (· ≠ kEndFlag) <+: text ∨ node.Ends text := by
  induction word generalizing node text with
  | nil =>
    refine iff_of_true (ends_of_mark ?_ text) (.inl (List.nil_prefix))
    rw [insert, getSubNode_addSubNode, if_pos rfl]
    rfl
  | cons d word ih =>
    by_cases hd : d = kEndFlag
    · subst hd
      refine iff_of_true (ends_of_mark ?_ text) (.inl ?_)
      · rw [insert, getSubNode_addSubNode, if_pos rfl]
        rfl
      · rw [List.takeWhile_cons_of_neg (by simp)]
        exact List.nil_prefix
    · rw [List.takeWhile_cons_of_pos (by simpa using hd), insert]
      cases text with
      | nil => simp [Ends, getSubNode_addSubNode, Ne.symm hd]
      | cons c text =>
        simp only [Ends, getSubNode_addSubNode, if_neg (Ne.symm hd), List.cons_prefix_cons]
        by_cases hcd : c = d
        · subst hcd
          simp only [if_true, Option.some.injEq, exists_eq_left', true_and, ih, ends_getD]
          rw [or_left_comm]
        · simp [hcd, Ne.symm hcd]

theorem finds_insert (hne : word ≠ []) : (node.insert word).Finds text ↔
    stem word <+: text ∨ node.Finds text := by
  obtain ⟨d, word, rfl⟩ := List.exists_cons_of_ne_nil hne
  cases text with
  | nil => simp [Finds, stem]
  | cons c text =>
    simp only [Finds, stem, insert, getSubNode_addSubNode, List.cons_prefix_cons]
    by_cases hcd : c = d
    · subst hcd
      simp only [if_true, Option.some.injEq, exists_eq_left', true_and, ends_insert, ends_getD]
    · simp [hcd, Ne.symm hcd]

theorem finds_build {words : List Bytes} (hne : ∀ w ∈ words, w ≠ []) :
    (build words).Finds text ↔ ∃ w ∈ words, stem w <+: text := by
  have hfold : ∀ node : TrieNode, (words.foldl insert node).Finds text ↔
      (∃ w ∈ words, stem w <+: text) ∨ node.Finds text := by
    induction words with
    | nil => simp
    | cons w words ih =>
      intro node
      rw [List.foldl_cons, ih fun u hu => hne u (List.mem_cons_of_mem _ hu), finds_insert (hne w (by simp))]
      simp only [List.mem_cons, exists_eq_or_imp]
      rw [or_left_comm, or_assoc]
  rw [build, hfold, or_iff_left]
  cases text <;> simp [Finds]

/-! ### The loops -/

theorem sensitiveLoop_lt {wordLen : Nat} (h : (node.sensitiveLoop text wordLen).2 = true) :
    wordLen < (node.sensitiveLoop text wordLen).1 := by
  induction text generalizing node wordLen with
  | nil => cases h
  | cons c text ih =>
    rw [sensitiveLoop] at h ⊢
    cases hsub : node.getSubNode c with
    | none => simp [hsub] at h
    | some subNode =>
      simp only [hsub] at h ⊢
      split at h
      next hmark => simp [hmark]
      next hmark =>
        rw [if_neg hmark]
        exact Nat.lt_trans (Nat.lt_succ_self _) (ih h)

theorem sensitiveLoop_iff (node : TrieNode) (text : Bytes) (wordLen : Nat) :
    (node.sensitiveLoop text wordLen).2 = true ↔ node.Finds text := by
  induction text generalizing node wordLen with
  | nil => simp [sensitiveLoop, Finds]
  | cons c text ih =>
    rw [sensitiveLoop]
    cases hsub : node.getSubNode c with
    | none => simp [Finds, hsub]
    | some subNode =>
      have hends : node.Finds (c :: text) ↔ subNode.Ends text := by simp [Finds, hsub]
      rw [hends]
      by_cases hmark : (subNode.getSubNode kEndFlag).isSome
      · simp [hmark, ends_of_mark]
      · simp only [hmark, if_false, ih, Bool.false_eq_true]
        cases text <;> simp [Ends, Finds, hmark]

theorem getSensitiveLength_pos {root : TrieNode} {i : Nat} :
    0 < root.getSensitiveLength text i ↔ root.Finds (text.drop i) := by
  have hlt := @sensitiveLoop_lt root (text.drop i) 0
  rw [← sensitiveLoop_iff root (text.drop i) 0, getSensitiveLength]
  cases hend : (root.sensitiveLoop (text.drop i) 0).2 with
  | false => simp [hend]
  | true => simpa [hend] using hlt hend

theorem searchLoop_iff {root : TrieNode} {fuel p2 : Nat} (h : text.length = p2 + fuel) :
    root.searchLoop text fuel p2 = true ↔ ∃ suffix, suffix <:+ text.drop p2 ∧ root.Finds suffix := by
  induction fuel generalizing p2 with
  | zero =>
    rw [List.drop_of_length_le (by omega), searchLoop]
    simp [Finds]
  | succ fuel ih =>
    have hdrop := List.drop_eq_getElem_cons (l := text) (i := p2) (by omega)
    have hcons : ∀ suffix, suffix <:+ text.drop p2 ↔
        suffix = text.drop p2 ∨ suffix <:+ text.drop (p2 + 1) := by
      intro suffix
      rw [hdrop, List.suffix_cons_iff]
    rw [searchLoop, if_pos (by omega)]
    simp only [hcons, or_and_right, exists_or, exists_eq_left]
    rw [← getSensitiveLength_pos, ← ih (by omega)]
    by_cases hfound : 0 < root.getSensitiveLength text p2
    · simp [hfound]
    · simp [hfound]

/-- `search` finds the stems of the inserted words, whatever the order of the insertions. -/
theorem search_build {words : List Bytes} (hne : ∀ w ∈ words, w ≠ []) :
    (build words).search text = true ↔ ∃ w ∈ words, stem w <:+: text.map tolower := by
  rw [search, searchLoop_iff (by simp), List.drop_zero]
  simp only [finds_build hne, List.infix_iff_prefix_suffix]
  constructor
  · rintro ⟨suffix, hsuffix, w, hw, hprefix⟩
    exact ⟨w, hw, suffix, hprefix, hsuffix⟩
  · rintro ⟨w, hw, suffix, hprefix, hsuffix⟩
    exact ⟨suffix, hsuffix, w, hw, hprefix⟩

end Ends
end TrieNode

/-! ### Complete and sound dictionaries -/

/-- `search` says of every text whether a word occurs in it, case aside. -/
def Detects (words : List Bytes) : Prop :=
  ∀ text, (TrieNode.build words).search text = true ↔
    ∃ w ∈ words, w.map tolower <:+: text.map tolower

/-- What is found of a word is in a word, and what is in a word is found. -/
structure Dictionary (words : List Bytes) : Prop where
  /-- Every word, lower-cased, has the stem of some word in it. -/
  complete : ∀ w ∈ words, ∃ v ∈ words, TrieNode.stem v <:+: w.map tolower
  /-- Every stem without capital letters has some word, lower-cased, in it. -/
  sound : ∀ w ∈ words, (TrieNode.stem w).map tolower = TrieNode.stem w →
    ∃ v ∈ words, v.map tolower <:+: TrieNode.stem w

section Detects

variable {words : List Bytes} {s text : Bytes}

theorem map_tolower_self (h : s <:+: text.map tolower) : s.map tolower = s := by
  conv_rhs => rw [← List.map_id s]
  refine List.map_congr_left fun c hc => ?_
  obtain ⟨d, -, rfl⟩ := List.mem_map.1 (h.subset hc)
  exact tolower_tolower d

theorem Dictionary.detects (hne : ∀ w ∈ words, w ≠ []) (h : Dictionary words) : Detects words := by
  intro text
  rw [TrieNode.search_build hne]
  constructor
  · rintro ⟨w, hw, hinfix⟩
    obtain ⟨v, hv, hle⟩ := h.sound w hw (map_tolower_self hinfix)
    exact ⟨v, hv, hle.trans hinfix⟩
  · rintro ⟨w, hw, hinfix⟩
    obtain ⟨v, hv, hle⟩ := h.complete w hw
    exact ⟨v, hv, hle.trans hinfix⟩

theorem Detects.dictionary (hne : ∀ w ∈ words, w ≠ []) (h : Detects words) : Dictionary words := by
  refine ⟨fun w hw => ?_, fun w hw hlower => ?_⟩
  · have hfound := (h w).2 ⟨w, hw, List.infix_rfl⟩
    exact (TrieNode.search_build hne).1 hfound
  · -- the stem taken as a text
    have hfound : (TrieNode.build words).search (TrieNode.stem w) = true :=
      (TrieNode.search_build hne).2 ⟨w, hw, by rw [hlower]⟩
    have hword := (h _).1 hfound
    rwa [hlower] at hword

theorem stem_of_not_mem {w : Bytes} (h : kEndFlag ∉ w.tail) : TrieNode.stem w = w := by
  cases w with
  | nil => rfl
  | cons c w =>
    rw [TrieNode.stem, List.takeWhile_eq_self_iff.2]
    intro d hd
    have hne : d ≠ kEndFlag := fun heq => h (heq ▸ hd)
    simpa using hne

end Detects

/-- Words without capital letters, and without the end mark behind their first byte, are detected. -/
theorem detects_of_plain {words : List Bytes} (hne : ∀ w ∈ words, w ≠ [])
    (hlower : ∀ w ∈ words, w.map tolower = w) (hflag : ∀ w ∈ words, kEndFlag ∉ w.tail) :
    Detects words := by
  refine Dictionary.detects hne ⟨fun w hw => ⟨w, hw, ?_⟩, fun w hw _ => ⟨w, hw, ?_⟩⟩
  · rw [stem_of_not_mem (hflag w hw), hlower w hw]
  · rw [stem_of_not_mem (hflag w hw), hlower w hw]

/-- Exactly the dictionaries whose words and stems contain one another are detected. -/
theorem detects_iff {words : List Bytes} (hne : ∀ w ∈ words, w ≠ []) :
    Detects words ↔ Dictionary words :=
  ⟨Detects.dictionary hne, Dictionary.detects hne⟩

theorem detects_iff_apple : Detects [literal "apple"] ↔ Dictionary [literal "apple"] :=
  detects_iff (by decide +kernel)

/-- A word with a capital letter is not found in itself. -/
theorem not_detects_capital : ¬ ∀ words : List Bytes, (∀ w ∈ words, w ≠ []) → Detects words := by
  intro h
  have hdetects := h [literal "Apple"] (by decide +kernel) (literal "Apple")
  have hsearch : (TrieNode.build [literal "Apple"]).search (literal "Apple") = false := by decide +kernel
  rw [hsearch] at hdetects
  exact absurd (hdetects.2 ⟨_, List.mem_singleton_self _, List.infix_rfl⟩) Bool.false_ne_true

end CoffeeChat
