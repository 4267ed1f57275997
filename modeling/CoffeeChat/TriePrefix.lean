import CoffeeChat.TrieStop

/-!
# Whole words and prefixes

`Trie::search` and `Trie::startsWith` as they stand before the search for sensitive words replaces them.
Both follow the bytes from the root; the end mark is one more byte there. So a word with that byte can
be cut off by a later one, and `startsWith` knows of the mark behind a word: `search_startsWith_iff`
says for any list of words what is found.
-/

namespace CoffeeChat.TriePrefix
open Cpp TrieNode TrieStop

/-- `Trie::search`, from a node on. -/
def search : TrieNode → Bytes → Bool
  | curNode, [] => (curNode.getSubNode kEndFlag).isSome
  | curNode, c :: word =>
    match curNode.getSubNode c with
    | none => false
    | some subNode => search subNode word

/-- `Trie::startsWith`, from a node on. -/
def startsWith : TrieNode → Bytes → Bool
  | _, [] => true
  | curNode, c :: rest =>
    match curNode.getSubNode c with
    | none => false
    | some subNode => startsWith subNode rest

theorem startsWith_iff {node : TrieNode} {path : Bytes} : startsWith node path = true ↔ Reaches node path := by
  induction path generalizing node with
  | nil => exact iff_of_true rfl trivial
  | cons c path ih =>
    rw [startsWith, reaches_cons]
    cases node.getSubNode c with
    | none => simp
    | some subNode => simp [ih]

theorem search_iff {node : TrieNode} {word : Bytes} : search node word = true ↔ Reaches node (word ++ [kEndFlag]) := by
  induction word generalizing node with
  | nil =>
    rw [search, List.nil_append, reaches_cons, Option.isSome_iff_exists]
    exact exists_congr fun subNode => (and_iff_left trivial).symm
  | cons c word ih =>
    rw [search, List.cons_append, reaches_cons]
    cases node.getSubNode c with
    | none => simp
    | some subNode => simp [ih]

/-- What an insertion adds, and what it cuts off: the new end mark has nothing below it. -/
theorem reaches_insert {word path : Bytes} {node : TrieNode} : Reaches (node.insert word) path ↔
    path <+: word ++ [kEndFlag] ∨ Reaches node path ∧ ¬ word ++ [kEndFlag] <+: path := by
  induction word generalizing path node with
  | nil =>
    cases path with
    | nil => exact iff_of_true trivial (.inl List.nil_prefix)
    | cons c path =>
      rw [TrieNode.insert, List.nil_append, reaches_cons, reaches_cons]
      by_cases hc : c = kEndFlag
      · subst hc
        have hcut : [kEndFlag] <+: kEndFlag :: path := List.cons_prefix_cons.2 ⟨rfl, List.nil_prefix⟩
        simp only [getSubNode_addSubNode, if_pos, Option.some.injEq, exists_eq_left', hcut, not_true_eq_false,
          and_false, or_false, List.cons_prefix_cons, true_and, List.prefix_nil]
        refine ⟨eq_nil_of_reaches_empty, ?_⟩
        rintro rfl
        trivial
      · simp [getSubNode_addSubNode, hc, Ne.symm hc, List.cons_prefix_cons]
  | cons d word ih =>
    cases path with
    | nil => exact iff_of_true trivial (.inl List.nil_prefix)
    | cons c path =>
      rw [TrieNode.insert, List.cons_append, reaches_cons, reaches_cons, List.cons_prefix_cons, List.cons_prefix_cons]
      by_cases hc : c = d
      · subst hc
        simp only [getSubNode_addSubNode, if_pos, Option.some.injEq, exists_eq_left', ih, true_and]
        cases node.getSubNode c with
        | none =>
          have hempty : Reaches empty path ∧ ¬ word ++ [kEndFlag] <+: path → path <+: word ++ [kEndFlag] := by
            rintro ⟨hpath, -⟩
            rw [eq_nil_of_reaches_empty hpath]
            exact List.nil_prefix
          simpa using hempty
        | some old => simp
      · simp [getSubNode_addSubNode, hc, Ne.symm hc]

/-- The path leads through one of the words, and no later one has cut it off. -/
def Kept (words : List Bytes) (path : Bytes) : Prop :=
  ∃ before word behind, words = before ++ word :: behind ∧ path <+: word ++ [kEndFlag] ∧
    ∀ later ∈ behind, ¬ later ++ [kEndFlag] <+: path

theorem kept_concat {words : List Bytes} {word path : Bytes} : Kept (words ++ [word]) path ↔
    path <+: word ++ [kEndFlag] ∨ Kept words path ∧ ¬ word ++ [kEndFlag] <+: path := by
  constructor
  · rintro ⟨before, w, behind, hwords, hpath, hbehind⟩
    rcases List.eq_nil_or_concat behind with rfl | ⟨behind, later, rfl⟩
    · obtain ⟨-, rfl⟩ := List.append_inj' hwords rfl |>.imp_right List.singleton_inj.1
      exact .inl hpath
    · rw [List.concat_eq_append, ← List.cons_append, ← List.append_assoc] at hwords
      obtain ⟨rfl, rfl⟩ := List.append_inj' hwords rfl |>.imp_right List.singleton_inj.1
      rw [List.concat_eq_append] at hbehind
      refine .inr ⟨⟨before, w, behind, rfl, hpath, fun later hlater => hbehind later ?_⟩, hbehind word ?_⟩
      · exact List.mem_append_left _ hlater
      · exact List.mem_append_right _ (List.mem_singleton_self _)
  · rintro (hpath | ⟨⟨before, w, behind, rfl, hpath, hbehind⟩, hword⟩)
    · exact ⟨words, word, [], rfl, hpath, nofun⟩
    · refine ⟨before, w, behind ++ [word], by simp, hpath, fun later hlater => ?_⟩
      rcases List.mem_append.1 hlater with hlater | hlater
      · exact hbehind later hlater
      · rwa [List.mem_singleton.1 hlater]

theorem reaches_build {words : List Bytes} {path : Bytes} :
    Reaches (build words) path ↔ path = [] ∨ Kept words path := by
  induction words using List.reverseRecOn with
  | nil =>
    refine ⟨fun h => .inl (eq_nil_of_reaches_empty h), ?_⟩
    rintro (rfl | ⟨before, word, behind, hwords, -⟩)
    · trivial
    · exact absurd hwords.symm (List.append_ne_nil_of_right_ne_nil before (List.cons_ne_nil word behind))
  | append_singleton words word ih =>
    rw [build, List.foldl_concat, reaches_insert, kept_concat]
    change _ ∨ Reaches (build words) path ∧ _ ↔ _
    rw [ih]
    constructor
    · rintro (hpath | ⟨rfl | hkept, hword⟩)
      · exact .inr (.inl hpath)
      · exact .inl rfl
      · exact .inr (.inr ⟨hkept, hword⟩)
    · rintro (rfl | hpath | hkept)
      · exact .inl List.nil_prefix
      · exact .inl hpath
      · exact .inr ⟨.inr hkept.1, hkept.2⟩

theorem search_build {words : List Bytes} {text : Bytes} :
    search (build words) text = true ↔ Kept words (text ++ [kEndFlag]) := by
  rw [search_iff, reaches_build, or_iff_right]
  exact List.append_ne_nil_of_right_ne_nil text (List.cons_ne_nil _ _)

theorem startsWith_build {words : List Bytes} {text : Bytes} :
    startsWith (build words) text = true ↔ text = [] ∨ Kept words text := by
  rw [startsWith_iff, reaches_build]

/-- What `search` and `startsWith` find after any words have been inserted. -/
theorem search_startsWith_iff (words : List Bytes) (text : Bytes) :
    (search (build words) text = true ↔ Kept words (text ++ [kEndFlag])) ∧
      (startsWith (build words) text = true ↔ text = [] ∨ Kept words text) :=
  ⟨search_build, startsWith_build⟩

theorem prefix_append_flag {v w : Bytes} (hw : kEndFlag ∉ w) : v ++ [kEndFlag] <+: w ++ [kEndFlag] ↔ v = w := by
  refine ⟨fun h => ?_, fun h => by rw [h]⟩
  rcases List.prefix_concat_iff.1 h with heq | hinit
  · exact (List.append_inj' heq rfl).1
  · exact absurd (hinit.subset (List.mem_append_right _ (List.mem_singleton_self _))) hw

/-- Words without an end mark are not cut off. -/
theorem kept_plain {words : List Bytes} (hflag : ∀ w ∈ words, kEndFlag ∉ w) {path : Bytes} :
    Kept words path ↔ ∃ word ∈ words, path <+: word ++ [kEndFlag] := by
  induction words using List.reverseRecOn with
  | nil =>
    refine iff_of_false ?_ nofun
    rintro ⟨before, word, behind, hwords, -⟩
    exact absurd hwords.symm (List.append_ne_nil_of_right_ne_nil before (List.cons_ne_nil word behind))
  | append_singleton words last ih =>
    rw [kept_concat, ih fun w hw => hflag w (List.mem_append_left _ hw)]
    constructor
    · rintro (hpath | ⟨⟨word, hword, hpath⟩, -⟩)
      · exact ⟨last, List.mem_append_right _ (List.mem_singleton_self _), hpath⟩
      · exact ⟨word, List.mem_append_left _ hword, hpath⟩
    · rintro ⟨word, hword, hpath⟩
      by_cases hlast : last ++ [kEndFlag] <+: path
      · obtain rfl := (prefix_append_flag (hflag word hword)).1 (hlast.trans hpath)
        exact .inl hpath
      · rcases List.mem_append.1 hword with hword | hword
        · exact .inr ⟨⟨word, hword, hpath⟩, hlast⟩
        · rw [List.mem_singleton.1 hword] at hpath
          exact .inl hpath

/-- Then `search` finds the words, and `startsWith` their prefixes, the empty one, and the words with the mark. -/
theorem search_startsWith_plain {words : List Bytes} (hflag : ∀ w ∈ words, kEndFlag ∉ w) (text : Bytes) :
    (search (build words) text = true ↔ text ∈ words) ∧
      (startsWith (build words) text = true ↔
        text = [] ∨ ∃ word ∈ words, text <+: word ∨ text = word ++ [kEndFlag]) := by
  rw [search_build, startsWith_build, kept_plain hflag, kept_plain hflag]
  refine ⟨⟨?_, fun htext => ⟨text, htext, List.prefix_rfl⟩⟩, ?_⟩
  · rintro ⟨word, hword, hpath⟩
    rwa [(prefix_append_flag (hflag word hword)).1 hpath]
  · simp only [List.prefix_concat_iff, or_comm]

example : startsWith (build [literal "apple"]) (literal "app") = true ∧
    search (build [literal "apple"]) (literal "app") = false := by decide

-- the second insertion takes the first word away
example : search (build [literal "c#", literal "c"]) (literal "c#") = false := by decide

end CoffeeChat.TriePrefix
