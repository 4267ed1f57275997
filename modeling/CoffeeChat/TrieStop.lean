import CoffeeChat.TrieMask

/-!
# Stop characters

`Trie::getSensitiveLength` in the version that skips `&`, `-` and the space, with `getSensitive` and
`replaceSensitive` above it. A skipped byte counts as one of the word, also at the root: so what is
found is the shortest word in the rest of the text with its stop characters deleted, and it ends
with that word (`getSensitiveLength_spec`), but it begins with the stop characters that stand before
it. `replaceSensitive` replaces exactly what `getSensitive` finds (`exists_pieces`). Where stop
characters are masked along is said for a start index and for a whole text (`tight_iff`).
-/

namespace CoffeeChat.TrieStop
open Cpp

/-- `&`, `-` and the space. -/
def isStop (cur : UInt8) : Bool := cur = 38 || cur = 45 || cur = 32

/-- The loop of `getSensitiveLength` from `p1` on. -/
def sensitiveLoop : TrieNode → Bytes → Nat → Nat × Bool
  | _, [], wordLen => (wordLen, false)
  | p1, cur :: rest, wordLen =>
    match p1.getSubNode cur with
    | none => if isStop cur then sensitiveLoop p1 rest (wordLen + 1) else (wordLen, false)
    | some subNode =>
      if (subNode.getSubNode kEndFlag).isSome then (wordLen + 1, true)
      else sensitiveLoop subNode rest (wordLen + 1)

def getSensitiveLength (root : TrieNode) (word : Bytes) (startIndex : Nat) : Nat :=
  let (wordLen, endFlag) := sensitiveLoop root (word.drop startIndex) 0
  if endFlag then wordLen else 0

/-- The loop of `getSensitive`; `fuel` bounds the rounds that are left. -/
def getSensitiveLoop (root : TrieNode) (word : Bytes) :
    Nat → Nat → List SensitiveWord → List SensitiveWord
  | 0, _, sensitiveSet => sensitiveSet
  | fuel + 1, i, sensitiveSet =>
    if i < word.length then
      let wordLen := getSensitiveLength root word i
      if wordLen > 0 then
        let wordObj : SensitiveWord := ⟨(word.drop i).take wordLen, i, wordLen⟩
        getSensitiveLoop root word fuel (i + wordLen - 1 + 1) (setInsert wordObj sensitiveSet)
      else getSensitiveLoop root word fuel (i + 1) sensitiveSet
    else sensitiveSet

def getSensitive (root : TrieNode) (word : Bytes) : List SensitiveWord :=
  getSensitiveLoop root (word.map tolower) word.length 0 []

def replaceSensitive (root : TrieNode) (word : Bytes) : Except StdException Bytes :=
  TrieNode.spliceLoop word (getSensitive root word) 0 []

/-! ### A text in pieces -/

/-- What stands between two words that are found, and the second one of them as it is in the text. -/
structure Piece where
  kept : Bytes
  region : Bytes

def source : List Piece → Bytes → Bytes
  | [], rest => rest
  | p :: pieces, rest => p.kept ++ (p.region ++ source pieces rest)

/-- The regions of the pieces, which begin at an index of the text, as `getSensitive` reports them. -/
def regions : Nat → List Piece → List SensitiveWord
  | _, [] => []
  | i, p :: pieces =>
    ⟨p.region.map tolower, i + p.kept.length, p.region.length⟩ ::
      regions (i + p.kept.length + p.region.length) pieces

/-- The pieces with their regions replaced by stars. -/
def masked : List Piece → Bytes → Except StdException Bytes
  | [], rest => return rest
  | p :: pieces, rest => do
    let stars ← chineseOrEnglishAppend p.region
    let text ← masked pieces rest
    return p.kept ++ stars ++ text

/-! ### The words and their extent -/

/-- The text without its stop characters. -/
def plain (text : Bytes) : Bytes := text.filter fun c => !isStop c

/-- The bytes are a word with stop characters inside of it, and none before or behind it. -/
structure Tight (words : List Bytes) (region : Bytes) : Prop where
  mem : plain region ∈ words
  head : region.head? = (plain region).head?
  last : region.getLast? = (plain region).getLast?

/-- Words that can be inserted: not empty, and without the end mark and stop characters. -/
structure Plain (words : List Bytes) : Prop where
  ne_nil : ∀ w ∈ words, w ≠ []
  flag : ∀ w ∈ words, kEndFlag ∉ w
  stop : ∀ w ∈ words, ∀ c ∈ w, isStop c = false

/-- What `getSensitiveLength` finds at the start index is tight. -/
def TightAt (words : List Bytes) (text : Bytes) (startIndex : Nat) : Prop :=
  let n := getSensitiveLength (.build words) text startIndex
  0 < n → Tight words ((text.drop startIndex).take n)

/-- What `replaceSensitive` returns is the text with the regions that `getSensitive` finds replaced by stars,
and these regions are tight. -/
def TightText (words : List Bytes) (text : Bytes) : Prop :=
  ∃ pieces rest, source pieces rest = text ∧ regions 0 pieces = getSensitive (.build words) text ∧
    replaceSensitive (.build words) text = masked pieces rest ∧
      ∀ p ∈ pieces, Tight words (p.region.map tolower)

/-- Read from left to right, no word that is found has a stop character before it. The first argument
counts the bytes left of the word that was found last. -/
def unled (words : List Bytes) : Nat → Bytes → Bool
  | _, [] => true
  | 0, c :: text =>
    match shortestPrefix words.contains (plain (c :: text)) with
    | some w => !isStop c && unled words (w.length - 1) text
    | none => unled words 0 text
  | left + 1, c :: text => if isStop c then unled words (left + 1) text else unled words left text

section Plain

variable {c : UInt8} {text : Bytes}

theorem plain_cons_stop (h : isStop c = true) (text : Bytes) : plain (c :: text) = plain text := by
  unfold plain
  rw [List.filter_cons_of_neg (by simp [h])]

theorem plain_cons_plain (h : isStop c = false) (text : Bytes) :
    plain (c :: text) = c :: plain text := by
  unfold plain
  rw [List.filter_cons_of_pos (by simp [h])]

theorem isStop_of_mem_plain (h : c ∈ plain text) : isStop c = false := by
  unfold plain at h
  simpa using (List.mem_filter.1 h).2

/-- A region begins with a byte of the word unless it begins with a stop character. -/
theorem head?_plain : (c :: text).head? = (plain (c :: text)).head? ↔ isStop c = false := by
  constructor
  · intro h
    exact isStop_of_mem_plain (List.mem_of_mem_head? (Option.mem_def.2 h.symm))
  · intro h
    rw [plain_cons_plain h]
    rfl

end Plain

/-! ### The children of a trie -/

/-- The bytes lead from the node to another one. -/
def Reaches : TrieNode → Bytes → Prop
  | _, [] => True
  | node, c :: path => ∃ subNode, node.getSubNode c = some subNode ∧ Reaches subNode path

theorem reaches_cons {node : TrieNode} {c : UInt8} {path : Bytes} : Reaches node (c :: path) ↔
    ∃ subNode, node.getSubNode c = some subNode ∧ Reaches subNode path := Iff.rfl

theorem eq_nil_of_reaches_empty {path : Bytes} (h : Reaches TrieNode.empty path) : path = [] := by
  cases path with
  | nil => rfl
  | cons c path =>
    obtain ⟨subNode, hsub, -⟩ := reaches_cons.1 h
    cases hsub

theorem reaches_of_insert {word path : Bytes} {node : TrieNode} (h : Reaches (node.insert word) path) :
    path <+: word ++ [kEndFlag] ∨ Reaches node path := by
  induction word generalizing path node with
  | nil =>
    cases path with
    | nil => exact .inr trivial
    | cons c path =>
      obtain ⟨subNode, hsub, hpath⟩ := reaches_cons.1 h
      rw [TrieNode.insert, TrieNode.getSubNode_addSubNode] at hsub
      split at hsub
      next hc =>
        cases hsub
        rw [hc, eq_nil_of_reaches_empty hpath]
        exact .inl List.prefix_rfl
      next => exact .inr ⟨subNode, hsub, hpath⟩
  | cons d word ih =>
    cases path with
    | nil => exact .inr trivial
    | cons c path =>
      obtain ⟨subNode, hsub, hpath⟩ := reaches_cons.1 h
      rw [TrieNode.insert, TrieNode.getSubNode_addSubNode] at hsub
      split at hsub
      next hc =>
        cases hsub
        rcases ih hpath with hword | hold
        · rw [hc, List.cons_append]
          exact .inl (List.cons_prefix_cons.2 ⟨rfl, hword⟩)
        · cases hnode : node.getSubNode d with
          | none =>
            rw [hnode, Option.getD_none] at hold
            rw [hc, eq_nil_of_reaches_empty hold, List.cons_append]
            exact .inl (List.cons_prefix_cons.2 ⟨rfl, List.nil_prefix⟩)
          | some old =>
            rw [hnode, Option.getD_some] at hold
            exact .inr ⟨old, by rw [hc, hnode], hold⟩
      next => exact .inr ⟨subNode, hsub, hpath⟩

/-- No edge below the node is a stop character. -/
def Unstopped (node : TrieNode) : Prop := ∀ path, Reaches node path → ∀ c ∈ path, isStop c = false

theorem Unstopped.child {node subNode : TrieNode} {c : UInt8} (h : Unstopped node)
    (hsub : node.getSubNode c = some subNode) : isStop c = false ∧ Unstopped subNode := by
  constructor
  · exact h [c] ⟨subNode, hsub, trivial⟩ c (by simp)
  · intro path hpath d hd
    exact h (c :: path) ⟨subNode, hsub, hpath⟩ d (List.mem_cons_of_mem _ hd)

theorem unstopped_foldl {words : List Bytes} (hstop : ∀ w ∈ words, ∀ c ∈ w, isStop c = false)
    {node : TrieNode} (h : Unstopped node) : Unstopped (words.foldl TrieNode.insert node) := by
  induction words generalizing node with
  | nil => exact h
  | cons w words ih =>
    rw [List.foldl_cons]
    refine ih (fun u hu => hstop u (List.mem_cons_of_mem _ hu)) ?_
    intro path hpath c hc
    rcases reaches_of_insert hpath with hword | hold
    · rcases List.mem_append.1 (hword.mem hc) with hw | hflag
      · exact hstop w (by simp) c hw
      · rw [List.mem_singleton.1 hflag]
        rfl
    · exact h path hold c hc

theorem unstopped_build {words : List Bytes} (hstop : ∀ w ∈ words, ∀ c ∈ w, isStop c = false) :
    Unstopped (TrieNode.build words) := by
  refine unstopped_foldl hstop ?_
  intro path hpath c hc
  rw [eq_nil_of_reaches_empty hpath] at hc
  cases hc

/-! ### The loop -/

/-- The front `region` of the text is the word, with stop characters before it and inside of it. -/
structure Extent (text w region : Bytes) : Prop where
  front : region <+: text
  plain_eq : plain region = w
  last : region.getLast? = w.getLast?

section Extent

variable {text w region : Bytes} {c : UInt8}

theorem Extent.nil (text : Bytes) : Extent text [] [] := ⟨List.nil_prefix, rfl, rfl⟩

theorem Extent.cons_stop (h : Extent text w region) (hne : w ≠ []) (hc : isStop c = true) :
    Extent (c :: text) w (c :: region) := by
  refine ⟨List.cons_prefix_cons.2 ⟨rfl, h.front⟩, ?_, ?_⟩
  · rw [plain_cons_stop hc, h.plain_eq]
  · obtain ⟨d, hd⟩ := Option.isSome_iff_exists.1 (List.getLast?_isSome.2 hne)
    rw [List.getLast?_cons, h.last, hd]
    rfl

theorem Extent.cons_plain (h : Extent text w region) (hc : isStop c = false) :
    Extent (c :: text) (c :: w) (c :: region) := by
  refine ⟨List.cons_prefix_cons.2 ⟨rfl, h.front⟩, ?_, ?_⟩
  · rw [plain_cons_plain hc, h.plain_eq]
  · rw [List.getLast?_cons, List.getLast?_cons, h.last]

/-- A word without stop characters: none is behind it. -/
theorem Extent.last_plain (h : Extent text w region) (hw : ∀ c ∈ w, isStop c = false) :
    ∀ c ∈ region.getLast?, isStop c = false := by
  intro c hc
  rw [h.last] at hc
  exact hw c (List.mem_of_mem_getLast? hc)

end Extent

theorem Unstopped.no_child {node : TrieNode} {c : UInt8} (h : Unstopped node) (hc : isStop c = true) :
    node.getSubNode c = none := by
  cases hsub : node.getSubNode c with
  | none => rfl
  | some subNode =>
    rw [(h.child hsub).1] at hc
    cases hc

/-- From a node without an end mark the loop finds the shortest word in the plain text, and ends with
it. -/
theorem sensitiveLoop_spec {P : Bytes → Bool} (hflag : ∀ w, P w → kEndFlag ∉ w) {p1 : TrieNode}
    (hstop : Unstopped p1) (hp : ∀ w, kEndFlag ∉ w → (p1.Accepts w ↔ P w)) (hnil : P [] = false)
    (text : Bytes) (wordLen : Nat) :
    match shortestPrefix P (plain text) with
    | some w => ∃ region, Extent text w region ∧
        sensitiveLoop p1 text wordLen = (wordLen + region.length, true)
    | none => (sensitiveLoop p1 text wordLen).2 = false := by
  induction text generalizing P p1 wordLen with
  | nil => simp [plain, shortestPrefix, List.inits, hnil, sensitiveLoop]
  | cons cur text ih =>
    cases hcur : isStop cur with
    | true =>
      have ih := ih hflag hstop hp hnil (wordLen + 1)
      rw [plain_cons_stop hcur, sensitiveLoop, hstop.no_child hcur]
      simp only [hcur, if_true]
      cases hshort : shortestPrefix P (plain text) with
      | none => rw [hshort] at ih; exact ih
      | some w =>
        rw [hshort] at ih
        obtain ⟨region, hextent, hloop⟩ := ih
        have hne : w ≠ [] := by
          rintro rfl
          rw [(shortestPrefix_eq_some hshort).1] at hnil
          cases hnil
        refine ⟨cur :: region, hextent.cons_stop hne hcur, ?_⟩
        rw [hloop, List.length_cons, Nat.add_assoc, Nat.add_comm 1]
    | false =>
      rw [plain_cons_plain hcur, shortestPrefix_cons hnil, sensitiveLoop]
      cases hsub : p1.getSubNode cur with
      | none =>
        rw [shortestPrefix_eq_none (TrieNode.eq_false_of_no_child hflag hp hsub)]
        simp [hcur]
      | some subNode =>
        have hsub' := TrieNode.accepts_child hp hnil hsub
        by_cases hend : (subNode.getSubNode kEndFlag).isSome
        · rw [shortestPrefix_of_nil ((hsub' [] List.not_mem_nil).1 hend)]
          exact ⟨[cur], (Extent.nil text).cons_plain hcur, by simp [hend]⟩
        · have hnil' : P [cur] = false := by
            rw [← Bool.not_eq_true, ← hsub' [] List.not_mem_nil]
            exact hend
          have ih := ih (fun w hw h => hflag _ hw (List.mem_cons_of_mem _ h)) (hstop.child hsub).2 hsub'
            hnil' (wordLen + 1)
          simp only [hend, Bool.false_eq_true, if_false]
          cases hshort : shortestPrefix (fun w => P (cur :: w)) (plain text) with
          | none => rw [hshort] at ih; exact ih
          | some w =>
            rw [hshort] at ih
            obtain ⟨region, hextent, hloop⟩ := ih
            refine ⟨cur :: region, hextent.cons_plain hcur, ?_⟩
            rw [hloop, List.length_cons, Nat.add_assoc, Nat.add_comm 1]

/-- What `getSensitiveLength` returns is the length of the shortest word in the plain text, with the
stop characters before it and inside of it. -/
theorem getSensitiveLength_spec {words : List Bytes} (h : Plain words) (text : Bytes) (i : Nat) :
    match shortestPrefix words.contains (plain (text.drop i)) with
    | some w => ∃ region, Extent (text.drop i) w region ∧
        getSensitiveLength (.build words) text i = region.length
    | none => getSensitiveLength (.build words) text i = 0 := by
  have hloop := sensitiveLoop_spec (P := words.contains)
    (fun w hw => h.flag w (List.contains_iff_mem.1 hw)) (unstopped_build h.stop)
    (fun w hw => (TrieNode.accepts_build h.flag hw).trans List.contains_iff_mem.symm)
    (Bool.eq_false_iff.2 fun hmem => h.ne_nil [] (List.contains_iff_mem.1 hmem) rfl) (text.drop i) 0
  unfold getSensitiveLength
  cases hshort : shortestPrefix words.contains (plain (text.drop i)) with
  | none => rw [hshort] at hloop; simp [hloop]
  | some w =>
    rw [hshort] at hloop
    obtain ⟨region, hextent, hloop⟩ := hloop
    exact ⟨region, hextent, by simp [hloop]⟩

/-! ### What is masked -/

section Tight

variable {words : List Bytes} {text region w : Bytes}

theorem tight_iff_head {c : UInt8} (hw : plain (c :: region) ∈ words)
    (hlast : (c :: region).getLast? = (plain (c :: region)).getLast?) :
    Tight words (c :: region) ↔ isStop c = false :=
  ⟨fun h => head?_plain.1 h.head, fun h => ⟨hw, head?_plain.2 h, hlast⟩⟩

theorem exists_prefix_iff : (∃ w ∈ words, w <+: text) ↔ (shortestPrefix words.contains text).isSome := by
  unfold shortestPrefix
  rw [List.find?_isSome]
  simp only [List.mem_inits, List.contains_iff_mem]
  exact ⟨fun ⟨w, hw, h⟩ => ⟨w, h, hw⟩, fun ⟨w, h, hw⟩ => ⟨w, hw, h⟩⟩

/-- At a start index exactly the stop characters there, if a word follows them, are masked along. -/
theorem tightAt_iff (h : Plain words) (text : Bytes) (i : Nat) : TightAt words text i ↔
    (∀ c ∈ (text.drop i).head?, isStop c = false) ∨ ∀ w ∈ words, ¬ w <+: plain (text.drop i) := by
  have hspec := getSensitiveLength_spec h text i
  have hex := @exists_prefix_iff words (plain (text.drop i))
  unfold TightAt
  cases hshort : shortestPrefix words.contains (plain (text.drop i)) with
  | none =>
    rw [hshort] at hspec hex
    rw [hspec]
    refine iff_of_true (fun hpos => absurd hpos (Nat.lt_irrefl 0)) (.inr ?_)
    intro w hw hprefix
    cases hex.1 ⟨w, hw, hprefix⟩
  | some w =>
    rw [hshort] at hspec hex
    obtain ⟨hw, -⟩ := shortestPrefix_eq_some hshort
    obtain ⟨region, ⟨hfront, hplain, hlast⟩, hlen⟩ := hspec
    obtain ⟨v, hv⟩ := hex.2 rfl
    cases region with
    | nil =>
      cases hplain
      exact absurd rfl (h.ne_nil _ (List.contains_iff_mem.1 hw))
    | cons c region =>
      obtain ⟨rest, hrest⟩ := hfront
      have htight : Tight words (c :: region) ↔ isStop c = false :=
        tight_iff_head (by rw [hplain]; exact List.contains_iff_mem.1 hw) (by rw [hplain, hlast])
      rw [← hrest] at hv ⊢
      dsimp only
      rw [hlen, List.take_left, htight]
      constructor
      · intro hstop
        exact .inl fun d hd => by cases hd; exact hstop (by simp)
      · rintro (hstop | hnone) -
        · exact hstop c rfl
        · exact absurd hv.2 (hnone v hv.1)

theorem mem_getLast?_cons {c d : UInt8} (h : d ∈ region.getLast?) : d ∈ (c :: region).getLast? := by
  rw [List.getLast?_cons, Option.mem_def.1 h]
  rfl

/-- Behind a word the reading goes on with no bytes left of it. -/
theorem unled_append (hlast : ∀ c ∈ region.getLast?, isStop c = false) (rest : Bytes) :
    unled words (plain region).length (region ++ rest) = unled words 0 rest := by
  induction region with
  | nil => rfl
  | cons c region ih =>
    have hlast' : ∀ d ∈ region.getLast?, isStop d = false := fun d hd =>
      hlast d (mem_getLast?_cons hd)
    cases hc : isStop c with
    | true =>
      rcases List.eq_nil_or_concat' region with rfl | ⟨init, d, rfl⟩
      · rw [hlast c rfl] at hc
        cases hc
      · have hd : d ∈ plain (init ++ [d]) := by
          have hstop := hlast' d (by simp)
          simp [plain, hstop]
        obtain ⟨n, hn⟩ := Nat.exists_eq_add_one.2 (List.length_pos_of_mem hd)
        have ih := ih hlast'
        rw [hn] at ih
        rw [plain_cons_stop hc, hn, List.cons_append, unled, if_pos hc, ih]
    | false =>
      rw [plain_cons_plain hc, List.length_cons, List.cons_append, unled, hc, if_neg (by simp),
        ih hlast']

/-- A word that is found decides by what stands before it; the reading goes on behind it. -/
theorem unled_found {c : UInt8} {rest : Bytes}
    (hshort : shortestPrefix words.contains (plain (c :: region ++ rest)) = some (plain (c :: region)))
    (hlast : ∀ d ∈ (c :: region).getLast?, isStop d = false) :
    unled words 0 (c :: region ++ rest) = (!isStop c && unled words 0 rest) := by
  rw [List.cons_append] at hshort ⊢
  rw [unled, hshort]
  cases hc : isStop c with
  | true => rfl
  | false =>
    have hregion : ∀ d ∈ region.getLast?, isStop d = false := fun d hd =>
      hlast d (mem_getLast?_cons hd)
    have hleft : (plain (c :: region)).length - 1 = (plain region).length := by
      rw [plain_cons_plain hc]
      rfl
    dsimp only
    rw [hleft, unled_append hregion]

/-- A round of `getSensitive` goes one byte on, or reports the shortest word and goes on behind it. -/
theorem getSensitiveLoop_cases (h : Plain words) (fuel : Nat) {i : Nat} {set : List SensitiveWord}
    (hset : ∀ x ∈ set, x.startIndex < i) (hi : i < text.length) :
    (shortestPrefix words.contains (plain (text.drop i)) = none ∧
      getSensitiveLoop (.build words) text (fuel + 1) i set = getSensitiveLoop (.build words) text fuel (i + 1) set) ∨
    ∃ c region, Extent (text.drop i) (plain (c :: region)) (c :: region) ∧
      shortestPrefix words.contains (plain (text.drop i)) = some (plain (c :: region)) ∧
      getSensitiveLoop (.build words) text (fuel + 1) i set =
        getSensitiveLoop (.build words) text fuel (i + (c :: region).length)
          (set ++ [⟨c :: region, i, (c :: region).length⟩]) := by
  have hspec := getSensitiveLength_spec h text i
  rw [getSensitiveLoop, if_pos hi]
  dsimp only
  cases hshort : shortestPrefix words.contains (plain (text.drop i)) with
  | none =>
    rw [hshort] at hspec
    refine .inl ⟨rfl, ?_⟩
    rw [hspec, if_neg (Nat.lt_irrefl 0)]
  | some w =>
    rw [hshort] at hspec
    obtain ⟨region, hextent, hlen⟩ := hspec
    obtain ⟨hw, -⟩ := shortestPrefix_eq_some hshort
    obtain rfl := hextent.plain_eq
    cases region with
    | nil => exact absurd rfl (h.ne_nil _ (List.contains_iff_mem.1 hw))
    | cons c region =>
      obtain ⟨rest, hrest⟩ := hextent.front
      refine .inr ⟨c, region, hextent, rfl, ?_⟩
      rw [hlen, if_pos (show (c :: region).length > 0 from Nat.succ_pos _), ← hrest, List.take_left, setInsert_last hset]
      rfl

theorem tight_loop (h : Plain words) (fuel i : Nat) (set : List SensitiveWord)
    (hset : ∀ x ∈ set, x.startIndex < i) (hfuel : text.length ≤ i + fuel) :
    (∀ item ∈ getSensitiveLoop (.build words) text fuel i set, Tight words item.word) ↔
      (∀ item ∈ set, Tight words item.word) ∧ unled words 0 (text.drop i) = true := by
  induction fuel generalizing i set with
  | zero =>
    rw [getSensitiveLoop, List.drop_of_length_le (by omega)]
    simp [unled]
  | succ fuel ih =>
    by_cases hi : i < text.length
    · rcases getSensitiveLoop_cases h fuel hset hi with ⟨hshort, hround⟩ | ⟨c, region, hextent, hshort, hround⟩
      · have hdrop := List.drop_eq_getElem_cons hi
        rw [hround, ih (i + 1) set (fun x hx => Nat.lt_succ_of_lt (hset x hx)) (by omega), hdrop, unled, ← hdrop, hshort]
      · have hmem : plain (c :: region) ∈ words := List.contains_iff_mem.1 (shortestPrefix_eq_some hshort).1
        have hstop := hextent.last_plain (h.stop _ hmem)
        obtain ⟨⟨rest, hrest⟩, -, hlast⟩ := hextent
        have hbehind : text.drop (i + (c :: region).length) = rest := by
          rw [← List.drop_drop, ← hrest, List.drop_left]
        have hitem := @startIndex_lt_append ⟨c :: region, i, (c :: region).length⟩ set _ hset
          (List.length_pos_of_ne_nil (List.cons_ne_nil c region))
        rw [← hrest] at hshort ⊢
        rw [hround, ih _ _ hitem (by simp; omega), hbehind, unled_found hshort hstop]
        simp only [List.mem_append, List.mem_singleton, or_imp, forall_and, forall_eq, tight_iff_head hmem hlast,
          and_assoc, Bool.and_eq_true, Bool.not_eq_true']
    · rw [getSensitiveLoop, if_neg hi, List.drop_of_length_le (by omega)]
      simp [unled]

/-! ### What is replaced -/

/-- `splice` of the regions puts stars in their place and keeps what stands between them. -/
theorem spliceLoop_regions {pieces : List Piece} {rest : Bytes} {i : Nat} (hi : i ≤ text.length)
    (htext : source pieces rest = text.drop i) (ret : Bytes) :
    TrieNode.spliceLoop text (regions i pieces) i ret = (do
      let tail ← masked pieces rest
      return ret ++ tail) := by
  induction pieces generalizing i ret with
  | nil =>
    have hrest : rest = text.drop i := htext
    rw [regions, TrieNode.spliceLoop, TrieNode.sizeOfInt_sub hi, substr_of_le hi, ok_bind, masked, hrest,
      List.take_of_length_le (by simp)]
    rfl
  | cons p pieces ih =>
    have hdrop : p.kept ++ (p.region ++ source pieces rest) = text.drop i := htext
    have hlength := congrArg List.length hdrop
    simp only [List.length_append, List.length_drop] at hlength
    have hregion : text.drop (i + p.kept.length) = p.region ++ source pieces rest := by
      rw [← List.drop_drop, ← hdrop, List.drop_left]
    have hbehind : source pieces rest = text.drop (i + p.kept.length + p.region.length) := by
      rw [← List.drop_drop, hregion, List.drop_left]
    have hkept : substr text i (TrieNode.sizeOfInt ((i + p.kept.length : Nat) - i)) = .ok p.kept := by
      rw [TrieNode.sizeOfInt_sub (Nat.le_add_right ..), substr_of_le hi, ← hdrop, Nat.add_sub_cancel_left, List.take_left]
    rw [regions, TrieNode.spliceLoop, masked, substr_of_le (show i + p.kept.length ≤ text.length by omega), ok_bind,
      hregion, List.take_left]
    dsimp only
    rw [hkept]
    cases hstars : chineseOrEnglishAppend p.region with
    | error e => rfl
    | ok stars =>
      simp only [ok_bind]
      rw [ih (by omega) hbehind]
      cases masked pieces rest with
      | error e => rfl
      | ok tail => simp only [ok_bind, pure_eq_ok, List.append_assoc]

/-- A byte before the pieces. -/
theorem source_cons (c : UInt8) (pieces : List Piece) (rest : Bytes) : ∃ pieces' rest',
    source pieces' rest' = c :: source pieces rest ∧ ∀ i, regions i pieces' = regions (i + 1) pieces := by
  cases pieces with
  | nil => exact ⟨[], c :: rest, rfl, fun _ => rfl⟩
  | cons p pieces =>
    refine ⟨⟨c :: p.kept, p.region⟩ :: pieces, rest, rfl, fun i => ?_⟩
    rw [regions, regions, List.length_cons, show i + (p.kept.length + 1) = i + 1 + p.kept.length by omega]

theorem getSensitiveLoop_regions (h : Plain words) (fuel i : Nat) (set : List SensitiveWord)
    (hset : ∀ x ∈ set, x.startIndex < i) (hi : i ≤ text.length) (hfuel : text.length ≤ i + fuel) :
    ∃ pieces rest, source pieces rest = text.drop i ∧
      getSensitiveLoop (.build words) (text.map tolower) fuel i set = set ++ regions i pieces := by
  induction fuel generalizing i set with
  | zero =>
    refine ⟨[], text.drop i, rfl, ?_⟩
    rw [getSensitiveLoop, regions, List.append_nil]
  | succ fuel ih =>
    by_cases hlt : i < text.length
    · have hlt' : i < (text.map tolower).length := by rwa [List.length_map]
      rcases getSensitiveLoop_cases h fuel hset hlt' with ⟨-, hround⟩ | ⟨c, region, hextent, -, hround⟩
      · obtain ⟨pieces, rest, hsource, hloop⟩ :=
          ih (i + 1) set (fun x hx => Nat.lt_succ_of_lt (hset x hx)) hlt (by omega)
        obtain ⟨pieces', rest', hcons, hregions⟩ := source_cons text[i] pieces rest
        refine ⟨pieces', rest', ?_, by rw [hround, hloop, hregions]⟩
        rw [hcons, hsource, List.drop_eq_getElem_cons hlt]
      · have hle := hextent.front.length_le
        have hword := List.prefix_iff_eq_take.1 hextent.front
        rw [List.length_drop, List.length_map] at hle
        rw [← List.map_drop, ← List.map_take] at hword
        have hpos := List.length_pos_of_ne_nil (List.cons_ne_nil c region)
        have hitem := @startIndex_lt_append ⟨c :: region, i, (c :: region).length⟩ set _ hset hpos
        obtain ⟨pieces, rest, hsource, hloop⟩ := ih (i + (c :: region).length) _ hitem (by omega) (by omega)
        -- the region as it is in the text
        have hlength : ((text.drop i).take (c :: region).length).length = (c :: region).length := by
          rw [List.length_take, List.length_drop, Nat.min_eq_left hle]
        refine ⟨⟨[], (text.drop i).take (c :: region).length⟩ :: pieces, rest, ?_, ?_⟩
        · rw [source, hsource, List.nil_append, ← List.drop_drop, List.take_append_drop]
        · rw [hround, hloop, regions, ← hword, hlength, List.append_assoc]
          rfl
    · refine ⟨[], text.drop i, rfl, ?_⟩
      rw [getSensitiveLoop, List.length_map, if_neg hlt, regions, List.append_nil]

/-- `replaceSensitive` replaces the regions that `getSensitive` finds by stars, and keeps all else. -/
theorem exists_pieces (h : Plain words) (text : Bytes) : ∃ pieces rest, source pieces rest = text ∧
    regions 0 pieces = getSensitive (.build words) text ∧
      replaceSensitive (.build words) text = masked pieces rest := by
  obtain ⟨pieces, rest, hsource, hloop⟩ :=
    @getSensitiveLoop_regions words text h text.length 0 [] (by simp) (Nat.zero_le _) (by omega)
  have hitems : getSensitive (.build words) text = regions 0 pieces := hloop
  refine ⟨pieces, rest, hsource, hitems.symm, ?_⟩
  rw [replaceSensitive, hitems, spliceLoop_regions (Nat.zero_le _) hsource]
  cases masked pieces rest <;> rfl

theorem mem_regions {P : Bytes → Prop} {i : Nat} {pieces : List Piece} :
    (∀ item ∈ regions i pieces, P item.word) ↔ ∀ p ∈ pieces, P (p.region.map tolower) := by
  induction pieces generalizing i with
  | nil => simp [regions]
  | cons p pieces ih => simp only [regions, List.forall_mem_cons, ih]

/-- Of a text exactly the stop characters directly before a word that is found are masked along. -/
theorem tightText_iff (h : Plain words) (text : Bytes) :
    TightText words text ↔ unled words 0 (text.map tolower) = true := by
  have hloop := @tight_loop words (text.map tolower) h text.length 0 [] (by simp) (by simp)
  have hitems : (∀ item ∈ getSensitive (.build words) text, Tight words item.word) ↔
      unled words 0 (text.map tolower) = true := by
    rw [getSensitive, hloop, List.drop_zero]
    simp
  rw [← hitems]
  constructor
  · rintro ⟨pieces, rest, -, hregions, -, htight⟩
    rw [← hregions]
    exact mem_regions.2 htight
  · intro htight
    obtain ⟨pieces, rest, hsource, hregions, hreplace⟩ := exists_pieces h text
    rw [← hregions] at htight
    exact ⟨pieces, rest, hsource, hregions, hreplace, mem_regions.1 htight⟩

/-- A start index is wrong where a stop character stands and a word follows; a text is where a word
that is found has one directly before it. -/
theorem tight_iff (h : Plain words) (text : Bytes) (i : Nat) :
    (TightAt words text i ↔
      (∀ c ∈ (text.drop i).head?, isStop c = false) ∨ ∀ w ∈ words, ¬ w <+: plain (text.drop i)) ∧
    (TightText words text ↔ unled words 0 (text.map tolower) = true) :=
  ⟨tightAt_iff h text i, tightText_iff h text⟩

end Tight

theorem plain_shit : Plain [literal "shit"] :=
  ⟨by decide +kernel, by decide +kernel, by decide +kernel⟩

theorem tight_iff_shit :
    (TightAt [literal "shit"] (literal "s-h&it") 0 ↔
      (∀ c ∈ ((literal "s-h&it").drop 0).head?, isStop c = false) ∨
        ∀ w ∈ [literal "shit"], ¬ w <+: plain ((literal "s-h&it").drop 0)) ∧
    (TightText [literal "shit"] (literal "s-h&it") ↔
      unled [literal "shit"] 0 ((literal "s-h&it").map tolower) = true) :=
  tight_iff plain_shit (literal "s-h&it") 0

/-- The space before the word is masked along. -/
theorem not_tight_space : ¬ ∀ (words : List Bytes) (text : Bytes) (i : Nat), Plain words →
    TightAt words text i ∧ TightText words text := by
  intro h
  have hlen : getSensitiveLength (.build [literal "shit"]) (literal " shit") 0 = 5 := by decide +kernel
  have hat := (h [literal "shit"] (literal " shit") 0 plain_shit).1
  unfold TightAt at hat
  rw [hlen] at hat
  exact absurd (hat (by simp)).head (by decide +kernel)

example : replaceSensitive (.build [literal "shit"]) (literal "a -s-hit b") =
    .ok (literal "a******* b") := by decide +kernel

end CoffeeChat.TrieStop
