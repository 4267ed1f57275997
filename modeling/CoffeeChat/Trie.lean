import CoffeeChat.Lib.CText
import Mathlib.Data.List.Infix

/-!
# The sensitive-word trie

`TrieNode`, `Trie::insert` and `Trie::getSensitiveLength` in the version without stop characters.
The children of a node are a map from bytes, an absent child and a null pointer being the same. A
word ends in a child under `kEndFlag`, in the key space of the bytes; as long as no word has that
byte, what a trie accepts is what was inserted (`accepts_build`), and `getSensitiveLength` finds the
shortest accepted word (`getSensitiveLength_build`).
-/

namespace CoffeeChat
open Cpp

inductive TrieNode where
  | mk (subNodes_ : UInt8 → Option TrieNode)

def kEndFlag : UInt8 := 35

namespace TrieNode

def empty : TrieNode := mk fun _ => none

def getSubNode : TrieNode → UInt8 → Option TrieNode
  | mk subNodes_, c => subNodes_ c

def addSubNode (node : TrieNode) (c : UInt8) (subNode : TrieNode) : TrieNode :=
  mk fun d => if d = c then some subNode else node.getSubNode d

/-- `Trie::insert` from a node on. -/
def insert : TrieNode → Bytes → TrieNode
  -- the end mark is a child like any other
  | node, [] => node.addSubNode kEndFlag empty
  | node, c :: word => node.addSubNode c (((node.getSubNode c).getD empty).insert word)

def build (words : List Bytes) : TrieNode := words.foldl insert empty

/-- The loop of `getSensitiveLength` from `p1` on: `wordLen` and `endFlag` at its end. -/
def sensitiveLoop : TrieNode → Bytes → Nat → Nat × Bool
  | _, [], wordLen => (wordLen, false)
  | p1, cur :: rest, wordLen =>
    match p1.getSubNode cur with
    | none => (wordLen, false)
    | some subNode =>
      if (subNode.getSubNode kEndFlag).isSome then (wordLen + 1, true)
      else sensitiveLoop subNode rest (wordLen + 1)

def getSensitiveLength (root : TrieNode) (word : Bytes) (startIndex : Nat) : Nat :=
  let (wordLen, endFlag) := root.sensitiveLoop (word.drop startIndex) 0
  if endFlag then wordLen else 0

@[simp] theorem getSubNode_empty (c : UInt8) : empty.getSubNode c = none := rfl

theorem getSubNode_addSubNode (node : TrieNode) (c d : UInt8) (subNode : TrieNode) :
    (node.addSubNode c subNode).getSubNode d = if d = c then some subNode else node.getSubNode d := rfl

/-! ### What a trie accepts -/

/-- The word leads from the node to one that has an end mark. -/
def Accepts : TrieNode → Bytes → Prop
  | node, [] => (node.getSubNode kEndFlag).isSome
  | node, c :: word => ∃ subNode, node.getSubNode c = some subNode ∧ subNode.Accepts word

theorem accepts_cons {node : TrieNode} {c : UInt8} {word : Bytes} :
    node.Accepts (c :: word) ↔ ∃ subNode, node.getSubNode c = some subNode ∧ subNode.Accepts word := Iff.rfl

theorem not_accepts_empty (word : Bytes) : ¬ empty.Accepts word := by
  cases word <;> simp [Accepts]

theorem accepts_insert {w v : Bytes} (hw : kEndFlag ∉ w) (hv : kEndFlag ∉ v) (node : TrieNode) :
    (node.insert w).Accepts v ↔ v = w ∨ node.Accepts v := by
  induction w generalizing v node with
  | nil =>
    cases v with
    | nil => simp [insert, Accepts, getSubNode_addSubNode]
    | cons c v =>
      have hc : c ≠ kEndFlag := fun h => hv (by simp [h])
      simp only [insert, accepts_cons, getSubNode_addSubNode, if_neg hc, reduceCtorEq, false_or]
  | cons d w ih =>
    have hd : kEndFlag ≠ d := fun h => hw (by simp [h])
    cases v with
    | nil => simp [insert, Accepts, getSubNode_addSubNode, hd]
    | cons c v =>
      have hw' : kEndFlag ∉ w := fun h => hw (List.mem_cons_of_mem _ h)
      have hv' : kEndFlag ∉ v := fun h => hv (List.mem_cons_of_mem _ h)
      simp only [insert, accepts_cons, getSubNode_addSubNode, List.cons.injEq]
      by_cases hcd : c = d
      · subst hcd
        simp only [if_true, Option.some.injEq, exists_eq_left', ih hw' hv', true_and]
        cases node.getSubNode c with
        | none => simp [not_accepts_empty]
        | some sub => simp
      · simp [hcd]

theorem accepts_foldl_insert {words : List Bytes} (hflag : ∀ w ∈ words, kEndFlag ∉ w) {v : Bytes}
    (hv : kEndFlag ∉ v) (node : TrieNode) :
    (words.foldl insert node).Accepts v ↔ v ∈ words ∨ node.Accepts v := by
  induction words generalizing node with
  | nil => simp
  | cons w words ih =>
    rw [List.foldl_cons, ih (fun u hu => hflag u (List.mem_cons_of_mem _ hu)),
      accepts_insert (hflag w (by simp)) hv, List.mem_cons, or_left_comm, or_assoc]

/-- The trie accepts what was inserted, in whatever order and however often. -/
theorem accepts_build {words : List Bytes} (hflag : ∀ w ∈ words, kEndFlag ∉ w) {v : Bytes}
    (hv : kEndFlag ∉ v) : (build words).Accepts v ↔ v ∈ words := by
  rw [build, accepts_foldl_insert hflag hv, or_iff_left (not_accepts_empty v)]

end TrieNode

/-! ### The shortest word -/

def shortestPrefix (P : Bytes → Bool) (text : Bytes) : Option Bytes := text.inits.find? P

theorem shortestPrefix_of_nil {P : Bytes → Bool} (h : P []) (text : Bytes) :
    shortestPrefix P text = some [] := by
  cases text <;> simp [shortestPrefix, List.inits, h]

theorem shortestPrefix_cons {P : Bytes → Bool} (h : P [] = false) (c : UInt8) (text : Bytes) :
    shortestPrefix P (c :: text) = (shortestPrefix (fun w => P (c :: w)) text).map (c :: ·) := by
  simp only [shortestPrefix, List.inits, List.find?_cons, h, List.find?_map]
  rfl

theorem shortestPrefix_eq_none {P : Bytes → Bool} {text : Bytes} (h : ∀ w, P w = false) :
    shortestPrefix P text = none :=
  List.find?_eq_none.2 fun w _ => by simp [h w]

theorem shortestPrefix_eq_some {P : Bytes → Bool} {text w : Bytes} (h : shortestPrefix P text = some w) :
    P w ∧ w <+: text :=
  ⟨List.find?_some h, (List.mem_inits w text).1 (List.mem_of_find?_eq_some h)⟩

namespace TrieNode

section Child

variable {P : Bytes → Bool} {p1 : TrieNode} {cur : UInt8}

theorem eq_false_of_no_child (hflag : ∀ w, P w → kEndFlag ∉ w)
    (hp : ∀ w, kEndFlag ∉ w → (p1.Accepts w ↔ P w)) (hsub : p1.getSubNode cur = none) (w : Bytes) :
    P (cur :: w) = false := by
  by_contra hw
  rw [Bool.not_eq_false] at hw
  obtain ⟨_, h, -⟩ := (hp _ (hflag _ hw)).2 hw
  rw [hsub] at h
  cases h

theorem ne_kEndFlag_of_child (hp : ∀ w, kEndFlag ∉ w → (p1.Accepts w ↔ P w)) (hnil : P [] = false)
    {subNode : TrieNode} (hsub : p1.getSubNode cur = some subNode) : kEndFlag ≠ cur := by
  rintro rfl
  have hend : p1.Accepts [] := by simp [Accepts, hsub]
  rw [(hp [] List.not_mem_nil).1 hend] at hnil
  cases hnil

/-- A child accepts what is left of the words with its byte. -/
theorem accepts_child (hp : ∀ w, kEndFlag ∉ w → (p1.Accepts w ↔ P w)) (hnil : P [] = false)
    {subNode : TrieNode} (hsub : p1.getSubNode cur = some subNode) (w : Bytes) (hw : kEndFlag ∉ w) :
    subNode.Accepts w ↔ P (cur :: w) := by
  rw [← hp _ (List.not_mem_cons_of_ne_of_not_mem (ne_kEndFlag_of_child hp hnil hsub) hw), accepts_cons,
    hsub]
  simp

end Child

/-- From a node without an end mark the loop finds the shortest word that the node accepts. -/
theorem sensitiveLoop_eq {P : Bytes → Bool} (hflag : ∀ w, P w → kEndFlag ∉ w) {p1 : TrieNode}
    (hp : ∀ w, kEndFlag ∉ w → (p1.Accepts w ↔ P w)) (hnil : P [] = false) (text : Bytes) (wordLen : Nat) :
    match shortestPrefix P text with
    | some w => p1.sensitiveLoop text wordLen = (wordLen + w.length, true)
    | none => (p1.sensitiveLoop text wordLen).2 = false := by
  induction text generalizing P p1 wordLen with
  | nil => simp [shortestPrefix, List.inits, hnil, sensitiveLoop]
  | cons cur text ih =>
    rw [shortestPrefix_cons hnil, sensitiveLoop]
    cases hsub : p1.getSubNode cur with
    | none =>
      rw [shortestPrefix_eq_none (eq_false_of_no_child hflag hp hsub)]
      rfl
    | some sub =>
      have hsub' := accepts_child hp hnil hsub
      by_cases hend : (sub.getSubNode kEndFlag).isSome
      · rw [shortestPrefix_of_nil ((hsub' [] List.not_mem_nil).1 hend)]
        simp [hend]
      · have hnil' : P [cur] = false := by
          rw [← Bool.not_eq_true, ← hsub' [] List.not_mem_nil]
          exact hend
        have ih := ih (fun w hw => fun h => hflag _ hw (List.mem_cons_of_mem _ h)) hsub' hnil' (wordLen + 1)
        simp only [hend, Bool.false_eq_true, if_false]
        cases hshort : shortestPrefix (fun w => P (cur :: w)) text with
        | none => rw [hshort] at ih; exact ih
        | some w =>
          rw [hshort] at ih
          simp only [Option.map_some, List.length_cons, ih]
          congr 1
          omega

theorem getSensitiveLength_build {words : List Bytes} (hne : ∀ w ∈ words, w ≠ [])
    (hflag : ∀ w ∈ words, kEndFlag ∉ w) (text : Bytes) (i : Nat) :
    (build words).getSensitiveLength text i =
      ((shortestPrefix (· ∈ words) (text.drop i)).map List.length).getD 0 := by
  have h := sensitiveLoop_eq (P := fun w => decide (w ∈ words))
    (fun w hw => hflag w (of_decide_eq_true hw))
    (fun w hw => (accepts_build hflag hw).trans (decide_eq_true_iff).symm)
    (decide_eq_false fun h => hne [] h rfl) (text.drop i) 0
  rw [getSensitiveLength]
  cases hshort : shortestPrefix (fun w => decide (w ∈ words)) (text.drop i) with
  | none => rw [hshort] at h; simp [h]
  | some w => rw [hshort] at h; simp [h]

end TrieNode

end CoffeeChat
