import CoffeeChat.Trie
import CoffeeChat.Lib.Utf8

/-!
# Masking sensitive words

`Trie::getSensitive` and `Trie::replaceSensitive` in the version without stop characters, against
their reference `mask`: a scan of the lower-cased text that puts a star for every code point of the
shortest word at a position and copies the original byte where there is none. Indices are natural
numbers, which the `int` counters of the source hold for texts below 2^31 bytes.
-/

namespace CoffeeChat
open Cpp

structure SensitiveWord where
  word : Bytes
  startIndex : Nat
  len : Nat
  deriving DecidableEq, Repr

/-- `std::set<SensitiveWord>::insert`, the set being ordered by `startIndex`. -/
def setInsert (x : SensitiveWord) : List SensitiveWord → List SensitiveWord
  | [] => [x]
  | y :: ys =>
    if x.startIndex < y.startIndex then x :: y :: ys
    else if y.startIndex < x.startIndex then y :: setInsert x ys
    else y :: ys

/-- `chinese_len` for a byte with the top bit; none where `chinese_or_english_append` throws. -/
def chineseLen (chr : UInt8) : Option Nat :=
  if 0xFC ≤ chr ∧ chr ≤ 0xFD then some 6
  else if 0xF8 ≤ chr then some 5
  else if 0xF0 ≤ chr then some 4
  else if 0xE0 ≤ chr then some 3
  else if 0xC0 ≤ chr then some 2
  else none

/-- The loop of `chinese_or_english_append`: the stars behind those appended already. The first
argument counts the bytes that are still skipped. -/
def appendLoop : Nat → Bytes → Except StdException Bytes
  | _, [] => return []
  | skip + 1, _ :: rest => appendLoop skip rest
  | 0, chr :: rest =>
    if chr &&& 0x80 ≠ 0 then
      match chineseLen chr with
      | none => throw .exception
      | some n => do
        let stars ← appendLoop (n - 1) rest
        return 42 :: stars
    else do
      let stars ← appendLoop 0 rest
      return 42 :: stars

def chineseOrEnglishAppend (str : Bytes) : Except StdException Bytes := appendLoop 0 str

namespace TrieNode

/-- The loop of `getSensitive`; `fuel` bounds the rounds that are left. -/
def getSensitiveLoop (root : TrieNode) (word : Bytes) :
    Nat → Nat → List SensitiveWord → List SensitiveWord
  | 0, _, sensitiveSet => sensitiveSet
  | fuel + 1, i, sensitiveSet =>
    if i < word.length then
      let wordLen := root.getSensitiveLength word i
      if wordLen > 0 then
        let wordObj : SensitiveWord := ⟨(word.drop i).take wordLen, i, wordLen⟩
        -- `i += wordLen - 1`, and the increment of the loop
        root.getSensitiveLoop word fuel (i + wordLen - 1 + 1) (setInsert wordObj sensitiveSet)
      else root.getSensitiveLoop word fuel (i + 1) sensitiveSet
    else sensitiveSet

/-- `Trie::getSensitive`. A round moves `i` on, so there are at most as many as bytes. -/
def getSensitive (root : TrieNode) (word : Bytes) : List SensitiveWord :=
  root.getSensitiveLoop (word.map tolower) word.length 0 []

/-- The conversion of an `int` to `size_t`. -/
def sizeOfInt (z : Int) : Nat := if 0 ≤ z then z.toNat else (2 ^ 64 + z).toNat

/-- The loop of `replaceSensitive` over the set, and what is appended after it. -/
def spliceLoop (word : Bytes) : List SensitiveWord → Nat → Bytes → Except StdException Bytes
  | [], lastIndex, ret => do
    let rest ← substr word lastIndex (sizeOfInt (word.length - lastIndex))
    return ret ++ rest
  | item :: items, lastIndex, ret => do
    let str ← substr word item.startIndex item.len
    let replacement ← chineseOrEnglishAppend str
    let before ← substr word lastIndex (sizeOfInt (item.startIndex - lastIndex))
    spliceLoop word items (item.startIndex + item.len) (ret ++ before ++ replacement)

def replaceSensitive (root : TrieNode) (word : Bytes) : Except StdException Bytes :=
  spliceLoop word (root.getSensitive word) 0 []

end TrieNode

/-! ### The reference -/

def stars (w : Bytes) : Bytes := List.replicate ((Utf8.decode w).map List.length |>.getD 0) 42

/-- What the text becomes: at a position where a word occurs in the lower-cased text, the stars of the
shortest one, and on behind it; elsewhere the byte as it is. The first argument counts the bytes left
of the word that was masked last. -/
def maskFrom (words : List Bytes) : Nat → Bytes → Bytes
  | _, [] => []
  | skip + 1, _ :: text => maskFrom words skip text
  | 0, c :: text =>
    match shortestPrefix (· ∈ words) ((c :: text).map tolower) with
    | some w => stars w ++ maskFrom words (w.length - 1) text
    | none => c :: maskFrom words 0 text

def mask (words : List Bytes) (text : Bytes) : Bytes := maskFrom words 0 text

/-! ### Stars -/

theorem stars_encode (cs : List Char) : stars (Utf8.encode cs) = List.replicate cs.length 42 := by
  simp [stars]

theorem appendLoop_lead {n : Nat} {b : UInt8} (h : Utf8.LeadOf (n + 1) b) (rest : Bytes) :
    appendLoop 0 (b :: rest) = (do let stars ← appendLoop n rest; return 42 :: stars) := by
  have h₁ : ∀ b : UInt8, b < 0x80 → b &&& 0x80 = 0 := Utf8.forall_byte (by decide +kernel)
  have h₂ : ∀ b : UInt8, 0xC0 ≤ b ∧ b < 0xE0 → b &&& 0x80 ≠ 0 ∧ chineseLen b = some 2 :=
    Utf8.forall_byte (by decide +kernel)
  have h₃ : ∀ b : UInt8, 0xE0 ≤ b ∧ b < 0xF0 → b &&& 0x80 ≠ 0 ∧ chineseLen b = some 3 :=
    Utf8.forall_byte (by decide +kernel)
  have h₄ : ∀ b : UInt8, 0xF0 ≤ b ∧ b < 0xF8 → b &&& 0x80 ≠ 0 ∧ chineseLen b = some 4 :=
    Utf8.forall_byte (by decide +kernel)
  rw [appendLoop]
  rcases h with ⟨hn, hb⟩ | ⟨hn, hb⟩ | ⟨hn, hb⟩ | ⟨hn, hb⟩
  · obtain rfl : n = 0 := by omega
    rw [if_neg (not_not.2 (h₁ b hb))]
  · obtain rfl : n = 1 := by omega
    rw [if_pos (h₂ b hb).1, (h₂ b hb).2]
  · obtain rfl : n = 2 := by omega
    rw [if_pos (h₃ b hb).1, (h₃ b hb).2]
  · obtain rfl : n = 3 := by omega
    rw [if_pos (h₄ b hb).1, (h₄ b hb).2]

theorem appendLoop_skip (s t : Bytes) : appendLoop s.length (s ++ t) = appendLoop 0 t := by
  induction s with
  | nil => rfl
  | cons c s ih => exact ih

theorem leadOf_of_tolower {n : Nat} {b : UInt8} (h : Utf8.LeadOf n (tolower b)) : Utf8.LeadOf n b := by
  have hclass : ∀ b : UInt8, (tolower b < 0x80 → b < 0x80) ∧ (0x80 ≤ tolower b → tolower b = b) :=
    Utf8.forall_byte (by decide +kernel)
  rcases h with ⟨hn, hb⟩ | h
  · exact .inl ⟨hn, (hclass b).1 hb⟩
  · have hhigh : 0x80 ≤ tolower b := by
      rcases h with ⟨-, hb, -⟩ | ⟨-, hb, -⟩ | ⟨-, hb, -⟩ <;> exact UInt8.le_trans (by decide) hb
    rw [(hclass b).2 hhigh] at h
    exact .inr h

/-- The original of a word, whatever the case of its letters, becomes a star for every code point. -/
theorem chineseOrEnglishAppend_eq {w s : Bytes} (hw : Utf8.Valid w) (hs : s.map tolower = w) :
    chineseOrEnglishAppend s = .ok (stars w) := by
  obtain ⟨cs, rfl⟩ := hw
  rw [stars_encode, chineseOrEnglishAppend]
  induction cs generalizing s with
  | nil => rw [List.map_eq_nil_iff.1 hs]; rfl
  | cons c cs ih =>
    obtain ⟨b, rest, hchar, hlead⟩ := Utf8.leadOf_utf8EncodeChar c
    rw [Utf8.encode_cons, hchar, List.cons_append] at hs
    obtain ⟨b', s', rfl, rfl, hs'⟩ := List.map_eq_cons_iff.1 hs
    obtain ⟨s₁, s₂, rfl, hs₁, hs₂⟩ := List.map_eq_append_iff.1 hs'
    have hlen : rest.length = s₁.length := by rw [← hs₁, List.length_map]
    rw [appendLoop_lead (leadOf_of_tolower hlead), hlen, appendLoop_skip, ih hs₂]
    rfl

/-! ### The set of matches -/

/-- The matches from index `i` on that the rounds left find. -/
def matchesFrom (words : List Bytes) (word : Bytes) : Nat → Nat → List SensitiveWord
  | 0, _ => []
  | fuel + 1, i =>
    if i < word.length then
      match shortestPrefix (· ∈ words) (word.drop i) with
      | some w => ⟨w, i, w.length⟩ :: matchesFrom words word fuel (i + w.length)
      | none => matchesFrom words word fuel (i + 1)
    else []

theorem setInsert_last {x : SensitiveWord} {set : List SensitiveWord}
    (h : ∀ y ∈ set, y.startIndex < x.startIndex) : setInsert x set = set ++ [x] := by
  induction set with
  | nil => rfl
  | cons y ys ih =>
    have hy := h y (by simp)
    rw [setInsert, if_neg (by omega), if_pos hy, ih fun z hz => h z (List.mem_cons_of_mem _ hz)]
    rfl

theorem startIndex_lt_append {x : SensitiveWord} {set : List SensitiveWord} {n : Nat}
    (h : ∀ y ∈ set, y.startIndex < x.startIndex) (hn : 0 < n) :
    ∀ y ∈ set ++ [x], y.startIndex < x.startIndex + n := by
  intro y hy
  rcases List.mem_append.1 hy with hy | hy
  · exact (h y hy).trans (by omega)
  · rw [List.mem_singleton.1 hy]
    omega

theorem maskFrom_skip (words : List Bytes) (n : Nat) (text : Bytes) :
    maskFrom words n text = maskFrom words 0 (text.drop n) := by
  induction text generalizing n with
  | nil => cases n <;> simp [maskFrom]
  | cons c text ih =>
    cases n with
    | zero => rfl
    | succ n => exact ih n

namespace TrieNode

theorem getSensitiveLoop_build {words : List Bytes} (hne : ∀ w ∈ words, w ≠ [])
    (hflag : ∀ w ∈ words, kEndFlag ∉ w) (word : Bytes) (fuel i : Nat) (set : List SensitiveWord)
    (hset : ∀ x ∈ set, x.startIndex < i) :
    (build words).getSensitiveLoop word fuel i set = set ++ matchesFrom words word fuel i := by
  induction fuel generalizing i set with
  | zero => simp [getSensitiveLoop, matchesFrom]
  | succ fuel ih =>
    rw [getSensitiveLoop, matchesFrom]
    split
    next hi =>
      simp only [getSensitiveLength_build hne hflag]
      cases hshort : shortestPrefix (fun w => decide (w ∈ words)) (word.drop i) with
      | none =>
        simp only [Option.map_none, Option.getD_none, gt_iff_lt, Nat.lt_irrefl, if_false]
        exact ih (i + 1) set fun x hx => Nat.lt_succ_of_lt (hset x hx)
      | some w =>
        obtain ⟨hw, hstart⟩ := shortestPrefix_eq_some hshort
        have hpos : 0 < w.length := List.length_pos_of_ne_nil (hne w (of_decide_eq_true hw))
        simp only [Option.map_some, Option.getD_some, gt_iff_lt, hpos, if_true]
        rw [List.prefix_iff_eq_take.1 hstart |>.symm, setInsert_last hset,
          show i + w.length - 1 + 1 = i + w.length by omega, ih, List.append_assoc]
        · rfl
        · exact startIndex_lt_append (x := ⟨w, i, w.length⟩) hset hpos
    next => simp

theorem sizeOfInt_sub {a b : Nat} (h : b ≤ a) : sizeOfInt (a - b) = a - b := by
  rw [sizeOfInt, if_pos (by omega)]
  omega

theorem spliceLoop_nil (words : List Bytes) {text : Bytes} (ret : Bytes) {i lastIndex : Nat}
    (hi : i = text.length) (hlast : lastIndex ≤ i) : spliceLoop text [] lastIndex ret =
      .ok (ret ++ (text.drop lastIndex).take (i - lastIndex) ++ maskFrom words 0 (text.drop i)) := by
  subst hi
  rw [spliceLoop, sizeOfInt_sub hlast, substr_of_le hlast, ok_bind, pure_eq_ok, List.drop_length,
    maskFrom, List.append_nil]

theorem spliceLoop_cons {text ret w : Bytes} {i lastIndex : Nat} (hvalid : Utf8.Valid w)
    (hw : w <+: (text.map tolower).drop i) (hi : i ≤ text.length) (hlast : lastIndex ≤ i)
    (items : List SensitiveWord) :
    spliceLoop text (⟨w, i, w.length⟩ :: items) lastIndex ret = spliceLoop text items (i + w.length)
      (ret ++ (text.drop lastIndex).take (i - lastIndex) ++ stars w) := by
  have hstr : ((text.drop i).take w.length).map tolower = w := by
    rw [List.map_take, List.map_drop]
    exact (List.prefix_iff_eq_take.1 hw).symm
  rw [spliceLoop, substr_of_le hi, ok_bind, chineseOrEnglishAppend_eq hvalid hstr, ok_bind,
    sizeOfInt_sub hlast, substr_of_le (by omega), ok_bind]

theorem maskFrom_of_none {words : List Bytes} {text : Bytes} {i : Nat} (hi : i < text.length)
    (h : shortestPrefix (· ∈ words) ((text.map tolower).drop i) = none) :
    maskFrom words 0 (text.drop i) = text[i] :: maskFrom words 0 (text.drop (i + 1)) := by
  rw [← List.map_drop] at h
  rw [List.drop_eq_getElem_cons hi] at h ⊢
  rw [maskFrom, h]

theorem maskFrom_of_some {words : List Bytes} {text w : Bytes} {i : Nat} (hi : i < text.length)
    (hw : w ≠ []) (h : shortestPrefix (· ∈ words) ((text.map tolower).drop i) = some w) :
    maskFrom words 0 (text.drop i) = stars w ++ maskFrom words 0 (text.drop (i + w.length)) := by
  have hpos := List.length_pos_of_ne_nil hw
  rw [← List.map_drop] at h
  rw [List.drop_eq_getElem_cons hi] at h ⊢
  rw [maskFrom, h]
  show stars w ++ maskFrom words (w.length - 1) (text.drop (i + 1)) = _
  rw [maskFrom_skip words (w.length - 1), List.drop_drop,
    show i + 1 + (w.length - 1) = i + w.length by omega]

theorem spliceLoop_matchesFrom {words : List Bytes} (hne : ∀ w ∈ words, w ≠ [])
    (hvalid : ∀ w ∈ words, Utf8.Valid w) (text : Bytes) (fuel i lastIndex : Nat) (ret : Bytes)
    (hi : i ≤ text.length) (hlast : lastIndex ≤ i) (hfuel : text.length ≤ i + fuel) :
    spliceLoop text (matchesFrom words (text.map tolower) fuel i) lastIndex ret =
      .ok (ret ++ (text.drop lastIndex).take (i - lastIndex) ++ maskFrom words 0 (text.drop i)) := by
  induction fuel generalizing i lastIndex ret with
  | zero => exact spliceLoop_nil words ret (by omega) hlast
  | succ fuel ih =>
    rw [matchesFrom]
    split
    next hlt =>
      rw [List.length_map] at hlt
      split
      next w hshort =>
        obtain ⟨hw, hstart⟩ := shortestPrefix_eq_some hshort
        have hmem : w ∈ words := of_decide_eq_true hw
        have hpos := List.length_pos_of_ne_nil (hne w hmem)
        have hle := hstart.length_le
        rw [List.length_drop, List.length_map] at hle
        rw [spliceLoop_cons (hvalid w hmem) hstart hi hlast, ih _ _ _ (by omega) le_rfl (by omega),
          maskFrom_of_some hlt (hne w hmem) hshort]
        simp
      next hshort =>
        have htake : (text.drop lastIndex).take (i + 1 - lastIndex) =
            (text.drop lastIndex).take (i - lastIndex) ++ [text[i]] := by
          rw [Nat.succ_sub hlast, List.take_succ_eq_append_getElem (by simp; omega)]
          simp [Nat.add_sub_cancel' hlast]
        rw [ih _ _ _ (by omega) (by omega) (by omega), maskFrom_of_none hlt hshort, htake]
        simp
    next hge =>
      rw [List.length_map] at hge
      exact spliceLoop_nil words ret (by omega) hlast

/-- `replaceSensitive` masks a text as the reference does. -/
theorem replaceSensitive_eq_mask {words : List Bytes} (hne : ∀ w ∈ words, w ≠ [])
    (hvalid : ∀ w ∈ words, Utf8.Valid w) (hflag : ∀ w ∈ words, kEndFlag ∉ w) (text : Bytes) :
    (build words).replaceSensitive text = .ok (mask words text) := by
  have hset := getSensitiveLoop_build hne hflag (text.map tolower) text.length 0 [] (by simp)
  rw [replaceSensitive, getSensitive, hset, List.nil_append,
    spliceLoop_matchesFrom hne hvalid text text.length 0 0 [] (by omega) (by omega) (by omega)]
  rfl

/-- The chapter's example. -/
theorem replaceSensitive_eq_mask_example :
    (build [literal "你是傻逼", literal "你个大笨蛋", literal "shit"]).replaceSensitive
      (literal "SHit，你你你你是傻逼啊你，说你呢，你个大笨蛋。") =
        .ok (literal "****，你你你****啊你，说你呢，*****。") := by
  rw [replaceSensitive_eq_mask (by decide +kernel) (by simp [Utf8.valid_literal]) (by decide +kernel)]
  decide +kernel

end TrieNode

end CoffeeChat
