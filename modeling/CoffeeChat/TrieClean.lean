import CoffeeChat.TrieMask
import CoffeeChat.TrieSearch
import CoffeeChat.Lib.Utf8Table

/-!
# Masked texts

What `replaceSensitive` leaves of a text: no word without capital letters occurs in it any more, in
whatever case it is written, so that `search` finds nothing and masking it again changes nothing; and it
has as many code points as before. This rests on words without stars, since a word with a star could come
into being by masking another one. Words with capital letters are never found, and may be left.
-/

namespace CoffeeChat
open Cpp

/-- Words as a dictionary for masking has them. -/
structure Maskable (words : List Bytes) : Prop where
  ne_nil : ∀ w ∈ words, w ≠ []
  valid : ∀ w ∈ words, Utf8.Valid w
  flag : ∀ w ∈ words, kEndFlag ∉ w
  star : ∀ w ∈ words, (42 : UInt8) ∉ w

/-- No word occurs in the text when it is lower-cased. -/
def Clean (words : List Bytes) (text : Bytes) : Prop := ∀ w ∈ words, ¬ w <:+: text.map tolower

section Clean

variable {words : List Bytes}

theorem not_prefix_of_shortest {text : Bytes} (h : shortestPrefix (· ∈ words) text = none) :
    ∀ w ∈ words, ¬ w <+: text := by
  intro w hw hinit
  have hnone := List.find?_eq_none.1 h w ((List.mem_inits w text).2 hinit)
  exact hnone (decide_eq_true hw)

theorem mask_of_clean {text : Bytes} (h : Clean words text) : mask words text = text := by
  rw [mask]
  induction text with
  | nil => rfl
  | cons c text ih =>
    rw [maskFrom]
    split
    next w hshort =>
      obtain ⟨hw, hinit⟩ := shortestPrefix_eq_some hshort
      exact absurd hinit.isInfix (h w (of_decide_eq_true hw))
    next =>
      rw [ih]
      intro w hw hinfix
      exact h w hw (List.infix_cons hinfix)

/-- A word becomes at least one star. -/
theorem stars_eq_cons (h : Maskable words) {w : Bytes} (hw : w ∈ words) : ∃ n, stars w = List.replicate (n + 1) 42 := by
  obtain ⟨cs, rfl⟩ := h.valid w hw
  cases cs with
  | nil => exact absurd rfl (h.ne_nil _ hw)
  | cons c cs => exact ⟨cs.length, stars_encode (c :: cs)⟩

/-- Up to the first star a masked text is the text. -/
theorem prefix_of_prefix_mask (h : Maskable words) {text w : Bytes} (hstar : (42 : UInt8) ∉ w)
    (hw : w <+: (maskFrom words 0 text).map tolower) : w <+: text.map tolower := by
  induction text generalizing w with
  | nil => exact hw
  | cons c text ih =>
    cases w with
    | nil => exact List.nil_prefix
    | cons b w =>
      rw [maskFrom] at hw
      split at hw
      next v hshort =>
        obtain ⟨n, hstars⟩ := stars_eq_cons h (of_decide_eq_true (shortestPrefix_eq_some hshort).1)
        rw [hstars, List.replicate_succ, List.cons_append, List.map_cons, List.cons_prefix_cons] at hw
        rw [hw.1] at hstar
        exact absurd (List.mem_cons_self ..) hstar
      next =>
        rw [List.map_cons, List.cons_prefix_cons] at hw ⊢
        exact ⟨hw.1, ih (fun hmem => hstar (List.mem_cons_of_mem b hmem)) hw.2⟩

theorem infix_of_infix_stars {w text : Bytes} (hne : w ≠ []) (hstar : (42 : UInt8) ∉ w) {n : Nat}
    (h : w <:+: List.replicate n 42 ++ text) : w <:+: text := by
  induction n with
  | zero => exact h
  | succ n ih =>
    rw [List.replicate_succ, List.cons_append, List.infix_cons_iff] at h
    rcases h with hinit | hinfix
    · obtain ⟨b, w, rfl⟩ := List.exists_cons_of_ne_nil hne
      rw [(List.cons_prefix_cons.1 hinit).1] at hstar
      exact absurd (List.mem_cons_self ..) hstar
    · exact ih hinfix

theorem clean_mask (h : Maskable words) (text : Bytes) : Clean words (mask words text) := by
  intro w hw
  rw [mask]
  induction hn : text.length using Nat.strong_induction_on generalizing text with
  | _ n ih =>
    cases text with
    | nil => exact fun hinfix => h.ne_nil w hw (List.infix_nil.1 hinfix)
    | cons c text =>
      rw [maskFrom]
      split
      next v hshort =>
        obtain ⟨k, hstars⟩ := stars_eq_cons h (of_decide_eq_true (shortestPrefix_eq_some hshort).1)
        have htolower : tolower 42 = 42 := by decide
        rw [hstars, maskFrom_skip, List.map_append, List.map_replicate, htolower]
        intro hinfix
        refine ih _ ?_ (text.drop (v.length - 1)) rfl (infix_of_infix_stars (h.ne_nil w hw) (h.star w hw) hinfix)
        rw [← hn, List.length_drop, List.length_cons]
        omega
      next hshort =>
        rw [List.map_cons, List.infix_cons_iff]
        rintro (hinit | hinfix)
        · -- the word would have been found in the text
          have hmask : w <+: (maskFrom words 0 (c :: text)).map tolower := by
            rw [maskFrom, hshort]
            exact hinit
          exact not_prefix_of_shortest hshort w hw (prefix_of_prefix_mask h (h.star w hw) hmask)
        · refine ih text.length ?_ text rfl hinfix
          rw [← hn, List.length_cons]
          exact Nat.lt_succ_self _

theorem search_of_clean (h : Maskable words) {text : Bytes} (hclean : Clean words text) :
    (TrieNode.build words).search text = false := by
  rw [← Bool.not_eq_true, TrieNode.search_build h.ne_nil]
  rintro ⟨w, hw, hinfix⟩
  rw [stem_of_not_mem fun hmem => h.flag w hw (List.mem_of_mem_tail hmem)] at hinfix
  exact hclean w hw hinfix

end Clean

/-! ### Code points -/

section CodePoints

variable {words : List Bytes}

theorem leadOf_unique {n m : Nat} {b : UInt8} (h : Utf8.LeadOf n b) (h' : Utf8.LeadOf m b) : n = m := by
  simp only [Utf8.LeadOf, UInt8.lt_iff_toNat_lt, UInt8.le_iff_toNat_le, UInt8.reduceToNat] at h h'
  omega

/-- A word at the beginning of a text covers whole code points of it. -/
theorem covers_of_prefix {ds cs : List Char} (h : Utf8.encode ds <+: (Utf8.encode cs).map tolower) :
    ∃ cs₁ cs₂, cs = cs₁ ++ cs₂ ∧ cs₁.length = ds.length ∧ (Utf8.encode cs₁).length = (Utf8.encode ds).length := by
  induction ds generalizing cs with
  | nil => exact ⟨[], cs, rfl, rfl, rfl⟩
  | cons d ds ih =>
    obtain ⟨b, rest, hchar, hlead⟩ := Utf8.leadOf_utf8EncodeChar d
    cases cs with
    | nil =>
      rw [Utf8.encode_cons, hchar] at h
      cases List.prefix_nil.1 h
    | cons c cs =>
      obtain ⟨b', rest', hchar', hlead'⟩ := Utf8.leadOf_utf8EncodeChar c
      rw [Utf8.encode_cons, Utf8.encode_cons, hchar, hchar', List.map_append, List.map_cons, List.cons_append,
        List.cons_append, List.cons_prefix_cons] at h
      obtain ⟨hb, htail⟩ := h
      rw [hb] at hlead
      have hlength : rest.length = rest'.length := Nat.succ.inj (leadOf_unique (leadOf_of_tolower hlead) hlead')
      have hrest : Utf8.encode ds <+: (Utf8.encode cs).map tolower := by
        have hdrop := htail.drop rest.length
        rw [List.drop_left] at hdrop
        have hlen : rest.length = (rest'.map tolower).length := by rw [List.length_map, hlength]
        rwa [hlen, List.drop_left] at hdrop
      obtain ⟨cs₁, cs₂, rfl, hcount, hbytes⟩ := ih hrest
      refine ⟨c :: cs₁, cs₂, rfl, congrArg (· + 1) hcount, ?_⟩
      rw [Utf8.encode_cons, Utf8.encode_cons, List.length_append, List.length_append, hbytes, hchar, hchar',
        List.length_cons, List.length_cons, hlength]

/-- No word begins inside a code point. -/
theorem shortestPrefix_tail (h : Maskable words) {b : UInt8} (hb : Utf8.Range.Has Utf8.tail b) (text : Bytes) :
    shortestPrefix (· ∈ words) ((b :: text).map tolower) = none := by
  refine List.find?_eq_none.2 fun w hinit hmem => ?_
  have hw : w ∈ words := of_decide_eq_true hmem
  obtain ⟨ds, rfl⟩ := h.valid w hw
  cases ds with
  | nil => exact h.ne_nil _ hw rfl
  | cons d ds =>
    obtain ⟨b', rest, hchar, hlead⟩ := Utf8.leadOf_utf8EncodeChar d
    have hhead := (List.mem_inits _ _).1 hinit
    rw [Utf8.encode_cons, hchar, List.cons_append, List.map_cons, List.cons_prefix_cons] at hhead
    rw [hhead.1] at hlead
    have hlead := leadOf_of_tolower hlead
    simp only [Utf8.Range.Has, Utf8.tail, Utf8.LeadOf, UInt8.lt_iff_toNat_lt, UInt8.le_iff_toNat_le,
      UInt8.reduceToNat] at hb hlead
    omega

theorem maskFrom_tail (h : Maskable words) {bs : Bytes} (hbs : ∀ b ∈ bs, Utf8.Range.Has Utf8.tail b) (text : Bytes) :
    maskFrom words 0 (bs ++ text) = bs ++ maskFrom words 0 text := by
  induction bs with
  | nil => rfl
  | cons b bs ih =>
    obtain ⟨hb, hbs⟩ := List.forall_mem_cons.1 hbs
    rw [List.cons_append, maskFrom, shortestPrefix_tail h hb, List.cons_append]
    exact congrArg (b :: ·) (ih hbs)

theorem encode_stars (n : Nat) : Utf8.encode (List.replicate n '*') = List.replicate n 42 := by
  induction n with
  | zero => rfl
  | succ n ih => rw [List.replicate_succ, Utf8.encode_cons, ih, List.replicate_succ]; rfl

/-- Masking keeps the number of code points. -/
theorem mask_encode (h : Maskable words) (cs : List Char) :
    ∃ cs', mask words (Utf8.encode cs) = Utf8.encode cs' ∧ cs'.length = cs.length := by
  rw [mask]
  induction hn : cs.length using Nat.strong_induction_on generalizing cs with
  | _ n ih =>
    cases cs with
    | nil => exact ⟨[], rfl, hn⟩
    | cons c cs =>
      obtain ⟨b, bs, hchar, -⟩ := Utf8.leadOf_utf8EncodeChar c
      have htext : Utf8.encode (c :: cs) = b :: (bs ++ Utf8.encode cs) := by
        rw [Utf8.encode_cons, hchar, List.cons_append]
      rw [htext, maskFrom, ← htext]
      split
      next w hshort =>
        obtain ⟨hw, hinit⟩ := shortestPrefix_eq_some hshort
        have hw : w ∈ words := of_decide_eq_true hw
        obtain ⟨ds, rfl⟩ := h.valid w hw
        obtain ⟨cs₁, cs₂, hsplit, hcount, hbytes⟩ := covers_of_prefix hinit
        have hpos := List.length_pos_of_ne_nil (h.ne_nil _ hw)
        have hrest : (bs ++ Utf8.encode cs).drop ((Utf8.encode ds).length - 1) = Utf8.encode cs₂ := by
          have hdrop : (b :: (bs ++ Utf8.encode cs)).drop (Utf8.encode ds).length = Utf8.encode cs₂ := by
            rw [← htext, hsplit, ← hbytes, Utf8.encode_append]
            exact List.drop_left
          rwa [show (Utf8.encode ds).length = (Utf8.encode ds).length - 1 + 1 by omega, List.drop_succ_cons] at hdrop
        have hne : ds ≠ [] := fun hnil => h.ne_nil _ hw (by rw [hnil]; rfl)
        have hlength := congrArg List.length hsplit
        rw [List.length_append, hn, hcount] at hlength
        obtain ⟨cs', hmask, hcs'⟩ := ih cs₂.length (by have := List.length_pos_of_ne_nil hne; omega) cs₂ rfl
        refine ⟨List.replicate ds.length '*' ++ cs', ?_, ?_⟩
        · rw [maskFrom_skip, hrest, hmask, stars_encode, Utf8.encode_append, encode_stars]
        · rw [List.length_append, List.length_replicate, hcs', hlength]
      next =>
        have htail : ∀ b ∈ bs, Utf8.Range.Has Utf8.tail b := by
          have hall := Utf8.tail_utf8EncodeChar c
          rwa [hchar] at hall
        obtain ⟨cs', hmask, hcs'⟩ := ih cs.length (by rw [← hn]; exact Nat.lt_succ_self _) cs rfl
        refine ⟨c :: cs', ?_, by rw [List.length_cons, hcs', ← hn, List.length_cons]⟩
        rw [maskFrom_tail h htail, hmask, Utf8.encode_cons, hchar, List.cons_append]

end CodePoints

theorem replaceSensitive_build {words : List Bytes} (h : Maskable words) (text : Bytes) :
    (TrieNode.build words).replaceSensitive text = .ok (mask words text) := by
  have hset := TrieNode.getSensitiveLoop_build h.ne_nil h.flag (text.map tolower) text.length 0 [] (by simp)
  rw [TrieNode.replaceSensitive, TrieNode.getSensitive, hset, List.nil_append,
    TrieNode.spliceLoop_matchesFrom h.ne_nil h.valid text text.length 0 0 [] (by omega) (by omega) (by omega)]
  rfl

/-- Nothing that becomes a word when it is lower-cased occurs in a clean text. -/
theorem Clean.not_infix {words : List Bytes} {text v : Bytes} (h : Clean words text) (hv : v.map tolower ∈ words) :
    ¬ v <:+: text := by
  intro hocc
  exact h _ hv (hocc.map tolower)

/-- Nothing in a masked text becomes a word when it is lower-cased; it is not changed by masking it again, and
has as many code points as the text. -/
theorem replaceSensitive_clean {words : List Bytes} (h : Maskable words) (text : Bytes) :
    ∃ masked, (TrieNode.build words).replaceSensitive text = .ok masked ∧
      (∀ v, v.map tolower ∈ words → ¬ v <:+: masked) ∧
      (TrieNode.build words).search masked = false ∧
      (TrieNode.build words).replaceSensitive masked = .ok masked ∧
      ∀ cs, Utf8.encode cs = text → ∃ cs', Utf8.encode cs' = masked ∧ cs'.length = cs.length := by
  have hclean := clean_mask h text
  refine ⟨mask words text, replaceSensitive_build h text, fun v hv => hclean.not_infix hv,
    search_of_clean h hclean, ?_, ?_⟩
  · rw [replaceSensitive_build h, mask_of_clean hclean]
  · rintro cs rfl
    obtain ⟨cs', hmask, hcs'⟩ := mask_encode h cs
    exact ⟨cs', hmask.symm, hcs'⟩

theorem replaceSensitive_clean_shit : ∃ masked,
    (TrieNode.build [literal "shit"]).replaceSensitive (literal "SHit，shit") = .ok masked ∧
      ¬ literal "SHit" <:+: masked ∧ (TrieNode.build [literal "shit"]).search masked = false := by
  have hmaskable : Maskable [literal "shit"] :=
    ⟨by decide +kernel, by simp [Utf8.valid_literal], by decide +kernel, by decide +kernel⟩
  obtain ⟨masked, hmasked, hclean, hsearch, -⟩ := replaceSensitive_clean hmaskable (literal "SHit，shit")
  exact ⟨masked, hmasked, hclean _ (by decide +kernel), hsearch⟩

end CoffeeChat
