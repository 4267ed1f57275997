import CoffeeChat.Lib.Utf8
import Mathlib.Data.List.Forall2

/-!
# The table of well-formed UTF-8

`follow b` are the ranges of the bytes that follow the lead byte `b`. A code point's encoding is a
lead byte followed by one byte out of each of its ranges, and every such sequence is the encoding of
a code point (`encodes_iff`), so that a byte string is valid exactly if it splits into these.
-/

namespace Utf8

abbrev Range := UInt8 × UInt8

def Range.Has (r : Range) (b : UInt8) : Prop := r.1 ≤ b ∧ b ≤ r.2

instance (r : Range) (b : UInt8) : Decidable (r.Has b) := inferInstanceAs (Decidable (_ ∧ _))

/-- Any byte that is not the first of its code point. -/
def tail : Range := (0x80, 0xBF)

/-- The ranges of the bytes after `b`, none where no code point starts with it. -/
def follow (b : UInt8) : Option (List Range) :=
  if b < 0x80 then some []
  else if b < 0xC2 then none
  else if b < 0xE0 then some [tail]
  else if b = 0xE0 then some [(0xA0, 0xBF), tail]
  else if b = 0xED then some [(0x80, 0x9F), tail]
  else if b < 0xF0 then some [tail, tail]
  else if b = 0xF0 then some [(0x90, 0xBF), tail, tail]
  else if b < 0xF4 then some [tail, tail, tail]
  else if b = 0xF4 then some [(0x80, 0x8F), tail, tail]
  else none

def Fits (rs : List Range) (bs : List UInt8) : Prop := List.Forall₂ Range.Has rs bs

@[simp] theorem fits_nil {bs : List UInt8} : Fits [] bs ↔ bs = [] := List.forall₂_nil_left_iff

theorem fits_cons {r : Range} {rs : List Range} {bs : List UInt8} :
    Fits (r :: rs) bs ↔ ∃ b bs', r.Has b ∧ Fits rs bs' ∧ bs = b :: bs' := List.forall₂_cons_left_iff

@[simp] theorem fits_cons_cons {r : Range} {rs : List Range} {b : UInt8} {bs : List UInt8} :
    Fits (r :: rs) (b :: bs) ↔ r.Has b ∧ Fits rs bs := List.forall₂_cons

theorem exists_of_fits_one {r : Range} {bs : List UInt8} (h : Fits [r] bs) : ∃ b, r.Has b ∧ bs = [b] := by
  obtain ⟨b, bs', hb, hnil, rfl⟩ := fits_cons.1 h
  exact ⟨b, hb, by rw [fits_nil.1 hnil]⟩

theorem exists_of_fits_two {r₁ r₂ : Range} {bs : List UInt8} (h : Fits [r₁, r₂] bs) :
    ∃ b₁ b₂, r₁.Has b₁ ∧ r₂.Has b₂ ∧ bs = [b₁, b₂] := by
  obtain ⟨b₁, bs', hb₁, hbs', rfl⟩ := fits_cons.1 h
  obtain ⟨b₂, hb₂, rfl⟩ := exists_of_fits_one hbs'
  exact ⟨b₁, b₂, hb₁, hb₂, rfl⟩

theorem exists_of_fits_three {r₁ r₂ r₃ : Range} {bs : List UInt8} (h : Fits [r₁, r₂, r₃] bs) :
    ∃ b₁ b₂ b₃, r₁.Has b₁ ∧ r₂.Has b₂ ∧ r₃.Has b₃ ∧ bs = [b₁, b₂, b₃] := by
  obtain ⟨b₁, bs', hb₁, hbs', rfl⟩ := fits_cons.1 h
  obtain ⟨b₂, b₃, hb₂, hb₃, rfl⟩ := exists_of_fits_two hbs'
  exact ⟨b₁, b₂, b₃, hb₁, hb₂, hb₃, rfl⟩

/-! ### The bytes of one code point -/

theorem toNat_ofNat_of_lt {n : Nat} (h : n < 256) : (UInt8.ofNat n).toNat = n := by
  rw [UInt8.toNat_ofNat']
  omega

theorem follow_of_toNat {b : UInt8} : follow b =
    if b.toNat < 0x80 then some []
    else if b.toNat < 0xC2 then none
    else if b.toNat < 0xE0 then some [tail]
    else if b.toNat = 0xE0 then some [(0xA0, 0xBF), tail]
    else if b.toNat = 0xED then some [(0x80, 0x9F), tail]
    else if b.toNat < 0xF0 then some [tail, tail]
    else if b.toNat = 0xF0 then some [(0x90, 0xBF), tail, tail]
    else if b.toNat < 0xF4 then some [tail, tail, tail]
    else if b.toNat = 0xF4 then some [(0x80, 0x8F), tail, tail]
    else none := by
  simp only [follow, UInt8.lt_iff_toNat_lt, ← UInt8.toNat_inj, UInt8.reduceToNat]

theorem has_iff {lo hi b : UInt8} : Range.Has (lo, hi) b ↔ lo.toNat ≤ b.toNat ∧ b.toNat ≤ hi.toNat := by
  simp only [Range.Has, UInt8.le_iff_toNat_le]

/-- The code points are the numbers below `0x110000` that are not surrogates. -/
theorem char_range (c : Char) : c.toNat < 0xD800 ∨ 0xDFFF < c.toNat ∧ c.toNat < 0x110000 := c.valid

theorem utf8EncodeChar_eq (c : Char) : String.utf8EncodeChar c =
    if c.toNat ≤ 0x7F then [UInt8.ofNat c.toNat]
    else if c.toNat ≤ 0x7FF then
      [UInt8.ofNat (c.toNat / 64 % 0x20 + 0xC0), UInt8.ofNat (c.toNat % 0x40 + 0x80)]
    else if c.toNat ≤ 0xFFFF then
      [UInt8.ofNat (c.toNat / 4096 % 0x10 + 0xE0), UInt8.ofNat (c.toNat / 64 % 0x40 + 0x80),
        UInt8.ofNat (c.toNat % 0x40 + 0x80)]
    else
      [UInt8.ofNat (c.toNat / 262144 % 0x08 + 0xF0), UInt8.ofNat (c.toNat / 4096 % 0x40 + 0x80),
        UInt8.ofNat (c.toNat / 64 % 0x40 + 0x80), UInt8.ofNat (c.toNat % 0x40 + 0x80)] := rfl

theorem utf8EncodeChar_ascii {c : Char} (h : c.toNat < 0x80) :
    String.utf8EncodeChar c = [UInt8.ofNat c.toNat] := by
  rw [utf8EncodeChar_eq, if_pos (Nat.le_of_lt_succ h)]

theorem le_of_mem_utf8EncodeChar {c : Char} (h : 0x80 ≤ c.toNat) {b : UInt8}
    (hb : b ∈ String.utf8EncodeChar c) : 0x80 ≤ b.toNat := by
  have hle : ∀ n k : Nat, 0x80 ≤ k → n + k < 256 → 0x80 ≤ (UInt8.ofNat (n + k)).toNat := by
    intro n k hk hlt
    rw [toNat_ofNat_of_lt hlt]
    omega
  rw [utf8EncodeChar_eq, if_neg (by omega)] at hb
  split_ifs at hb <;> simp only [List.mem_cons, List.not_mem_nil, or_false] at hb
  · rcases hb with rfl | rfl <;> exact hle _ _ (by decide) (by omega)
  · rcases hb with rfl | rfl | rfl <;> exact hle _ _ (by decide) (by omega)
  · rcases hb with rfl | rfl | rfl | rfl <;> exact hle _ _ (by decide) (by omega)

theorem exists_char {n : Nat} (h : n < 0xD800 ∨ 0xDFFF < n ∧ n < 0x110000) : ∃ c : Char, c.toNat = n :=
  ⟨Char.ofNatAux n h, rfl⟩

theorem ofNat_eq_of_toNat {n : Nat} {b : UInt8} (h : n = b.toNat) : UInt8.ofNat n = b := by
  rw [h, UInt8.ofNat_toNat]

theorem has_ofNat {lo hi : UInt8} {n : Nat} (h₁ : lo.toNat ≤ n) (h₂ : n ≤ hi.toNat) :
    Range.Has (lo, hi) (UInt8.ofNat n) := by
  have hhi := hi.toNat_lt
  rw [has_iff, toNat_ofNat_of_lt (by omega)]
  exact ⟨h₁, h₂⟩

theorem tail_ofNat (n : Nat) : Range.Has tail (UInt8.ofNat (n % 0x40 + 0x80)) :=
  has_ofNat (by simp only [UInt8.reduceToNat]; omega) (by simp only [UInt8.reduceToNat]; omega)

theorem encode_append (cs ds : List Char) : encode (cs ++ ds) = encode cs ++ encode ds := List.flatMap_append

theorem tail_utf8EncodeChar (c : Char) : ∀ b ∈ (String.utf8EncodeChar c).tail, Range.Has tail b := by
  intro b hb
  rw [utf8EncodeChar_eq] at hb
  split_ifs at hb <;> simp only [List.tail_cons, List.mem_cons, List.not_mem_nil, or_false] at hb
  · rw [hb]
    exact tail_ofNat _
  · rcases hb with rfl | rfl <;> exact tail_ofNat _
  · rcases hb with rfl | rfl | rfl <;> exact tail_ofNat _

/-- The encoding of a code point is a lead byte and the bytes its ranges ask for. -/
theorem follow_utf8EncodeChar (c : Char) :
    ∃ b bs rs, String.utf8EncodeChar c = b :: bs ∧ follow b = some rs ∧ Fits rs bs := by
  have hc := char_range c
  rw [utf8EncodeChar_eq]
  generalize c.toNat = n at hc
  have lead {m : Nat} (h : m < 256) := toNat_ofNat_of_lt h
  split_ifs with h₁ h₂ h₃
  · refine ⟨_, _, [], rfl, ?_, fits_nil.2 rfl⟩
    rw [follow_of_toNat, lead (by omega), if_pos (by omega)]
  · refine ⟨_, _, [tail], rfl, ?_, by simp only [fits_cons_cons, fits_nil, tail_ofNat, and_self]⟩
    rw [follow_of_toNat, lead (by omega)]
    simp (disch := omega) only [if_pos, if_neg]
  · -- `E0` and `ED` bound the second byte: shorter encodings and surrogates are left out
    by_cases hlow : n < 0x1000
    · refine ⟨_, _, [(0xA0, 0xBF), tail], rfl, ?_, ?_⟩
      · rw [follow_of_toNat, lead (by omega)]
        simp (disch := omega) only [if_pos, if_neg]
      · simp only [fits_cons_cons, fits_nil, tail_ofNat, and_true]
        exact has_ofNat (by simp only [UInt8.reduceToNat]; omega) (by simp only [UInt8.reduceToNat]; omega)
    by_cases hsur : 0xD000 ≤ n ∧ n < 0xE000
    · refine ⟨_, _, [(0x80, 0x9F), tail], rfl, ?_, ?_⟩
      · rw [follow_of_toNat, lead (by omega)]
        simp (disch := omega) only [if_pos, if_neg]
      · simp only [fits_cons_cons, fits_nil, tail_ofNat, and_true]
        exact has_ofNat (by simp only [UInt8.reduceToNat]; omega) (by simp only [UInt8.reduceToNat]; omega)
    · refine ⟨_, _, [tail, tail], rfl, ?_, by simp only [fits_cons_cons, fits_nil, tail_ofNat, and_self]⟩
      rw [follow_of_toNat, lead (by omega)]
      simp (disch := omega) only [if_pos, if_neg]
  · by_cases hlow : n < 0x40000
    · refine ⟨_, _, [(0x90, 0xBF), tail, tail], rfl, ?_, ?_⟩
      · rw [follow_of_toNat, lead (by omega)]
        simp (disch := omega) only [if_pos, if_neg]
      · simp only [fits_cons_cons, fits_nil, tail_ofNat, and_true]
        exact has_ofNat (by simp only [UInt8.reduceToNat]; omega) (by simp only [UInt8.reduceToNat]; omega)
    by_cases hhigh : n < 0x100000
    · refine ⟨_, _, [tail, tail, tail], rfl, ?_, by simp only [fits_cons_cons, fits_nil, tail_ofNat, and_self]⟩
      rw [follow_of_toNat, lead (by omega)]
      simp (disch := omega) only [if_pos, if_neg]
    · refine ⟨_, _, [(0x80, 0x8F), tail, tail], rfl, ?_, ?_⟩
      · rw [follow_of_toNat, lead (by omega)]
        simp (disch := omega) only [if_pos, if_neg]
      · simp only [fits_cons_cons, fits_nil, tail_ofNat, and_true]
        exact has_ofNat (by simp only [UInt8.reduceToNat]; omega) (by simp only [UInt8.reduceToNat]; omega)

theorem utf8EncodeChar_of_one {b : UInt8} (h : b.toNat < 0x80) : ∃ c, String.utf8EncodeChar c = [b] := by
  obtain ⟨c, hc⟩ := exists_char (n := b.toNat) (by omega)
  exact ⟨c, by rw [utf8EncodeChar_eq, hc, if_pos (by omega), UInt8.ofNat_toNat]⟩

theorem utf8EncodeChar_of_two {b b₁ : UInt8} (h : 0xC2 ≤ b.toNat) (h' : b.toNat < 0xE0)
    (h₁ : tail.Has b₁) : ∃ c, String.utf8EncodeChar c = [b, b₁] := by
  rw [tail, has_iff] at h₁
  simp only [UInt8.reduceToNat] at h₁
  obtain ⟨c, hc⟩ := exists_char (n := (b.toNat - 0xC0) * 0x40 + (b₁.toNat - 0x80)) (by omega)
  refine ⟨c, ?_⟩
  rw [utf8EncodeChar_eq, hc, if_neg (by omega), if_pos (by omega), ofNat_eq_of_toNat (b := b) (by omega),
    ofNat_eq_of_toNat (b := b₁) (by omega)]

/-- Three bytes: `E0` needs a second byte from `A0` on, `ED` one below `A0`. -/
theorem utf8EncodeChar_of_three {b b₁ b₂ : UInt8} (h : 0xE0 ≤ b.toNat) (h' : b.toNat < 0xF0)
    (h₁ : tail.Has b₁) (hlow : b.toNat = 0xE0 → 0xA0 ≤ b₁.toNat) (hsur : b.toNat = 0xED → b₁.toNat < 0xA0)
    (h₂ : tail.Has b₂) : ∃ c, String.utf8EncodeChar c = [b, b₁, b₂] := by
  rw [tail, has_iff] at h₁ h₂
  simp only [UInt8.reduceToNat] at h₁ h₂
  obtain ⟨c, hc⟩ := exists_char
    (n := (b.toNat - 0xE0) * 0x1000 + (b₁.toNat - 0x80) * 0x40 + (b₂.toNat - 0x80)) (by omega)
  refine ⟨c, ?_⟩
  rw [utf8EncodeChar_eq, hc, if_neg (by omega), if_neg (by omega), if_pos (by omega),
    ofNat_eq_of_toNat (b := b) (by omega), ofNat_eq_of_toNat (b := b₁) (by omega),
    ofNat_eq_of_toNat (b := b₂) (by omega)]

/-- Four bytes: `F0` needs a second byte from `90` on, `F4` one below `90`. -/
theorem utf8EncodeChar_of_four {b b₁ b₂ b₃ : UInt8} (h : 0xF0 ≤ b.toNat) (h' : b.toNat ≤ 0xF4)
    (h₁ : tail.Has b₁) (hlow : b.toNat = 0xF0 → 0x90 ≤ b₁.toNat) (hhigh : b.toNat = 0xF4 → b₁.toNat < 0x90)
    (h₂ : tail.Has b₂) (h₃ : tail.Has b₃) : ∃ c, String.utf8EncodeChar c = [b, b₁, b₂, b₃] := by
  rw [tail, has_iff] at h₁ h₂ h₃
  simp only [UInt8.reduceToNat] at h₁ h₂ h₃
  obtain ⟨c, hc⟩ := exists_char (n := (b.toNat - 0xF0) * 0x40000 + (b₁.toNat - 0x80) * 0x1000 +
    (b₂.toNat - 0x80) * 0x40 + (b₃.toNat - 0x80)) (by omega)
  refine ⟨c, ?_⟩
  rw [utf8EncodeChar_eq, hc, if_neg (by omega), if_neg (by omega), if_neg (by omega),
    ofNat_eq_of_toNat (b := b) (by omega), ofNat_eq_of_toNat (b := b₁) (by omega),
    ofNat_eq_of_toNat (b := b₂) (by omega), ofNat_eq_of_toNat (b := b₃) (by omega)]

theorem Range.Has.of_le {lo hi lo' hi' b : UInt8} (h : Range.Has (lo, hi) b) (h₁ : lo'.toNat ≤ lo.toNat)
    (h₂ : hi.toNat ≤ hi'.toNat) : Range.Has (lo', hi') b := by
  rw [has_iff] at h ⊢
  omega

theorem exists_of_follow {b : UInt8} {bs : List UInt8} {rs : List Range} (h : follow b = some rs)
    (hbs : Fits rs bs) : ∃ c, String.utf8EncodeChar c = b :: bs := by
  rw [follow_of_toNat] at h
  by_cases h₁ : b.toNat < 0x80
  · rw [if_pos h₁] at h
    cases h
    cases fits_nil.1 hbs
    exact utf8EncodeChar_of_one h₁
  rw [if_neg h₁] at h
  by_cases h₂ : b.toNat < 0xC2
  · rw [if_pos h₂] at h
    cases h
  rw [if_neg h₂] at h
  by_cases h₃ : b.toNat < 0xE0
  · rw [if_pos h₃] at h
    cases h
    obtain ⟨b₁, hb₁, rfl⟩ := exists_of_fits_one hbs
    exact utf8EncodeChar_of_two (by omega) h₃ hb₁
  rw [if_neg h₃] at h
  by_cases h₄ : b.toNat = 0xE0
  · rw [if_pos h₄] at h
    cases h
    obtain ⟨b₁, b₂, hb₁, hb₂, rfl⟩ := exists_of_fits_two hbs
    refine utf8EncodeChar_of_three (by omega) (by omega) (hb₁.of_le (by decide) (by decide)) ?_ (by omega) hb₂
    exact fun _ => (has_iff.1 hb₁).1
  rw [if_neg h₄] at h
  by_cases h₅ : b.toNat = 0xED
  · rw [if_pos h₅] at h
    cases h
    obtain ⟨b₁, b₂, hb₁, hb₂, rfl⟩ := exists_of_fits_two hbs
    refine utf8EncodeChar_of_three (by omega) (by omega) (hb₁.of_le (by decide) (by decide)) (by omega) ?_ hb₂
    exact fun _ => Nat.lt_succ_of_le (has_iff.1 hb₁).2
  rw [if_neg h₅] at h
  by_cases h₆ : b.toNat < 0xF0
  · rw [if_pos h₆] at h
    cases h
    obtain ⟨b₁, b₂, hb₁, hb₂, rfl⟩ := exists_of_fits_two hbs
    exact utf8EncodeChar_of_three (by omega) h₆ hb₁ (by omega) (by omega) hb₂
  rw [if_neg h₆] at h
  by_cases h₇ : b.toNat = 0xF0
  · rw [if_pos h₇] at h
    cases h
    obtain ⟨b₁, b₂, b₃, hb₁, hb₂, hb₃, rfl⟩ := exists_of_fits_three hbs
    refine utf8EncodeChar_of_four (by omega) (by omega) (hb₁.of_le (by decide) (by decide)) ?_ (by omega) hb₂
      hb₃
    exact fun _ => (has_iff.1 hb₁).1
  rw [if_neg h₇] at h
  by_cases h₈ : b.toNat < 0xF4
  · rw [if_pos h₈] at h
    cases h
    obtain ⟨b₁, b₂, b₃, hb₁, hb₂, hb₃, rfl⟩ := exists_of_fits_three hbs
    exact utf8EncodeChar_of_four (by omega) (by omega) hb₁ (by omega) (by omega) hb₂ hb₃
  rw [if_neg h₈] at h
  obtain ⟨h₉, heq⟩ := Option.ite_none_right_eq_some.1 h
  cases heq
  obtain ⟨b₁, b₂, b₃, hb₁, hb₂, hb₃, rfl⟩ := exists_of_fits_three hbs
  refine utf8EncodeChar_of_four (by omega) (by omega) (hb₁.of_le (by decide) (by decide)) (by omega) ?_ hb₂ hb₃
  exact fun _ => Nat.lt_succ_of_le (has_iff.1 hb₁).2

/-- A sequence of bytes encodes one code point exactly if it follows the table. -/
theorem encodes_iff {b : UInt8} {bs : List UInt8} :
    (∃ c, String.utf8EncodeChar c = b :: bs) ↔ ∃ rs, follow b = some rs ∧ Fits rs bs := by
  constructor
  · rintro ⟨c, hc⟩
    obtain ⟨b', bs', rs, heq, hrs, hfits⟩ := follow_utf8EncodeChar c
    cases hc.symm.trans heq
    exact ⟨rs, hrs, hfits⟩
  · rintro ⟨rs, hrs, hfits⟩
    exact exists_of_follow hrs hfits

/-! ### Valid strings -/

/-- `rest` is what is left of a valid string after part of a code point, the ranges of whose
remaining bytes are `owed`. -/
def Completes (owed : List Range) (rest : List UInt8) : Prop :=
  ∃ bs bs', rest = bs ++ bs' ∧ Fits owed bs ∧ Valid bs'

@[simp] theorem completes_nil {rest : List UInt8} : Completes [] rest ↔ Valid rest := by
  constructor
  · rintro ⟨_, bs', rfl, hnil, hvalid⟩
    cases fits_nil.1 hnil
    exact hvalid
  · exact fun h => ⟨[], rest, rfl, fits_nil.2 rfl, h⟩

theorem not_completes_nil {r : Range} {rs : List Range} : ¬ Completes (r :: rs) [] := by
  rintro ⟨bs, bs', heq, hfits, -⟩
  obtain ⟨b, bs, -, -, rfl⟩ := fits_cons.1 hfits
  cases heq

/-- What is owed after one more byte, none where it cannot stand there. -/
def after (b : UInt8) : List Range → Option (List Range)
  | [] => follow b
  | r :: rs => if r.Has b then some rs else none

theorem after_cons_eq_some {b : UInt8} {r : Range} {rs rs' : List Range} :
    after b (r :: rs) = some rs' ↔ r.Has b ∧ rs' = rs := by
  rw [after, Option.ite_none_right_eq_some, Option.some.injEq, eq_comm (a := rs)]

theorem Valid.append {a b : List UInt8} (ha : Valid a) (hb : Valid b) : Valid (a ++ b) := by
  obtain ⟨cs, rfl⟩ := ha
  obtain ⟨cs', rfl⟩ := hb
  exact ⟨cs ++ cs', List.flatMap_append⟩

theorem valid_utf8EncodeChar (c : Char) : Valid (String.utf8EncodeChar c) :=
  ⟨[c], by rw [encode, List.flatMap_singleton]⟩

theorem completes_cons {owed : List Range} {b : UInt8} {rest : List UInt8} :
    Completes owed (b :: rest) ↔ ∃ owed', after b owed = some owed' ∧ Completes owed' rest := by
  cases owed with
  | nil =>
    rw [completes_nil]
    constructor
    · rintro ⟨_ | ⟨c, cs⟩, hcs⟩
      · cases hcs
      obtain ⟨b', bs, rs, hc, hrs, hfits⟩ := follow_utf8EncodeChar c
      rw [encode_cons, hc] at hcs
      cases hcs
      exact ⟨rs, hrs, bs, _, rfl, hfits, cs, rfl⟩
    · rintro ⟨rs, hrs, bs, bs', rfl, hfits, hvalid⟩
      obtain ⟨c, hc⟩ := exists_of_follow hrs hfits
      rw [← List.cons_append, ← hc]
      exact (valid_utf8EncodeChar c).append hvalid
  | cons r rs =>
    constructor
    · rintro ⟨bs, bs', heq, hfits, hvalid⟩
      obtain ⟨b', bs, hb, hrs, rfl⟩ := fits_cons.1 hfits
      cases heq
      exact ⟨rs, after_cons_eq_some.2 ⟨hb, rfl⟩, bs, bs', rfl, hrs, hvalid⟩
    · rintro ⟨_, hafter, bs, bs', rfl, hfits, hvalid⟩
      obtain ⟨hb, rfl⟩ := after_cons_eq_some.1 hafter
      exact ⟨b :: bs, bs', rfl, fits_cons_cons.2 ⟨hb, hfits⟩, hvalid⟩

/-- Reads a string: what is owed at its end, none where a byte cannot stand there. -/
def read : List Range → List UInt8 → Option (List Range)
  | owed, [] => some owed
  | owed, b :: s => (after b owed).bind fun owed' => read owed' s

theorem read_cons (owed : List Range) (b : UInt8) (s : List UInt8) :
    read owed (b :: s) = (after b owed).bind fun owed' => read owed' s := rfl

theorem read_append {owed owed' : List Range} {s t : List UInt8} (h : read owed s = some owed') :
    read owed (s ++ t) = read owed' t := by
  induction s generalizing owed with
  | nil => cases h; rfl
  | cons b s ih =>
    obtain ⟨owed₁, hafter, hread⟩ := Option.bind_eq_some_iff.1 h
    rw [List.cons_append, read_cons, hafter]
    exact ih hread

theorem completes_iff_read {owed : List Range} {s : List UInt8} :
    Completes owed s ↔ read owed s = some [] := by
  induction s generalizing owed with
  | nil =>
    cases owed with
    | nil => exact iff_of_true (completes_nil.2 Valid.nil) rfl
    | cons r rs => exact iff_of_false not_completes_nil (by simp [read])
  | cons b s ih => simp only [completes_cons, ih, read_cons, Option.bind_eq_some_iff]

theorem valid_iff_read {s : List UInt8} : Valid s ↔ read [] s = some [] := by
  rw [← completes_nil, completes_iff_read]

/-- None of the ranges is empty. -/
def Payable (owed : List Range) : Prop := ∀ r ∈ owed, r.Has r.1

theorem payable_of_follow {b : UInt8} {rs : List Range} (h : follow b = some rs) : Payable rs := by
  have htable : ∀ b : UInt8, ((follow b).getD []).all (fun r => r.1 ≤ r.2) := forall_byte (by decide +kernel)
  have hb := htable b
  rw [h] at hb
  exact fun r hr => ⟨UInt8.le_refl _, by simpa using List.all_eq_true.1 hb r hr⟩

theorem Payable.after {b : UInt8} {owed owed' : List Range} (h : Payable owed)
    (hafter : after b owed = some owed') : Payable owed' := by
  cases owed with
  | nil => exact payable_of_follow hafter
  | cons r rs =>
    obtain ⟨-, rfl⟩ := after_cons_eq_some.1 hafter
    exact fun r' hr' => h r' (List.mem_cons_of_mem _ hr')

theorem Payable.exists_completes {owed : List Range} (h : Payable owed) : ∃ t, Completes owed t := by
  induction owed with
  | nil => exact ⟨[], completes_nil.2 Valid.nil⟩
  | cons r rs ih =>
    obtain ⟨t, ht⟩ := ih fun r' hr' => h r' (List.mem_cons_of_mem _ hr')
    exact ⟨r.1 :: t, completes_cons.2 ⟨rs, after_cons_eq_some.2 ⟨h r List.mem_cons_self, rfl⟩, ht⟩⟩

theorem Payable.read {owed owed' : List Range} {s : List UInt8} (h : Payable owed)
    (hread : read owed s = some owed') : Payable owed' := by
  induction s generalizing owed with
  | nil => cases hread; exact h
  | cons b s ih =>
    obtain ⟨owed₁, hafter, hread⟩ := Option.bind_eq_some_iff.1 hread
    exact ih (h.after hafter) hread

/-- Some valid string starts with `s`. -/
def Extends (s : List UInt8) : Prop := ∃ t, Valid (s ++ t)

theorem extends_iff_read {s : List UInt8} : Extends s ↔ ∃ owed, read [] s = some owed := by
  constructor
  · rintro ⟨t, ht⟩
    have hread : ∀ (s : List UInt8) (owed : List Range), Completes owed (s ++ t) →
        ∃ owed', read owed s = some owed' := by
      intro s
      induction s with
      | nil => exact fun owed _ => ⟨owed, rfl⟩
      | cons b s ih =>
        intro owed h
        obtain ⟨owed₁, hafter, h⟩ := completes_cons.1 h
        obtain ⟨owed', hread⟩ := ih owed₁ h
        exact ⟨owed', by rw [read_cons, hafter]; exact hread⟩
    exact hread s [] (completes_nil.2 ht)
  · rintro ⟨owed, hread⟩
    have hnil : Payable [] := fun _ h => absurd h List.not_mem_nil
    have hpay := hnil.read hread
    obtain ⟨t, ht⟩ := hpay.exists_completes
    exact ⟨t, valid_iff_read.2 (by rw [read_append hread, completes_iff_read.1 ht])⟩

/-! ### Part of a code point -/

/-- `part` is the beginning of one code point, after which `owed` is left of it. -/
def Begins (part : List UInt8) (owed : List Range) : Prop :=
  ∃ b bs paid, part = b :: bs ∧ follow b = some (paid ++ owed) ∧ Fits paid bs

/-- Between two code points, or inside of one. -/
inductive Within : List UInt8 → List Range → Prop where
  | between : Within [] []
  | inside {part : List UInt8} {r : Range} {rs : List Range} : Begins part (r :: rs) →
      Within part (r :: rs)

theorem Fits.concat {rs : List Range} {bs : List UInt8} {r : Range} {b : UInt8} (h : Fits rs bs)
    (hb : r.Has b) : Fits (rs ++ [r]) (bs ++ [b]) :=
  List.rel_append h (List.Forall₂.cons hb .nil)

theorem Within.after {part : List UInt8} {owed owed' : List Range} {b : UInt8} (h : Within part owed)
    (hafter : after b owed = some owed') : Begins (part ++ [b]) owed' := by
  rcases h with _ | @⟨_, r, rs, b', bs, paid, rfl, hfollow, hfits⟩
  · exact ⟨b, [], [], rfl, hafter, .nil⟩
  · obtain ⟨hb, rfl⟩ := after_cons_eq_some.1 hafter
    refine ⟨b', bs ++ [b], paid ++ [r], rfl, ?_, hfits.concat hb⟩
    rwa [List.append_assoc, List.singleton_append]

theorem Begins.encodes {part : List UInt8} (h : Begins part []) :
    ∃ c, String.utf8EncodeChar c = part := by
  obtain ⟨b, bs, paid, rfl, hfollow, hfits⟩ := h
  rw [List.append_nil] at hfollow
  exact exists_of_follow hfollow hfits

theorem length_le_of_follow {b : UInt8} {rs : List Range} (h : follow b = some rs) : rs.length ≤ 3 := by
  have htable : ∀ b : UInt8, ((follow b).getD []).length ≤ 3 := forall_byte (by decide +kernel)
  have hb := htable b
  rwa [h] at hb

theorem Begins.length_le {part : List UInt8} {owed : List Range} (h : Begins part owed) :
    part.length + owed.length ≤ 4 := by
  obtain ⟨b, bs, paid, rfl, hfollow, hfits⟩ := h
  have hle := length_le_of_follow hfollow
  have heq := hfits.length_eq
  rw [List.length_append] at hle
  rw [List.length_cons]
  omega

theorem Within.length_le {part : List UInt8} {owed : List Range} (h : Within part owed) :
    part.length ≤ 3 := by
  rcases h with _ | ⟨h⟩
  · exact Nat.zero_le _
  · have hle := h.length_le
    rw [List.length_cons] at hle
    omega

theorem Within.eq_nil {part : List UInt8} {owed : List Range} (h : Within part owed) :
    part = [] ↔ owed = [] := by
  rcases h with _ | ⟨_, _, _, rfl, _, _⟩ <;> simp

/-- A code point that is not finished can be finished. -/
theorem Begins.exists_rest {part : List UInt8} {r : Range} {rs : List Range} (h : Begins part (r :: rs)) :
    ∃ c rest, rest ≠ [] ∧ String.utf8EncodeChar c = part ++ rest := by
  obtain ⟨b, bs, paid, rfl, hfollow, hfits⟩ := h
  have hpay : Fits (r :: rs) ((r :: rs).map Prod.fst) := by
    have hall := payable_of_follow hfollow
    rw [Fits, List.forall₂_map_right_iff, List.forall₂_same]
    exact fun r' hr' => hall r' (List.mem_append_right _ hr')
  obtain ⟨c, hc⟩ := exists_of_follow hfollow (List.rel_append hfits hpay)
  exact ⟨c, _, by simp, hc⟩

/-- A byte that the ranges refuse continues no code point. -/
theorem Within.not_isPrefix {part : List UInt8} {owed : List Range} {b : UInt8} (h : Within part owed)
    (hafter : Utf8.after b owed = none) (c : Char) : ¬ part ++ [b] <+: String.utf8EncodeChar c := by
  rintro ⟨rest, hrest⟩
  rcases h with _ | @⟨_, r, rs, b', bs, paid, rfl, hfollow, hfits⟩
  · obtain ⟨rs, hrs, -⟩ := encodes_iff.1 ⟨c, hrest.symm⟩
    rw [Utf8.after, hrs] at hafter
    cases hafter
  · rw [List.append_assoc, List.cons_append] at hrest
    obtain ⟨rs', hrs', hfits'⟩ := encodes_iff.1 ⟨c, hrest.symm⟩
    cases hfollow.symm.trans hrs'
    have hdrop := List.forall₂_drop_append _ _ _ hfits'
    rw [← hfits.length_eq, List.drop_left] at hdrop
    have hb : r.Has b := (fits_cons_cons.1 hdrop).1
    rw [after_cons_eq_some.2 ⟨hb, rfl⟩] at hafter
    cases hafter

/-! ### The code point of an encoding -/

/-- The bits of a lead byte that belong to the code point. -/
def leadBits (b : UInt8) : Nat :=
  if b.toNat < 0x80 then b.toNat else if b.toNat < 0xE0 then b.toNat % 0x20
  else if b.toNat < 0xF0 then b.toNat % 0x10 else b.toNat % 0x08

/-- The code point that a sequence of bytes encodes, or the beginning of its bits. -/
def codeOf : List UInt8 → Nat
  | [] => 0
  | b :: bs => bs.foldl (fun n b => n * 0x40 + b.toNat % 0x40) (leadBits b)

theorem codeOf_concat {bs : List UInt8} (h : bs ≠ []) (b : UInt8) :
    codeOf (bs ++ [b]) = codeOf bs * 0x40 + b.toNat % 0x40 := by
  obtain ⟨b', bs, rfl⟩ := List.exists_cons_of_ne_nil h
  rw [List.cons_append, codeOf, List.foldl_append]
  rfl

theorem codeOf_utf8EncodeChar (c : Char) : codeOf (String.utf8EncodeChar c) = c.toNat := by
  have hc := char_range c
  rw [utf8EncodeChar_eq]
  generalize c.toNat = n at hc
  split_ifs with h₁ h₂ h₃
  · simp (disch := omega) only [codeOf, List.foldl_nil, leadBits, toNat_ofNat_of_lt, if_pos]
  all_goals
    simp only [codeOf, List.foldl_cons, List.foldl_nil, leadBits]
    simp (disch := omega) only [toNat_ofNat_of_lt, if_pos, if_neg]
    omega

end Utf8
