import CoffeeChat.JsonLexer

/-!
# Strings through the scanner

What `scan_string` accepts, it turns into the encoding of code points: each turn of its loop adds
one. So every string that comes out of the lexer is valid UTF-8, and the text that the serializer
writes for a valid string, escaped or with `ensure_ascii`, is scanned back to that string.
-/

namespace CoffeeChat.Json
open Cpp Utf8 WeChatApi

/-! ### Bytes that stand for themselves -/

theorem scanRanges_eq_follow (c : UInt8) : scanRanges c = follow c :=
  forall_byte (P := fun c => scanRanges c = follow c) (by decide +kernel) c

theorem nextByteInRange_eq_ok {rs : List Range} {added bytes input rest : Bytes} :
    nextByteInRange rs added input = .ok (bytes, rest) ↔
      ∃ bs, input = bs ++ rest ∧ Fits rs bs ∧ bytes = added ++ bs := by
  induction rs generalizing added input with
  | nil =>
    simp only [nextByteInRange, pure_eq_ok, Except.ok.injEq, Prod.mk.injEq, fits_nil]
    constructor
    · rintro ⟨rfl, rfl⟩
      exact ⟨[], rfl, rfl, (List.append_nil _).symm⟩
    · rintro ⟨_, rfl, rfl, rfl⟩
      exact ⟨(List.append_nil _).symm, rfl⟩
  | cons r rs ih =>
    cases input with
    | nil =>
      refine iff_of_false (by simp [nextByteInRange]) ?_
      rintro ⟨bs, heq, hfits, -⟩
      obtain ⟨b, bs, -, -, rfl⟩ := fits_cons.1 hfits
      cases heq
    | cons c input =>
      rw [nextByteInRange]
      split_ifs with hc
      · rw [ih]
        constructor
        · rintro ⟨bs, rfl, hfits, rfl⟩
          exact ⟨c :: bs, rfl, fits_cons_cons.2 ⟨hc, hfits⟩, by simp⟩
        · rintro ⟨bs, heq, hfits, rfl⟩
          obtain ⟨b, bs, hb, hrs, rfl⟩ := fits_cons.1 hfits
          cases heq
          exact ⟨bs, rfl, hrs, by simp⟩
      · refine iff_of_false (by simp) ?_
        rintro ⟨bs, heq, hfits, -⟩
        obtain ⟨b, bs, hb, -, rfl⟩ := fits_cons.1 hfits
        cases heq
        exact hc hb

/-! ### Code points given by number -/

theorem or_eq_add {i a b : Nat} (h : b < 2 ^ i) : 2 ^ i * a ||| b = 2 ^ i * a + b :=
  (Nat.two_pow_add_eq_or_of_lt h a).symm

theorem tail_eq (m : Nat) : 0x80 ||| m &&& 0x3F = m % 0x40 + 0x80 := by
  have hand : m &&& 0x3F = m % 2 ^ 6 := Nat.and_two_pow_sub_one_eq_mod m 6
  have hor : 0x80 ||| m % 2 ^ 6 = 0x80 + m % 2 ^ 6 := or_eq_add (i := 7) (a := 1) (by omega)
  rw [hand, hor]
  omega

theorem codepointBytes_toNat (c : Char) : codepointBytes c.toNat = String.utf8EncodeChar c := by
  have hc := char_range c
  rw [utf8EncodeChar_eq, codepointBytes]
  generalize c.toNat = n at hc
  by_cases h₁ : n < 0x80
  · rw [if_pos h₁, if_pos (Nat.le_of_lt_succ h₁)]
  rw [if_neg h₁, if_neg (show ¬ n ≤ 0x7F by omega)]
  by_cases h₂ : n ≤ 0x7FF
  · have hlead : 0xC0 ||| n / 2 ^ 6 = 0xC0 + n / 2 ^ 6 := or_eq_add (i := 6) (a := 3) (by omega)
    rw [if_pos h₂, if_pos h₂, tail_eq, Nat.shiftRight_eq_div_pow, hlead]
    congr 2
    omega
  rw [if_neg h₂, if_neg h₂]
  by_cases h₃ : n ≤ 0xFFFF
  · have hlead : 0xE0 ||| n / 2 ^ 12 = 0xE0 + n / 2 ^ 12 := or_eq_add (i := 5) (a := 7) (by omega)
    rw [if_pos h₃, if_pos h₃, tail_eq, tail_eq, Nat.shiftRight_eq_div_pow, Nat.shiftRight_eq_div_pow, hlead]
    congr 2
    omega
  · have hlead : 0xF0 ||| n / 2 ^ 18 = 0xF0 + n / 2 ^ 18 := or_eq_add (i := 4) (a := 15) (by omega)
    rw [if_neg h₃, if_neg h₃, tail_eq, tail_eq, tail_eq, Nat.shiftRight_eq_div_pow,
      Nat.shiftRight_eq_div_pow, Nat.shiftRight_eq_div_pow, hlead]
    congr 2
    omega

theorem hexValue_lt {c : UInt8} {n : Nat} (h : hexValue c = some n) : n < 16 := by
  have htable : ∀ c : UInt8, (hexValue c).getD 0 < 16 := forall_byte (by decide +kernel)
  have hc := htable c
  rwa [h] at hc

theorem getCodepoint_le {fs : List Nat} {n m : Nat} {input rest : Bytes}
    (h : getCodepoint fs n input = some (m, rest)) : m ≤ n + (fs.map (15 <<< ·)).sum := by
  induction fs generalizing n input with
  | nil => cases h; exact Nat.le_add_right ..
  | cons f fs ih =>
    cases input with
    | nil => cases h
    | cons c input =>
      rw [getCodepoint] at h
      cases hc : hexValue c with
      | none => rw [hc] at h; cases h
      | some v =>
        rw [hc] at h
        have hle : v <<< f ≤ 15 <<< f := by
          rw [Nat.shiftLeft_eq, Nat.shiftLeft_eq]
          exact Nat.mul_le_mul_right _ (Nat.le_of_lt_succ (hexValue_lt hc))
        have hih := ih h
        rw [List.map_cons, List.sum_cons]
        omega

theorem getCodepoint_lt {m : Nat} {input rest : Bytes} (h : getCodepoint factors 0 input = some (m, rest)) :
    m < 0x10000 :=
  Nat.lt_succ_of_le ((getCodepoint_le h).trans (by decide))

/-! ### Every turn of the loop adds one code point -/

theorem exists_codepointBytes {n : Nat} (h : n < 0xD800 ∨ 0xDFFF < n ∧ n < 0x110000) :
    ∃ c, codepointBytes n = String.utf8EncodeChar c := by
  obtain ⟨c, rfl⟩ := exists_char h
  exact ⟨c, codepointBytes_toNat c⟩

theorem exists_char_of_scanLowSurrogate {n : Nat} {bytes input rest : Bytes} (hn : 0xD800 ≤ n ∧ n ≤ 0xDBFF)
    (h : scanLowSurrogate n input = .ok (bytes, rest)) : ∃ c, bytes = String.utf8EncodeChar c := by
  unfold scanLowSurrogate at h
  split at h
  · split at h
    · cases h
    next codepoint2 _ _ =>
      split_ifs at h with hlow
      have hrange : 0xDFFF < n <<< 10 + codepoint2 - 0x35FDC00 ∧ n <<< 10 + codepoint2 - 0x35FDC00 < 0x110000 := by
        rw [Nat.shiftLeft_eq]
        omega
      obtain ⟨c, hc⟩ := exists_codepointBytes (.inr hrange)
      simp only [pure_eq_ok, Except.ok.injEq, Prod.mk.injEq] at h
      exact ⟨c, h.1.symm.trans hc⟩
  · cases h

theorem exists_char_of_scanUnicode {bytes input rest : Bytes} (h : scanUnicode input = .ok (bytes, rest)) :
    ∃ c, bytes = String.utf8EncodeChar c := by
  unfold scanUnicode at h
  split at h
  · cases h
  next codepoint1 _ hcode =>
    have hlt := getCodepoint_lt hcode
    split_ifs at h with hhigh hlow
    · exact exists_char_of_scanLowSurrogate hhigh h
    · obtain ⟨c, hc⟩ := exists_codepointBytes (n := codepoint1) (by omega)
      cases h
      exact ⟨c, hc⟩

theorem exists_char_of_scanEscape {bytes input rest : Bytes} (h : scanEscape input = .ok (bytes, rest)) :
    ∃ c, bytes = String.utf8EncodeChar c := by
  unfold scanEscape at h
  split at h
  iterate 8
    next =>
      cases h
      exact (utf8EncodeChar_of_one (by decide)).imp fun _ hc => hc.symm
  · exact exists_char_of_scanUnicode h
  · cases h

theorem exists_char_of_scanChar {c : UInt8} {bytes input rest : Bytes}
    (h : scanChar c input = .ok (bytes, rest)) : ∃ c, bytes = String.utf8EncodeChar c := by
  unfold scanChar at h
  split_ifs at h
  · exact exists_char_of_scanEscape h
  · rw [scanRanges_eq_follow] at h
    split at h
    next ranges hranges =>
      obtain ⟨bs, -, hfits, rfl⟩ := nextByteInRange_eq_ok.1 h
      obtain ⟨c', hc'⟩ := exists_of_follow hranges hfits
      exact ⟨c', hc'.symm⟩
    · cases h

theorem scanString_nil (buffer : Bytes) :
    scanString buffer [] = .error "invalid string: missing closing quote" := by rw [scanString]

theorem scanString_quote (buffer rest : Bytes) : scanString buffer (34 :: rest) = .ok (buffer, rest) := by
  rw [scanString, if_pos rfl]

theorem scanString_error {c : UInt8} {input : Bytes} {e : String} (hc : c ≠ 34)
    (h : scanChar c input = .error e) (buffer : Bytes) : scanString buffer (c :: input) = .error e := by
  rw [scanString, if_neg hc]
  split <;> simp_all

theorem scanString_step {c : UInt8} {input bytes rest : Bytes} (hc : c ≠ 34)
    (h : scanChar c input = .ok (bytes, rest)) (buffer : Bytes) :
    scanString buffer (c :: input) = scanString (buffer ++ bytes) rest := by
  rw [scanString, if_neg hc]
  split <;> simp_all

/-- The text of a string, as the scanner sees it: what the code points `cs` are written as, up to and
with the closing quote. -/
theorem encode_of_scanString {buffer input s rest : Bytes} (h : scanString buffer input = .ok (s, rest)) :
    ∃ cs, s = buffer ++ encode cs := by
  induction hn : input.length using Nat.strong_induction_on generalizing buffer input with
  | _ n ih =>
    cases input with
    | nil =>
      rw [scanString_nil] at h
      cases h
    | cons c input =>
      by_cases hc : c = 34
      · subst hc
        rw [scanString_quote] at h
        cases h
        exact ⟨[], (List.append_nil _).symm⟩
      · cases hscan : scanChar c input with
        | error e =>
          rw [scanString_error hc hscan] at h
          cases h
        | ok p =>
          obtain ⟨bytes, rest'⟩ := p
          rw [scanString_step hc hscan] at h
          have hlt : rest'.length < n := by
            rw [← hn]
            exact Nat.lt_succ_of_le (scanChar_suffix hscan).length_le
          obtain ⟨c', rfl⟩ := exists_char_of_scanChar hscan
          obtain ⟨cs, hcs⟩ := ih _ hlt h rfl
          exact ⟨c' :: cs, by rw [hcs, encode_cons, List.append_assoc]⟩

/-- What the scanner returns is valid UTF-8, whatever the input. -/
theorem valid_of_scanString {input s rest : Bytes} (h : scanString [] input = .ok (s, rest)) : Valid s := by
  obtain ⟨cs, hcs⟩ := encode_of_scanString h
  exact ⟨cs, hcs.symm⟩

/-! ### Scanning what the serializer writes -/

theorem hexValue_hexDigit : ∀ n < 16, hexValue (hexDigit (UInt8.ofNat n)) = some n := by decide

theorem getCodepoint_hex4 (n : Nat) (rest : Bytes) :
    getCodepoint factors 0 (hex4 n ++ rest) = some (n % 0x10000, rest) := by
  have hdigit : ∀ m, hexValue (hexDigit (UInt8.ofNat (m % 0x10))) = some (m % 0x10) := fun m =>
    hexValue_hexDigit _ (Nat.mod_lt _ (by decide))
  simp only [hex4, List.map_cons, List.map_nil, List.cons_append, List.nil_append, factors, getCodepoint, hdigit,
    Nat.shiftLeft_eq]
  congr 2
  omega

/-- Four digits that are not a surrogate. -/
theorem scanUnicode_hex4 {n : Nat} (h : n < 0xD800 ∨ 0xDFFF < n ∧ n < 0x10000) (rest : Bytes) :
    scanUnicode (hex4 n ++ rest) = .ok (codepointBytes n, rest) := by
  have hmod : n % 0x10000 = n := Nat.mod_eq_of_lt (by omega)
  simp only [scanUnicode, getCodepoint_hex4, hmod]
  rw [if_neg (by omega), if_neg (by omega)]
  rfl

/-- A surrogate pair. -/
theorem scanUnicode_pair {n : Nat} (h : 0xFFFF < n ∧ n < 0x110000) (rest : Bytes) :
    scanUnicode (hex4 (0xD7C0 + n / 0x400) ++ 92 :: 117 :: (hex4 (0xDC00 + n % 0x400) ++ rest)) =
      .ok (codepointBytes n, rest) := by
  have hhigh : (0xD7C0 + n / 0x400) % 0x10000 = 0xD7C0 + n / 0x400 := Nat.mod_eq_of_lt (by omega)
  have hlow : (0xDC00 + n % 0x400) % 0x10000 = 0xDC00 + n % 0x400 := Nat.mod_eq_of_lt (by omega)
  have hsum : (0xD7C0 + n / 0x400) <<< 10 + (0xDC00 + n % 0x400) - 0x35FDC00 = n := by
    rw [Nat.shiftLeft_eq]
    omega
  simp only [scanUnicode, getCodepoint_hex4, hhigh]
  rw [if_pos (by omega)]
  simp only [scanLowSurrogate, getCodepoint_hex4, hlow]
  rw [if_pos (by omega), hsum]
  rfl

variable {ensureAscii : Bool}

theorem scanChar_copied {c : Char} (h : Copied ensureAscii c.toNat) :
    ∃ b bs, String.utf8EncodeChar c = b :: bs ∧ b ≠ 34 ∧
      ∀ rest, scanChar b (bs ++ rest) = .ok (String.utf8EncodeChar c, rest) := by
  obtain ⟨b, bs, rs, hc, hfollow, hfits⟩ := follow_utf8EncodeChar c
  obtain ⟨hlow, hquote, hslash, -⟩ := h
  have hb : 0x20 ≤ b.toNat ∧ b.toNat ≠ 34 ∧ b.toNat ≠ 92 := by
    by_cases hlt : c.toNat < 0x80
    · rw [utf8EncodeChar_ascii hlt] at hc
      obtain ⟨rfl, -⟩ := List.cons.inj hc
      rw [toNat_ofNat_of_lt (by omega)]
      exact ⟨hlow, hquote, hslash⟩
    · have hge := le_of_mem_utf8EncodeChar (c := c) (by omega) (b := b) (by rw [hc]; exact List.mem_cons_self)
      omega
  refine ⟨b, bs, hc, ?_, fun rest => ?_⟩
  · rintro rfl
    exact hb.2.1 rfl
  · have hne : b ≠ 92 := by
      rintro rfl
      exact hb.2.2 rfl
    have hgt : ¬ b ≤ 0x1F := by
      simp only [UInt8.le_iff_toNat_le, UInt8.reduceToNat]
      omega
    rw [scanChar, if_neg hne, if_neg hgt, scanRanges_eq_follow, hfollow, hc]
    exact nextByteInRange_eq_ok.2 ⟨bs, rfl, hfits, rfl⟩

/-- The chunk of an escape is a backslash and what `scanEscape` reads as the code point. -/
theorem scanEscape_chunk {c : Char} (h : ¬ Copied ensureAscii c.toNat) :
    ∃ bs, (escapeChunk ensureAscii c.val 0).text = 92 :: bs ∧
      ∀ rest, scanEscape (bs ++ rest) = .ok (String.utf8EncodeChar c, rest) := by
  have hshort : ∀ n, c.toNat = n → n < 0x80 → String.utf8EncodeChar c = [UInt8.ofNat n] := by
    rintro n rfl hlt
    exact utf8EncodeChar_ascii hlt
  unfold escapeChunk
  split
  iterate 7
    next hn =>
      rw [hshort _ hn (by decide)]
      exact ⟨_, rfl, fun rest => rfl⟩
  next hquote hslash =>
    have hc := char_range c
    have hval : c.val.toNat = c.toNat := rfl
    by_cases hescape : c.val.toNat ≤ 0x1F ∨ ensureAscii = true ∧ 0x7F ≤ c.val.toNat
    · rw [if_pos hescape]
      split_ifs with hwide
      · refine ⟨_, rfl, fun rest => ?_⟩
        rw [← codepointBytes_toNat]
        exact scanUnicode_hex4 (by omega) rest
      · refine ⟨_, rfl, fun rest => ?_⟩
        rw [← codepointBytes_toNat]
        rw [← scanUnicode_pair (n := c.toNat) (by omega) rest]
        exact congrArg (fun t => scanUnicode (hex4 (0xD7C0 + c.toNat / 0x400) ++ t)) rfl
    · refine absurd ⟨?_, hquote, hslash, fun hmode => ?_⟩ h
      · omega
      · by_contra hge
        exact hescape (.inr ⟨hmode, by omega⟩)

/-- One turn of the scanner's loop reads what the serializer wrote for one code point. -/
theorem scanString_escapeChar (c : Char) (buffer rest : Bytes) :
    scanString buffer (escapeChar ensureAscii c ++ rest) =
      scanString (buffer ++ String.utf8EncodeChar c) rest := by
  by_cases hcopied : Copied ensureAscii c.toNat
  · obtain ⟨b, bs, hc, hne, hscan⟩ := scanChar_copied hcopied
    rw [escapeChar, if_pos hcopied, hc, List.cons_append, scanString_step hne (hscan rest), hc]
  · obtain ⟨bs, htext, hscan⟩ := scanEscape_chunk hcopied
    have hchar : scanChar 92 (bs ++ rest) = .ok (String.utf8EncodeChar c, rest) := hscan rest
    rw [escapeChar, if_neg hcopied, htext, List.cons_append, scanString_step (by decide) hchar]

theorem scanString_escaped (ensureAscii : Bool) (cs : List Char) (buffer rest : Bytes) :
    scanString buffer (cs.flatMap (escapeChar ensureAscii) ++ 34 :: rest) = .ok (buffer ++ encode cs, rest) := by
  induction cs generalizing buffer with
  | nil =>
    rw [List.flatMap_nil, List.nil_append, scanString_quote]
    exact congrArg (fun b => Except.ok (b, rest)) (List.append_nil buffer).symm
  | cons c cs ih =>
    rw [List.flatMap_cons, List.append_assoc, scanString_escapeChar, ih, encode_cons, List.append_assoc]

theorem mends_encode (sub cs : List Char) : Mends sub (encode cs) cs := by
  induction cs with
  | nil => exact .nil
  | cons c cs ih => exact .char c ih

/-- Whatever the serializer writes for a string, with or without `ensure_ascii`, the scanner reads
back: the very string if it is valid, and the mended one where invalid bytes are skipped or replaced. -/
theorem scanString_dumpEscaped (handler : ErrorHandler) (ensureAscii : Bool) (s rest : Bytes) :
    (∃ text cs, dumpEscaped handler ensureAscii s = .ok text ∧
      scanString [] (text ++ 34 :: rest) = .ok (encode cs, rest) ∧ Mends (substitute handler) s cs ∧
      (Valid s → encode cs = s)) ∨
    handler = .strict ∧ ¬ Valid s ∧ ∃ e, dumpEscaped handler ensureAscii s = .error e := by
  by_cases hvalid : Valid s
  · obtain ⟨cs, rfl⟩ := hvalid
    exact .inl ⟨_, cs, dumpEscaped_encode handler cs, scanString_escaped ensureAscii cs [] rest, mends_encode _ cs, fun _ => rfl⟩
  by_cases hne : handler = .strict
  · subst hne
    obtain ⟨e, -, h⟩ := @dumpEscaped_strict_refused ensureAscii s hvalid
    exact .inr ⟨rfl, hvalid, e, h⟩
  · obtain ⟨cs, hmends, h⟩ := dumpEscaped_lenient ensureAscii hne s
    exact .inl ⟨_, cs, h, scanString_escaped ensureAscii cs [] rest, hmends, fun hs => absurd hs hvalid⟩

end CoffeeChat.Json
