import CoffeeChat.Lib.Cpp

/-!
# UTF-8

The encoding of a list of code points as bytes, its inverse, and the byte strings that are valid
UTF-8. The encoding of one code point is `String.utf8EncodeChar`.
-/

namespace Utf8

def encode (cs : List Char) : List UInt8 := cs.flatMap String.utf8EncodeChar

/-- The code points of a byte string that is valid UTF-8. -/
def decode (b : List UInt8) : Option (List Char) :=
  (ByteArray.utf8Decode? ⟨b.toArray⟩).map Array.toList

theorem encode_cons (c : Char) (cs : List Char) :
    encode (c :: cs) = String.utf8EncodeChar c ++ encode cs := rfl

theorem utf8Encode_eq (cs : List Char) : cs.utf8Encode = ⟨(encode cs).toArray⟩ :=
  ByteArray.ext (List.data_toByteArray)

@[simp] theorem decode_encode (cs : List Char) : decode (encode cs) = some cs := by
  rw [decode, ← utf8Encode_eq, List.utf8Decode?_utf8Encode]
  rfl

theorem encode_of_decode {b : List UInt8} {cs : List Char} (h : decode b = some cs) : encode cs = b := by
  obtain ⟨a, ha, rfl⟩ := Option.map_eq_some_iff.1 h
  have hdec := ByteArray.utf8Encode_get_utf8Decode? (b := ⟨b.toArray⟩) (h := by rw [ha]; rfl)
  simp only [ha, Option.get_some] at hdec
  rw [utf8Encode_eq] at hdec
  simpa using congrArg (fun b => b.data.toList) hdec

theorem decode_eq_some {b : List UInt8} {cs : List Char} : decode b = some cs ↔ encode cs = b :=
  ⟨encode_of_decode, fun h => h ▸ decode_encode cs⟩

def Valid (b : List UInt8) : Prop := ∃ cs, encode cs = b

theorem valid_iff {b : List UInt8} : Valid b ↔ (decode b).isSome := by
  rw [Option.isSome_iff_exists]
  exact exists_congr fun _ => decode_eq_some.symm

instance (b : List UInt8) : Decidable (Valid b) := decidable_of_iff _ valid_iff.symm

theorem not_valid_iff {b : List UInt8} : ¬ Valid b ↔ decode b = none := by
  rw [valid_iff, Option.not_isSome_iff_eq_none]

theorem Valid.nil : Valid [] := ⟨[], rfl⟩

theorem valid_literal (s : String) : Valid (Cpp.literal s) := by
  obtain ⟨cs, rfl⟩ := s.exists_eq_ofList
  refine ⟨cs, ?_⟩
  rw [Cpp.literal, String.toUTF8_eq_toByteArray, String.toByteArray_ofList, utf8Encode_eq]

/-- A text: bytes together with the code points they encode. -/
abbrev Text := { b : List UInt8 // Valid b }

/-! ### The length of a code point -/

theorem forall_byte {P : UInt8 → Prop} (h : ∀ n < 256, P (UInt8.ofNat n)) (b : UInt8) : P b :=
  UInt8.ofNat_toNat (x := b) ▸ h b.toNat b.toNat_lt

/-- What the first byte of a code point's encoding says about the number of bytes. -/
def LeadOf (n : Nat) (b : UInt8) : Prop :=
  (n = 1 ∧ b < 0x80) ∨ (n = 2 ∧ 0xC0 ≤ b ∧ b < 0xE0) ∨ (n = 3 ∧ 0xE0 ≤ b ∧ b < 0xF0) ∨
    (n = 4 ∧ 0xF0 ≤ b ∧ b < 0xF8)

theorem leadOf_utf8EncodeChar (c : Char) : ∃ b rest, String.utf8EncodeChar c = b :: rest ∧
    LeadOf (rest.length + 1) b := by
  have h₂ : ∀ x : UInt8, 0xC0 ≤ (x &&& 0x1f ||| 0xc0) ∧ (x &&& 0x1f ||| 0xc0) < 0xE0 :=
    forall_byte (by decide +kernel)
  have h₃ : ∀ x : UInt8, 0xE0 ≤ (x &&& 0x0f ||| 0xe0) ∧ (x &&& 0x0f ||| 0xe0) < 0xF0 :=
    forall_byte (by decide +kernel)
  have h₄ : ∀ x : UInt8, 0xF0 ≤ (x &&& 0x07 ||| 0xf0) ∧ (x &&& 0x07 ||| 0xf0) < 0xF8 :=
    forall_byte (by decide +kernel)
  rcases c.utf8Size_eq with h | h | h | h
  · refine ⟨_, _, String.utf8EncodeChar_eq_singleton h, .inl ⟨rfl, ?_⟩⟩
    have hle := Char.utf8Size_eq_one_iff.1 h
    rw [UInt32.le_iff_toNat_le] at hle
    rw [UInt8.lt_iff_toNat_lt, UInt32.toNat_toUInt8]
    simp only [UInt32.reduceToNat, UInt8.reduceToNat] at hle ⊢
    omega
  · exact ⟨_, _, String.utf8EncodeChar_eq_cons_cons h, .inr (.inl ⟨rfl, h₂ _⟩)⟩
  · exact ⟨_, _, String.utf8EncodeChar_eq_cons_cons_cons h, .inr (.inr (.inl ⟨rfl, h₃ _⟩))⟩
  · exact ⟨_, _, String.utf8EncodeChar_eq_cons_cons_cons_cons h, .inr (.inr (.inr ⟨rfl, h₄ _⟩))⟩

end Utf8
