import CoffeeChat.JsonEscape
import CoffeeChat.Lib.CText

/-!
# The scanner of the JSON library

The lexer takes bytes off the input, one `get` each; `unget` puts the last one back, so that a scan
here turns what is left of the input into a token and what is left after it. The numbers of the
library's `double` are a parameter, with the conversion of a text to it. Positions and the text of
the current token, which only go into messages, are left out.
-/

namespace CoffeeChat.Json
open Cpp Utf8

inductive Token (F : Type) where
  | literalTrue
  | literalFalse
  | literalNull
  | valueString (s : Bytes)
  | valueUnsigned (n : Nat)
  | valueInteger (n : Int)
  | valueFloat (x : F)
  | beginArray
  | beginObject
  | endArray
  | endObject
  | nameSeparator
  | valueSeparator
  | parseError (message : String)
  | endOfInput
  deriving DecidableEq, Repr

/-! ### Strings -/

def hexValue (c : UInt8) : Option Nat :=
  if 48 ≤ c ∧ c ≤ 57 then some (c.toNat - 0x30)
  else if 65 ≤ c ∧ c ≤ 70 then some (c.toNat - 0x37)
  else if 97 ≤ c ∧ c ≤ 102 then some (c.toNat - 0x57)
  else none

/-- `get_codepoint`: one digit for each of the factors, none for its result -1. -/
def getCodepoint : List Nat → Nat → Bytes → Option (Nat × Bytes)
  | [], codepoint, input => some (codepoint, input)
  | _ :: _, _, [] => none
  | factor :: factors, codepoint, current :: input =>
    match hexValue current with
    | none => none
    | some value => getCodepoint factors (codepoint + value <<< factor) input

def factors : List Nat := [12, 8, 4, 0]

/-- The bytes added for a code point that was given by its number. -/
def codepointBytes (codepoint : Nat) : Bytes :=
  if codepoint < 0x80 then [UInt8.ofNat codepoint]
  else if codepoint ≤ 0x7FF then
    [UInt8.ofNat (0xC0 ||| codepoint >>> 6), UInt8.ofNat (0x80 ||| codepoint &&& 0x3F)]
  else if codepoint ≤ 0xFFFF then
    [UInt8.ofNat (0xE0 ||| codepoint >>> 12), UInt8.ofNat (0x80 ||| codepoint >>> 6 &&& 0x3F),
      UInt8.ofNat (0x80 ||| codepoint &&& 0x3F)]
  else
    [UInt8.ofNat (0xF0 ||| codepoint >>> 18), UInt8.ofNat (0x80 ||| codepoint >>> 12 &&& 0x3F),
      UInt8.ofNat (0x80 ||| codepoint >>> 6 &&& 0x3F), UInt8.ofNat (0x80 ||| codepoint &&& 0x3F)]

def hexDigitsMessage : String := "invalid string: '\\u' must be followed by 4 hex digits"

def highSurrogateMessage : String :=
  "invalid string: surrogate U+D800..U+DBFF must be followed by U+DC00..U+DFFF"

def lowSurrogateMessage : String :=
  "invalid string: surrogate U+DC00..U+DFFF must follow U+D800..U+DBFF"

/-- The second half of a surrogate pair, `codepoint1` being the first. -/
def scanLowSurrogate (codepoint1 : Nat) : Bytes → Except String (Bytes × Bytes)
  | 92 :: 117 :: input =>
    match getCodepoint factors 0 input with
    | none => throw hexDigitsMessage
    | some (codepoint2, input) =>
      if 0xDC00 ≤ codepoint2 ∧ codepoint2 ≤ 0xDFFF then
        return (codepointBytes (codepoint1 <<< 10 + codepoint2 - 0x35FDC00), input)
      else throw highSurrogateMessage
  | _ => throw highSurrogateMessage

/-- What follows `\u`. -/
def scanUnicode (input : Bytes) : Except String (Bytes × Bytes) :=
  match getCodepoint factors 0 input with
  | none => throw hexDigitsMessage
  | some (codepoint1, input) =>
    if 0xD800 ≤ codepoint1 ∧ codepoint1 ≤ 0xDBFF then scanLowSurrogate codepoint1 input
    else if 0xDC00 ≤ codepoint1 ∧ codepoint1 ≤ 0xDFFF then throw lowSurrogateMessage
    else return (codepointBytes codepoint1, input)

/-- What follows a backslash: the bytes it stands for. -/
def scanEscape : Bytes → Except String (Bytes × Bytes)
  | 34 :: input => return ([34], input)
  | 92 :: input => return ([92], input)
  | 47 :: input => return ([47], input)
  | 98 :: input => return ([8], input)
  | 102 :: input => return ([12], input)
  | 110 :: input => return ([10], input)
  | 114 :: input => return ([13], input)
  | 116 :: input => return ([9], input)
  | 117 :: input => scanUnicode input
  | _ => throw "invalid string: forbidden character after backslash"

def controlNames : List String :=
  ["NUL", "SOH", "STX", "ETX", "EOT", "ENQ", "ACK", "BEL", "BS", "HT", "LF", "VT", "FF", "CR", "SO", "SI",
   "DLE", "DC1", "DC2", "DC3", "DC4", "NAK", "SYN", "ETB", "CAN", "EM", "SUB", "ESC", "FS", "GS", "RS", "US"]

def controlMessage (c : UInt8) : String :=
  let hex := String.ofList [hexUpper (c.toNat / 16), hexUpper (c.toNat % 16)]
  let short := match c.toNat with
    | 0x08 => " or \\b"
    | 0x09 => " or \\t"
    | 0x0A => " or \\n"
    | 0x0C => " or \\f"
    | 0x0D => " or \\r"
    | _ => ""
  "invalid string: control character U+00" ++ hex ++ " (" ++ controlNames.getD c.toNat "" ++
    ") must be escaped to \\u00" ++ hex ++ short

def illFormedMessage : String := "invalid string: ill-formed UTF-8 byte"

/-- The ranges that the `switch` of `scan_string` passes on for a byte from `20` on, none where it is
ill-formed. -/
def scanRanges (c : UInt8) : Option (List Range) :=
  if c ≤ 0x7F then some []
  else if 0xC2 ≤ c ∧ c ≤ 0xDF then some [(0x80, 0xBF)]
  else if c = 0xE0 then some [(0xA0, 0xBF), (0x80, 0xBF)]
  else if 0xE1 ≤ c ∧ c ≤ 0xEC ∨ 0xEE ≤ c ∧ c ≤ 0xEF then some [(0x80, 0xBF), (0x80, 0xBF)]
  else if c = 0xED then some [(0x80, 0x9F), (0x80, 0xBF)]
  else if c = 0xF0 then some [(0x90, 0xBF), (0x80, 0xBF), (0x80, 0xBF)]
  else if 0xF1 ≤ c ∧ c ≤ 0xF3 then some [(0x80, 0xBF), (0x80, 0xBF), (0x80, 0xBF)]
  else if c = 0xF4 then some [(0x80, 0x8F), (0x80, 0xBF), (0x80, 0xBF)]
  else none

/-- `next_byte_in_range`: `added` are the bytes added so far. -/
def nextByteInRange : List Range → Bytes → Bytes → Except String (Bytes × Bytes)
  | [], added, input => return (added, input)
  | _ :: _, _, [] => throw illFormedMessage
  | range :: ranges, added, current :: input =>
    if range.1 ≤ current ∧ current ≤ range.2 then nextByteInRange ranges (added ++ [current]) input
    else throw illFormedMessage

/-- One turn of the loop of `scan_string` on a byte that is not the closing quote: the bytes added to
`token_buffer`. -/
def scanChar (c : UInt8) (input : Bytes) : Except String (Bytes × Bytes) :=
  if c = 92 then scanEscape input
  else if c ≤ 0x1F then throw (controlMessage c)
  else match scanRanges c with
    | some ranges => nextByteInRange ranges [c] input
    | none => throw illFormedMessage

theorem getCodepoint_suffix {fs : List Nat} {n m : Nat} {input rest : Bytes}
    (h : getCodepoint fs n input = some (m, rest)) : rest <:+ input := by
  induction fs generalizing n input with
  | nil => cases h; exact List.suffix_rfl
  | cons f fs ih =>
    cases input with
    | nil => cases h
    | cons c input =>
      rw [getCodepoint] at h
      cases hc : hexValue c with
      | none => rw [hc] at h; cases h
      | some v =>
        rw [hc] at h
        exact (ih h).trans (List.suffix_cons c input)

theorem nextByteInRange_suffix {rs : List Range} {added bytes input rest : Bytes}
    (h : nextByteInRange rs added input = .ok (bytes, rest)) : rest <:+ input := by
  induction rs generalizing added input with
  | nil => cases h; exact List.suffix_rfl
  | cons r rs ih =>
    cases input with
    | nil => cases h
    | cons c input =>
      rw [nextByteInRange] at h
      split at h
      · exact (ih h).trans (List.suffix_cons c input)
      · cases h

theorem scanLowSurrogate_suffix {n : Nat} {bytes input rest : Bytes}
    (h : scanLowSurrogate n input = .ok (bytes, rest)) : rest <:+ input := by
  unfold scanLowSurrogate at h
  split at h
  next input =>
    split at h
    · cases h
    next codepoint2 rest' hcode =>
      split_ifs at h
      simp only [pure_eq_ok, Except.ok.injEq, Prod.mk.injEq] at h
      rw [← h.2]
      exact (getCodepoint_suffix hcode).trans (List.suffix_append [92, 117] input)
  · cases h

theorem scanUnicode_suffix {bytes input rest : Bytes} (h : scanUnicode input = .ok (bytes, rest)) :
    rest <:+ input := by
  unfold scanUnicode at h
  split at h
  · cases h
  next codepoint1 rest' hcode =>
    split_ifs at h
    · exact (scanLowSurrogate_suffix h).trans (getCodepoint_suffix hcode)
    · cases h
      exact getCodepoint_suffix hcode

theorem scanEscape_suffix {bytes input rest : Bytes} (h : scanEscape input = .ok (bytes, rest)) :
    rest <:+ input := by
  unfold scanEscape at h
  split at h
  iterate 8
    next => cases h; exact List.suffix_cons _ _
  · exact (scanUnicode_suffix h).trans (List.suffix_cons _ _)
  · cases h

theorem scanChar_suffix {c : UInt8} {bytes input rest : Bytes} (h : scanChar c input = .ok (bytes, rest)) :
    rest <:+ input := by
  unfold scanChar at h
  split_ifs at h
  · exact scanEscape_suffix h
  · split at h
    · exact nextByteInRange_suffix h
    · cases h

/-- `scan_string` after its opening quote: `token_buffer`, and what is left behind the closing one. -/
def scanString (tokenBuffer input : Bytes) : Except String (Bytes × Bytes) :=
  match input with
  | [] => .error "invalid string: missing closing quote"
  | c :: input' =>
    if c = 34 then .ok (tokenBuffer, input')
    else match _hscan : scanChar c input' with
      | .error e => .error e
      | .ok (bytes, rest) => scanString (tokenBuffer ++ bytes) rest
termination_by input.length
decreasing_by exact Nat.lt_succ_of_le (scanChar_suffix _hscan).length_le

/-! ### Numbers -/

inductive NumberState where
  | minus
  | zero
  | any1
  | decimal1
  | decimal2
  | exponent
  | sign
  | any2
  deriving DecidableEq, Repr

inductive NumberType where
  | unsigned
  | integer
  | float
  deriving DecidableEq, Repr

def isExponent (c : UInt8) : Prop := c = 101 ∨ c = 69

instance (c : UInt8) : Decidable (isExponent c) := inferInstanceAs (Decidable (_ ∨ _))

/-- Where the machine goes on a character, none where it has no way. -/
def NumberState.next (c : UInt8) : NumberState → Option NumberState
  | minus => if c = 48 then some zero else if isdigit c then some any1 else none
  | zero => if c = 46 then some decimal1 else if isExponent c then some exponent else none
  | any1 =>
    if isdigit c then some any1 else if c = 46 then some decimal1
    else if isExponent c then some exponent else none
  | decimal1 => if isdigit c then some decimal2 else none
  | decimal2 => if isdigit c then some decimal2 else if isExponent c then some exponent else none
  | exponent => if c = 43 ∨ c = 45 then some sign else if isdigit c then some any2 else none
  | sign => if isdigit c then some any2 else none
  | any2 => if isdigit c then some any2 else none

/-- The message where a character is missing, none where the number may end. -/
def NumberState.message : NumberState → Option String
  | minus => some "invalid number; expected digit after '-'"
  | decimal1 => some "invalid number; expected digit after '.'"
  | exponent => some "invalid number; expected '+', '-', or digit after exponent"
  | sign => some "invalid number; expected digit after exponent sign"
  | _ => none

/-- `number_type` after entering a state. -/
def NumberState.type (t : NumberType) : NumberState → NumberType
  | minus => .integer
  | decimal1 | exponent => .float
  | _ => t

/-- The machine of `scan_number` from a state on, up to `scan_number_done`. -/
def scanDigits (state : NumberState) (type : NumberType) (tokenBuffer : Bytes) :
    Bytes → Except String (NumberType × Bytes × Bytes)
  | [] =>
    match state.message with
    | some message => throw message
    | none => return (type, tokenBuffer, [])
  | c :: input =>
    match state.next c with
    | some state => scanDigits state (state.type type) (tokenBuffer ++ [c]) input
    | none =>
      match state.message with
      | some message => throw message
      | none => return (type, tokenBuffer, c :: input)

variable {F : Type}

/-- The conversion of the text of a number: `strtoull` and `strtoll` with base 10, and `strtof` for
what they find out of range. -/
def convertNumber (strtof : Bytes → F) (type : NumberType) (text : Bytes) : Token F :=
  match type with
  | .unsigned => if digitsValue 0 text < 2 ^ 64 then .valueUnsigned (digitsValue 0 text) else .valueFloat (strtof text)
  | .integer =>
    if digitsValue 0 text.tail ≤ 2 ^ 63 then .valueInteger (-(digitsValue 0 text.tail : Nat))
    else .valueFloat (strtof text)
  | .float => .valueFloat (strtof text)

/-- `scan_number`, `current` being the first character of the number. -/
def scanNumber (strtof : Bytes → F) (current : UInt8) (input : Bytes) : Token F × Bytes :=
  let (state, type) := if current = 45 then (NumberState.minus, NumberType.integer)
    else if current = 48 then (NumberState.zero, NumberType.unsigned)
    else (NumberState.any1, NumberType.unsigned)
  match scanDigits state type [current] input with
  | .error message => (.parseError message, [])
  | .ok (type, text, rest) => (convertNumber strtof type text, rest)

/-! ### Tokens -/

/-- `scan_literal` after the first character. -/
def scanLiteral (literal : Bytes) (token : Token F) : Bytes → Token F × Bytes := fun input =>
  if literal <+: input then (token, input.drop literal.length) else (.parseError "invalid literal", [])

def isBlank (c : UInt8) : Bool := c == 32 || c == 9 || c == 10 || c == 13

/-- `scan()` after the first call, comments not being ignored. -/
def scanToken (strtof : Bytes → F) (input : Bytes) : Token F × Bytes :=
  match input.dropWhile isBlank with
  | [] => (.endOfInput, [])
  | current :: input =>
    if current = 91 then (.beginArray, input)
    else if current = 93 then (.endArray, input)
    else if current = 123 then (.beginObject, input)
    else if current = 125 then (.endObject, input)
    else if current = 58 then (.nameSeparator, input)
    else if current = 44 then (.valueSeparator, input)
    else if current = 116 then scanLiteral (Cpp.literal "rue") .literalTrue input
    else if current = 102 then scanLiteral (Cpp.literal "alse") .literalFalse input
    else if current = 110 then scanLiteral (Cpp.literal "ull") .literalNull input
    else if current = 34 then
      match scanString [] input with
      | .error message => (.parseError message, [])
      | .ok (s, rest) => (.valueString s, rest)
    else if current = 45 ∨ isdigit current then scanNumber strtof current input
    else if current = 0 then (.endOfInput, input)
    else (.parseError "invalid literal", input)

/-- `skip_bom`, none where the mark is broken off. -/
def skipBom : Bytes → Option Bytes
  | 0xEF :: input => if input.take 2 = [0xBB, 0xBF] then some (input.drop 2) else none
  | input => some input

/-- The first call of `scan()`. -/
def scanFirst (strtof : Bytes → F) (input : Bytes) : Token F × Bytes :=
  match skipBom input with
  | none => (.parseError "invalid BOM; must be 0xEF 0xBB 0xBF if given", [])
  | some input => scanToken strtof input

end CoffeeChat.Json
