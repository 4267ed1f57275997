import CoffeeChat.JsonLexer

/-!
# Integers through the serializer and the scanner

`dump_integer` counts the digits, then fills `number_buffer` from its end, two digits at a time from a
table. It writes the decimal digits of every `int64_t` and `uint64_t`, never outside of the buffer,
and `scan_number` reads them back.
-/

namespace CoffeeChat.Json
open Cpp WeChatApi

/-! ### `dump_integer` -/

def digitByte (n : Nat) : UInt8 := UInt8.ofNat (48 + n)

/-- `count_digits`, after `nDigits` have been counted. -/
def countDigits (nDigits x : Nat) : Nat :=
  if x < 10 then nDigits
  else if x < 100 then nDigits + 1
  else if x < 1000 then nDigits + 2
  else if x < 10000 then nDigits + 3
  else countDigits (nDigits + 4) (x / 10000)

/-- `*(--buffer_ptr) = c`. -/
def putBack (c : UInt8) : Nat × Bytes → Except Fault (Nat × Bytes)
  | (0, _) => throw .outOfBounds
  | (ptr + 1, buffer) => if ptr < buffer.length then return (ptr, buffer.set ptr c) else throw .outOfBounds

/-- The two characters of `digits_to_99[i]`. -/
def putPair (i : Nat) (at_ : Nat × Bytes) : Except Fault (Nat × Bytes) := do
  let at_ ← putBack (digitByte (i % 10)) at_
  putBack (digitByte (i / 10)) at_

/-- The digits of `abs_value`, from the last one on. -/
def putDigits (absValue : Nat) (at_ : Nat × Bytes) : Except Fault (Nat × Bytes) :=
  if 100 ≤ absValue then do
    let at_ ← putPair (absValue % 100) at_
    putDigits (absValue / 100) at_
  else if 10 ≤ absValue then putPair absValue at_
  else putBack (digitByte absValue) at_

/-- `dump_integer(x)`, `numberBuffer` holding whatever was left in it. -/
def dumpInteger (numberBuffer : Bytes) (x : Int) : Except Fault Bytes :=
  if x = 0 then return [48]
  else if x < 0 then do
    let (_, buffer) ← putBack 45 (1, numberBuffer)
    let nChars := 1 + countDigits 1 x.natAbs
    let (_, buffer) ← putDigits x.natAbs (nChars, buffer)
    return buffer.take nChars
  else do
    let nChars := countDigits 1 x.natAbs
    let (_, buffer) ← putDigits x.natAbs (nChars, numberBuffer)
    return buffer.take nChars

theorem digitByte_eq : ∀ d < 10, d.digitChar.toNat.toUInt8 = digitByte d := by decide

theorem decimal_of_lt {n : Nat} (h : n < 10) : decimal n = [digitByte n] := by
  rw [decimal, Nat.toDigits_of_lt_base h, List.map_singleton, digitByte_eq n h]

theorem decimal_of_le {n : Nat} (h : 10 ≤ n) : decimal n = decimal (n / 10) ++ [digitByte (n % 10)] := by
  rw [decimal, Nat.toDigits_of_base_le (by decide) h, List.map_append, List.map_singleton,
    digitByte_eq _ (Nat.mod_lt _ (by decide))]
  rfl

theorem decimal_of_hundred_le {n : Nat} (h : 100 ≤ n) :
    decimal n = decimal (n / 100) ++ [digitByte (n % 100 / 10), digitByte (n % 100 % 10)] := by
  have h₁ : n / 10 / 10 = n / 100 := by omega
  have h₂ : n / 10 % 10 = n % 100 / 10 := by omega
  have h₃ : n % 10 = n % 100 % 10 := by omega
  rw [decimal_of_le (by omega), decimal_of_le (n := n / 10) (by omega), h₁, h₂, h₃, List.append_assoc]
  rfl

theorem countDigits_eq (nDigits x : Nat) : countDigits nDigits x + 1 = nDigits + (decimal x).length := by
  induction x using Nat.strong_induction_on generalizing nDigits with
  | _ x ih =>
    have hlen : ∀ n, 10 ≤ n → (decimal n).length = (decimal (n / 10)).length + 1 := fun n hn => by
      rw [decimal_of_le hn, List.length_append, List.length_singleton]
    have hone : ∀ n, n < 10 → (decimal n).length = 1 := fun n hn => by rw [decimal_of_lt hn]; rfl
    rw [countDigits]
    split_ifs with h₁ h₂ h₃ h₄
    · rw [hone x h₁]
    · rw [hlen x (by omega), hone _ (by omega)]
    · rw [hlen x (by omega), hlen _ (by omega), hone _ (by omega)]
    · rw [hlen x (by omega), hlen _ (by omega), hlen _ (by omega), hone _ (by omega)]
    · have hdiv : x / 10 / 10 / 10 / 10 = x / 10000 := by omega
      rw [ih _ (by omega), hlen x (by omega), hlen (x / 10) (by omega), hlen (x / 10 / 10) (by omega),
        hlen (x / 10 / 10 / 10) (by omega), hdiv]
      omega

theorem putBack_eq_ok {c : UInt8} {ptr : Nat} {buffer : Bytes} (h : ptr < buffer.length) :
    putBack c (ptr + 1, buffer) = .ok (ptr, buffer.take ptr ++ c :: buffer.drop (ptr + 1)) := by
  rw [putBack, if_pos h, List.set_eq_take_append_cons_drop, if_pos h]
  rfl

/-- `text` has been written in front of `ptr`. -/
def putText (text : Bytes) (ptr : Nat) (buffer : Bytes) : Bytes :=
  buffer.take (ptr - text.length) ++ text ++ buffer.drop ptr

theorem putText_putText (text text' : Bytes) {ptr : Nat} {buffer : Bytes} (h : text.length + text'.length ≤ ptr)
    (hptr : ptr ≤ buffer.length) : putText text (ptr - text'.length) (putText text' ptr buffer) =
      putText (text ++ text') ptr buffer := by
  have htake : (buffer.take (ptr - text'.length)).length = ptr - text'.length :=
    List.length_take_of_le (by omega)
  simp only [putText, List.length_append, List.append_assoc]
  rw [List.take_append_of_le_length (by omega), List.take_take, List.drop_append_of_le_length (by omega),
    List.drop_of_length_le (l := buffer.take _) (by omega)]
  have hmin : min (ptr - text'.length - text.length) (ptr - text'.length) = ptr - (text.length + text'.length) := by
    omega
  rw [hmin, List.nil_append]

theorem putPair_eq_ok {i ptr : Nat} {buffer : Bytes} (h₁ : 2 ≤ ptr) (h₂ : ptr ≤ buffer.length) :
    putPair i (ptr, buffer) = .ok (ptr - 2, putText [digitByte (i / 10), digitByte (i % 10)] ptr buffer) := by
  obtain ⟨ptr, rfl⟩ := Nat.exists_eq_add_of_le' h₁
  have hlast : ptr + 1 < buffer.length := by omega
  have hlen : (buffer.take (ptr + 1)).length = ptr + 1 := List.length_take_of_le (by omega)
  have hput := putBack_eq_ok (c := digitByte (i % 10)) hlast
  rw [putPair, hput, ok_bind, putBack_eq_ok (by simp; omega)]
  have htake : (buffer.take (ptr + 1) ++ digitByte (i % 10) :: buffer.drop (ptr + 1 + 1)).take ptr = buffer.take ptr := by
    rw [List.take_append_of_le_length (by omega), List.take_take]
    congr 1
    omega
  rw [htake, List.drop_left' hlen]
  simp [putText]

theorem length_putText {text : Bytes} {ptr : Nat} {buffer : Bytes} (h : text.length ≤ ptr)
    (hptr : ptr ≤ buffer.length) : (putText text ptr buffer).length = buffer.length := by
  simp only [putText, List.length_append, List.length_take, List.length_drop]
  omega

/-- The digits of a number end up in front of `ptr`. -/
theorem putDigits_eq_ok {n ptr : Nat} {buffer : Bytes} (h₁ : (decimal n).length ≤ ptr)
    (h₂ : ptr ≤ buffer.length) :
    putDigits n (ptr, buffer) = .ok (ptr - (decimal n).length, putText (decimal n) ptr buffer) := by
  induction n using Nat.strong_induction_on generalizing ptr buffer with
  | _ n ih =>
    rw [putDigits]
    split_ifs with hhundred hten
    · have hdec := decimal_of_hundred_le hhundred
      rw [hdec, List.length_append] at h₁
      simp only [List.length_cons, List.length_nil] at h₁
      let pair := [digitByte (n % 100 / 10), digitByte (n % 100 % 10)]
      have hpair : putPair (n % 100) (ptr, buffer) = .ok (ptr - 2, putText pair ptr buffer) :=
        putPair_eq_ok (by omega) h₂
      have hlen : (putText pair ptr buffer).length = buffer.length :=
        length_putText (show 2 ≤ ptr by omega) h₂
      have htext : putText (decimal (n / 100)) (ptr - 2) (putText pair ptr buffer) =
          putText (decimal (n / 100) ++ pair) ptr buffer :=
        putText_putText _ pair (show (decimal (n / 100)).length + 2 ≤ ptr by omega) h₂
      have hptr : ptr - 2 - (decimal (n / 100)).length = ptr - (decimal (n / 100) ++ pair).length := by
        rw [List.length_append]
        exact (Nat.sub_sub ..).trans (by rw [Nat.add_comm]; rfl)
      rw [hpair, ok_bind, ih _ (by omega) (by omega) (by omega), hdec, htext, hptr]
    · have hdec : decimal n = [digitByte (n / 10), digitByte (n % 10)] := by
        rw [decimal_of_le hten, decimal_of_lt (by omega)]
        rfl
      rw [hdec] at h₁ ⊢
      exact putPair_eq_ok h₁ h₂
    · rw [decimal_of_lt (by omega)] at h₁ ⊢
      obtain ⟨ptr, rfl⟩ := Nat.exists_eq_add_of_le' h₁
      rw [List.length_singleton] at h₂ ⊢
      rw [putBack_eq_ok (by omega)]
      simp [putText]

theorem countDigits_one (n : Nat) : countDigits 1 n = (decimal n).length := by
  have hpos : 0 < (decimal n).length := List.length_pos_iff.2 (decimal_ne_nil _)
  have hcount := countDigits_eq 1 n
  omega

theorem dumpInteger_neg {numberBuffer : Bytes} {x : Int} (hbuffer : numberBuffer.length = 64) (h₁ : -2 ^ 63 ≤ x)
    (hneg : x < 0) : dumpInteger numberBuffer x = .ok (decimalInt x) := by
  have hlen : (decimal x.natAbs).length ≤ 20 := length_decimal_le (by decide) (by omega)
  have hlen' : (numberBuffer.take 0 ++ (45 : UInt8) :: numberBuffer.drop (0 + 1)).length = 64 := by
    simp only [List.take_zero, List.nil_append, List.length_cons, List.length_drop]
    omega
  rw [dumpInteger, if_neg hneg.ne, if_pos hneg, putBack_eq_ok (by omega), ok_bind]
  simp only [countDigits_one]
  rw [putDigits_eq_ok (by omega) (by omega), ok_bind, decimalInt, if_pos hneg]
  have hsub : 1 + (decimal x.natAbs).length - (decimal x.natAbs).length = 1 := by omega
  simp only [putText, hsub, List.take_zero, List.nil_append, List.take_succ_cons]
  rw [List.take_left' (by simp; omega)]
  rfl

theorem dumpInteger_natCast {numberBuffer : Bytes} {n : Nat} (hbuffer : numberBuffer.length = 64) (hn : n < 2 ^ 64) :
    dumpInteger numberBuffer n = .ok (decimal n) := by
  have hlen : (decimal n).length ≤ 20 := length_decimal_le (by decide) (by omega)
  rw [dumpInteger, Int.natAbs_natCast]
  split_ifs with hzero hneg
  · obtain rfl : n = 0 := by omega
    rfl
  · omega
  · simp only [countDigits_one]
    rw [putDigits_eq_ok le_rfl (by omega), ok_bind]
    simp [putText]

/-- `dump_integer` writes the decimal digits of every signed and unsigned 64-bit number, and stays
inside of its buffer. -/
theorem dumpInteger_eq_ok {numberBuffer : Bytes} {x : Int} (hbuffer : numberBuffer.length = 64)
    (h₁ : -2 ^ 63 ≤ x) (h₂ : x < 2 ^ 64) : dumpInteger numberBuffer x = .ok (decimalInt x) := by
  rcases lt_or_ge x 0 with hneg | hnonneg
  · exact dumpInteger_neg hbuffer h₁ hneg
  · obtain ⟨n, rfl⟩ := Int.eq_ofNat_of_zero_le hnonneg
    rw [decimalInt_natCast]
    exact dumpInteger_natCast hbuffer (by omega)

theorem dumpInteger_eq_ok_min :
    dumpInteger (List.replicate 64 0) (-2 ^ 63) = .ok (decimalInt (-2 ^ 63)) :=
  dumpInteger_eq_ok List.length_replicate (by decide) (by decide)

/-! ### `scan_number` -/

/-- What may follow a number: a character that does not belong to it. -/
def Ends (rest : Bytes) : Prop := ∀ c, rest.head? = some c → isdigit c = false ∧ c ≠ 46 ∧ ¬ isExponent c

theorem scanDigits_any1 {type : NumberType} {digits rest : Bytes} (hdigits : ∀ c ∈ digits, isdigit c)
    (hrest : Ends rest) (buffer : Bytes) :
    scanDigits .any1 type buffer (digits ++ rest) = .ok (type, buffer ++ digits, rest) := by
  induction digits generalizing buffer with
  | nil =>
    rw [List.append_nil, List.nil_append]
    cases rest with
    | nil => rfl
    | cons c rest =>
      obtain ⟨hc, hpoint, hexp⟩ := hrest c rfl
      simp only [scanDigits, NumberState.next, hc, Bool.false_eq_true, if_false, if_neg hpoint, if_neg hexp,
        NumberState.message, pure_eq_ok]
  | cons c digits ih =>
    have hc := hdigits c List.mem_cons_self
    rw [List.cons_append, scanDigits]
    simp only [NumberState.next, hc, if_true, NumberState.type]
    rw [ih (fun c' hc' => hdigits c' (List.mem_cons_of_mem _ hc')), List.append_assoc]
    rfl

theorem scanDigits_zero {type : NumberType} {rest : Bytes} (hrest : Ends rest) (buffer : Bytes) :
    scanDigits .zero type buffer rest = .ok (type, buffer, rest) := by
  cases rest with
  | nil => rfl
  | cons c rest =>
    obtain ⟨-, hpoint, hexp⟩ := hrest c rfl
    simp only [scanDigits, NumberState.next, if_neg hpoint, if_neg hexp, NumberState.message, pure_eq_ok]

/-- A number other than zero does not start with a zero. -/
theorem decimal_head_ne_zero {n : Nat} (h : n ≠ 0) : (decimal n).head? ≠ some 48 := by
  induction n using Nat.strong_induction_on with
  | _ n ih =>
    by_cases hlt : n < 10
    · have htable : ∀ d < 10, d ≠ 0 → digitByte d ≠ 48 := by decide
      rw [decimal_of_lt hlt, List.head?_cons]
      exact fun heq => htable n hlt h (Option.some.inj heq)
    · rw [decimal_of_le (by omega), List.head?_append_of_ne_nil _ (decimal_ne_nil _)]
      exact ih _ (by omega) (by omega)

variable {F : Type} (strtof : Bytes → F)

theorem scanNumber_decimal {n : Nat} (h : n < 2 ^ 64) {rest : Bytes} (hrest : Ends rest) :
    ∃ c digits, decimal n = c :: digits ∧ isdigit c ∧
      scanNumber strtof c (digits ++ rest) = (.valueUnsigned n, rest) := by
  have hval := digitsValue_decimal n
  have hall : ∀ c ∈ decimal n, isdigit c := fun c hc => isdigit_of_mem_decimal hc
  have hhead := decimal_head_ne_zero (n := n)
  obtain ⟨c, digits, hdec⟩ := List.exists_cons_of_ne_nil (decimal_ne_nil n)
  have hc := hall c (by rw [hdec]; exact List.mem_cons_self)
  have hminus : c ≠ 45 := by
    rintro rfl
    exact absurd hc (by decide)
  refine ⟨c, digits, hdec, hc, ?_⟩
  rw [scanNumber, if_neg hminus]
  by_cases hzero : n = 0
  · subst hzero
    rw [decimal_of_lt (by decide)] at hdec
    obtain ⟨rfl, rfl⟩ : 48 = c ∧ [] = digits := List.cons.inj hdec
    simp only [if_true, List.nil_append, scanDigits_zero hrest]
    rfl
  · have hne : c ≠ 48 := by
      rintro rfl
      exact hhead hzero (by rw [hdec]; rfl)
    rw [if_neg hne]
    simp only [scanDigits_any1 (fun d hd => hall d (by rw [hdec]; exact List.mem_cons_of_mem _ hd)) hrest]
    rw [List.singleton_append, ← hdec, convertNumber, hval, if_pos h]

theorem scanNumber_decimalInt {x : Int} (h₁ : -2 ^ 63 ≤ x) (h₂ : x < 0) {rest : Bytes} (hrest : Ends rest) :
    ∃ digits, decimalInt x = 45 :: digits ∧
      scanNumber strtof 45 (digits ++ rest) = (.valueInteger x, rest) := by
  have hval := digitsValue_decimal x.natAbs
  have hall : ∀ c ∈ decimal x.natAbs, isdigit c := fun c hc => isdigit_of_mem_decimal hc
  have hhead := decimal_head_ne_zero (n := x.natAbs) (by omega)
  obtain ⟨c, digits, hdec⟩ := List.exists_cons_of_ne_nil (decimal_ne_nil x.natAbs)
  have hc := hall c (by rw [hdec]; exact List.mem_cons_self)
  have hne : c ≠ 48 := by
    rintro rfl
    exact hhead (by rw [hdec]; rfl)
  refine ⟨decimal x.natAbs, by rw [decimalInt, if_pos h₂], ?_⟩
  rw [hdec] at hval ⊢
  have hdigits : scanDigits .any1 .integer [45, c] (digits ++ rest) = _ :=
    scanDigits_any1 (fun d hd => hall d (by rw [hdec]; exact List.mem_cons_of_mem _ hd)) hrest [45, c]
  simp only [scanNumber, if_true, List.cons_append, scanDigits, NumberState.next, if_neg hne, hc, NumberState.type,
    List.nil_append, hdigits, convertNumber, List.tail_cons, hval]
  rw [if_pos (by omega)]
  congr 2
  omega

end CoffeeChat.Json
