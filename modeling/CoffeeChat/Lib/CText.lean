import CoffeeChat.Lib.Cpp
import CoffeeChat.Lib.Runs
import Mathlib.Data.List.TakeWhile
import Mathlib.Order.Lattice

/-!
# Text functions of the C library

Character classes of the C locale, decimal printing (`std::to_string`), `atoi`, the word extraction of
`istream >> std::string`, the dotted-quad functions `inet_ntoa` and `inet_addr`, and `htons` on a
little-endian host. The main facts are the round trips `atoi_decimal` and `inetAddr_inetNtoa`; the
words of a stream are the maximal runs without blanks (`wordsOf_eq_runs`).
-/

namespace Cpp

/-! ### Character classes -/

def isspace (c : UInt8) : Bool := c == 32 || (9 ≤ c && c ≤ 13)

def isdigit (c : UInt8) : Bool := 48 ≤ c && c ≤ 57

def tolower (c : UInt8) : UInt8 := if 65 ≤ c && c ≤ 90 then c + 32 else c

theorem tolower_tolower (c : UInt8) : tolower (tolower c) = tolower c := by
  simp only [tolower, Bool.and_eq_true, decide_eq_true_eq, UInt8.le_iff_toNat_le]
  split
  next h =>
    rw [if_neg]
    simp only [UInt8.reduceToNat, UInt8.toNat_add] at h ⊢
    omega
  · rfl

theorem not_isspace_of_isdigit {c : UInt8} (h : isdigit c) : isspace c = false := by
  simp only [isdigit, Bool.and_eq_true, decide_eq_true_eq, UInt8.le_iff_toNat_le] at h
  simp only [isspace, Bool.or_eq_false_iff, beq_eq_false_iff_ne, ne_eq, Bool.and_eq_false_imp,
    decide_eq_true_eq, decide_eq_false_iff_not, UInt8.le_iff_toNat_le, ← UInt8.toNat_inj]
  simp only [UInt8.reduceToNat] at h ⊢
  omega

/-! ### Decimal numbers -/

/-- `std::to_string` of a non-negative number. -/
def decimal (n : Nat) : Bytes := (Nat.toDigits 10 n).map fun c => c.toNat.toUInt8

def decimalInt (z : Int) : Bytes := if z < 0 then 45 :: decimal z.natAbs else decimal z.natAbs

theorem decimalInt_natCast (n : Nat) : decimalInt n = decimal n := by
  rw [decimalInt, if_neg (by omega), Int.natAbs_natCast]

def digitsValue (v : Nat) (s : Bytes) : Nat := s.foldl (fun v c => 10 * v + (c.toNat - 48)) v

theorem decimal_ne_nil (n : Nat) : decimal n ≠ [] := by
  simp [decimal, Nat.toDigits_ne_nil]

theorem toUInt8_digit {c : Char} (h : c.isDigit) :
    isdigit c.toNat.toUInt8 ∧ c.toNat.toUInt8.toNat = c.toNat := by
  have h₁ : 48 ≤ c.toNat ∧ c.toNat ≤ 57 := by
    simpa [Char.isDigit, UInt32.le_iff_toNat_le] using h
  have h₂ : c.toNat.toUInt8.toNat = c.toNat := by
    simp only [Nat.toUInt8, UInt8.toNat_ofNat']; omega
  refine ⟨?_, h₂⟩
  simp only [isdigit, UInt8.le_iff_toNat_le, h₂, Bool.and_eq_true, decide_eq_true_eq]
  exact h₁

theorem isdigit_of_mem_decimal {n : Nat} {c : UInt8} (h : c ∈ decimal n) : isdigit c := by
  obtain ⟨d, hd, rfl⟩ := List.mem_map.1 h
  exact (toUInt8_digit (Nat.isDigit_of_mem_toDigits (by omega) (by omega) hd)).1

theorem not_isspace_of_mem_decimal {n : Nat} {c : UInt8} (h : c ∈ decimal n) : isspace c = false :=
  not_isspace_of_isdigit (isdigit_of_mem_decimal h)

theorem digitsValue_decimal (n : Nat) : digitsValue 0 (decimal n) = n := by
  have key : ∀ (l : List Char) (v : Nat), (∀ c ∈ l, c.isDigit) →
      digitsValue v (l.map fun c => c.toNat.toUInt8) = Nat.ofDigitChars 10 l v := by
    intro l
    induction l with
    | nil => intro v _; rfl
    | cons c l ih =>
      intro v h
      rw [Nat.ofDigitChars_cons, ← ih _ fun d hd => h d (List.mem_cons_of_mem _ hd)]
      simp only [digitsValue, List.map_cons, List.foldl_cons, (toUInt8_digit (h c (by simp))).2]
      rfl
  rw [decimal, key _ _ fun c hc => Nat.isDigit_of_mem_toDigits (by omega) (by omega) hc]
  exact Nat.ofDigitChars_toDigits (by omega) (by omega)

theorem length_decimal_le {n k : Nat} (hk : 0 < k) (h : n < 10 ^ k) : (decimal n).length ≤ k := by
  rw [decimal, List.length_map]
  exact (Nat.length_toDigits_le_iff (by omega) hk).2 h

def strtolSign : Bytes → Bool × Bytes
  | 45 :: s => (true, s)
  | 43 :: s => (false, s)
  | s => (false, s)

/-- `strtol(s, NULL, 10)`: leading blanks, a sign, digits; out of range it is clamped. -/
def strtol (s : Bytes) : Int :=
  let (neg, s) := strtolSign (s.dropWhile isspace)
  let v : Int := digitsValue 0 (s.takeWhile isdigit)
  if neg then max (-v) (-2 ^ 63) else min v (2 ^ 63 - 1)

/-- `atoi(s)`, which is `(int) strtol(s, NULL, 10)`. -/
def atoi (s : Bytes) : Int := int32 (strtol s)

theorem strtolSign_of_isdigit {c : UInt8} {s : Bytes} (h : isdigit c) :
    strtolSign (c :: s) = (false, c :: s) := by
  unfold strtolSign
  split
  next heq => cases heq; exact absurd h (by decide)
  next heq => cases heq; exact absurd h (by decide)
  next => rfl

theorem strtol_decimal (n : Nat) : strtol (decimal n) = min (n : Int) (2 ^ 63 - 1) := by
  have hne := decimal_ne_nil n
  have hall : ∀ c ∈ decimal n, isdigit c := fun c hc => isdigit_of_mem_decimal hc
  have hval := digitsValue_decimal n
  generalize decimal n = s at hne hall hval
  cases s with
  | nil => exact absurd rfl hne
  | cons c s =>
    have hc := hall c (by simp)
    have hdrop : (c :: s).dropWhile isspace = c :: s := by
      simp [not_isspace_of_isdigit hc]
    have htake : (c :: s).takeWhile isdigit = c :: s := List.takeWhile_eq_self_iff.2 hall
    simp only [strtol, hdrop, strtolSign_of_isdigit hc, htake, hval, Bool.false_eq_true, if_false]

theorem atoi_decimal {n : Nat} (h : n < 2 ^ 31) : atoi (decimal n) = n := by
  have : min (n : Int) (2 ^ 63 - 1) = n := by omega
  rw [atoi, strtol_decimal, this, int32_natCast h]

/-! ### Words of a stream -/

/-- `stream >> word`: the next word and what is left of the stream, or `none` when only blanks are
left and the extraction fails. -/
def extractWord (stream : Bytes) : Option (Bytes × Bytes) :=
  let s := stream.dropWhile isspace
  if s = [] then none else some (s.takeWhile (!isspace ·), s.dropWhile (!isspace ·))

/-- The words that `while (stream >> word)` extracts, in at most `n` rounds. -/
def extractWords : Nat → Bytes → List Bytes
  | 0, _ => []
  | n + 1, stream =>
    match extractWord stream with
    | none => []
    | some (word, rest) => word :: extractWords n rest

theorem extractWord_eq_none {s : Bytes} : extractWord s = none ↔ ∀ c ∈ s, isspace c := by
  simp [extractWord, List.dropWhile_eq_nil_iff]

theorem extractWord_of_cut {s lead w rest : Bytes} (h : Cut (!isspace ·) s lead w rest) :
    extractWord s = some (w, rest) := by
  have hdrop : s.dropWhile isspace = w ++ rest := by simpa using h.dropWhile_eq
  have hne : w ++ rest ≠ [] := List.append_ne_nil_of_left_ne_nil h.ne_nil _
  simp only [extractWord, hdrop, if_neg hne, h.stops.takeWhile_eq h.run, h.stops.dropWhile_eq h.run]

theorem extractWords_eq_runs {n : Nat} {s : Bytes} (h : s.length < n) :
    extractWords n s = runs (!isspace ·) s := by
  induction n generalizing s with
  | zero => omega
  | succ n ih =>
    rw [extractWords]
    rcases cut_or_blank (!isspace ·) s with ⟨lead, w, rest, hcut⟩ | hblank
    · have hlt := hcut.rest_length_lt
      rw [extractWord_of_cut hcut, hcut.runs_eq]
      show w :: extractWords n rest = _
      rw [ih (by omega)]
    · have hnone : extractWord s = none := extractWord_eq_none.2 (by simpa using hblank)
      rw [hnone, runs_eq_nil.2 hblank]

def wordsOf (s : Bytes) : List Bytes := extractWords (s.length + 1) s

theorem wordsOf_eq_runs (s : Bytes) : wordsOf s = runs (!isspace ·) s :=
  extractWords_eq_runs (Nat.lt_succ_self _)

theorem wordsOf_append {w s : Bytes} {c : UInt8} (hw : w ≠ []) (hs : ∀ x ∈ w, isspace x = false)
    (hc : isspace c) : wordsOf (w ++ c :: s) = w :: wordsOf s := by
  have hstop : StopsAt (!isspace ·) (c :: s) := by
    rintro _ _ ⟨⟩
    simp [hc]
  rw [wordsOf_eq_runs, wordsOf_eq_runs, runs_append hw (by simpa using hs) hstop,
    runs_cons_of_not (by simp [hc])]

/-! ### Addresses and ports -/

/-- The four bytes of an IPv4 address in memory order. -/
structure InAddr where
  b₁ : UInt8
  b₂ : UInt8
  b₃ : UInt8
  b₄ : UInt8
  deriving DecidableEq, Repr

/-- `htons` of an `int`: truncation to `uint16_t`, then the byte swap of a little-endian host. -/
def htons (z : Int) : UInt16 :=
  let n := (uint16 z).toNat
  UInt16.ofNat (n % 2 ^ 8 * 2 ^ 8 + n / 2 ^ 8)

def inetNtoa (a : InAddr) : Bytes :=
  [46].intercalate [decimal a.b₁.toNat, decimal a.b₂.toNat, decimal a.b₃.toNat, decimal a.b₄.toNat]

def digitValue (c : UInt8) : Nat :=
  if isdigit c then c.toNat - 48
  else if 97 ≤ c && c ≤ 102 then c.toNat - 87
  else if 65 ≤ c && c ≤ 70 then c.toNat - 55
  else 16

def baseNumber (b : Nat) (s : Bytes) : Option Nat :=
  if s.all (digitValue · < b) then some (s.foldl (fun v c => b * v + digitValue c) 0) else none

/-- One part of an address in the C notation for numbers: `0x` for hexadecimal, a leading `0` for
octal, decimal otherwise. -/
def addrPart : Bytes → Option Nat
  | [] => none
  | [48, 120] | [48, 88] => none
  | 48 :: 120 :: s | 48 :: 88 :: s => baseNumber 16 s
  | 48 :: s => baseNumber 8 s
  | s => baseNumber 10 s

def InAddr.ofNat (n : Nat) : InAddr :=
  ⟨UInt8.ofNat (n / 2 ^ 24), UInt8.ofNat (n / 2 ^ 16), UInt8.ofNat (n / 2 ^ 8), UInt8.ofNat n⟩

def inaddrNone : InAddr := ⟨255, 255, 255, 255⟩

/-- `inet_addr`: one to four parts, the last one filling the bytes that are left. -/
def inetAddr (s : Bytes) : InAddr :=
  match ((s.takeWhile (!isspace ·)).splitOn 46).mapM addrPart with
  | some [p] => if p < 2 ^ 32 then .ofNat p else inaddrNone
  | some [p, q] => if p < 2 ^ 8 ∧ q < 2 ^ 24 then .ofNat (p * 2 ^ 24 + q) else inaddrNone
  | some [p, q, r] =>
    if p < 2 ^ 8 ∧ q < 2 ^ 8 ∧ r < 2 ^ 16 then .ofNat (p * 2 ^ 24 + q * 2 ^ 16 + r) else inaddrNone
  | some [p, q, r, t] =>
    if p < 2 ^ 8 ∧ q < 2 ^ 8 ∧ r < 2 ^ 8 ∧ t < 2 ^ 8 then
      .ofNat (p * 2 ^ 24 + q * 2 ^ 16 + r * 2 ^ 8 + t)
    else inaddrNone
  | _ => inaddrNone

theorem htons_natCast {n : Nat} (h : n < 2 ^ 16) :
    (htons n).toNat = n % 2 ^ 8 * 2 ^ 8 + n / 2 ^ 8 := by
  have h₁ : (uint16 n).toNat = n := by
    have : ((n : Int) % 2 ^ 16).toNat = n := by omega
    rw [uint16, this, UInt16.toNat_ofNat', Nat.mod_eq_of_lt h]
  have h₂ : n / 2 ^ 8 < 2 ^ 8 := by omega
  simp only [htons, h₁, UInt16.toNat_ofNat']
  omega

theorem htons_htons {n : Nat} (h : n < 2 ^ 16) : (htons (htons n).toNat).toNat = n := by
  have h₁ := htons_natCast h
  rw [htons_natCast (by omega)]
  omega

theorem InAddr.ofNat_bytes (a : InAddr) :
    InAddr.ofNat (a.b₁.toNat * 2 ^ 24 + a.b₂.toNat * 2 ^ 16 + a.b₃.toNat * 2 ^ 8 + a.b₄.toNat) = a := by
  obtain ⟨b₁, b₂, b₃, b₄⟩ := a
  have h₁ := b₁.toNat_lt
  have h₂ := b₂.toNat_lt
  have h₃ := b₃.toNat_lt
  have h₄ := b₄.toNat_lt
  simp only [InAddr.ofNat, InAddr.mk.injEq, ← UInt8.toNat_inj, UInt8.toNat_ofNat']
  omega

theorem addrPart_decimal : ∀ n < 256, addrPart (decimal n) = some n := by
  decide +kernel

theorem mem_inetNtoa {a : InAddr} {c : UInt8} (h : c ∈ inetNtoa a) : isdigit c ∨ c = 46 := by
  simp only [inetNtoa, List.intercalate_cons_cons, List.intercalate_singleton, List.mem_append,
    List.mem_singleton, or_assoc] at h
  rcases h with h | rfl | h | rfl | h | rfl | h
  all_goals first | exact .inl (isdigit_of_mem_decimal h) | exact .inr rfl

theorem not_isspace_of_mem_inetNtoa {a : InAddr} {c : UInt8} (h : c ∈ inetNtoa a) :
    isspace c = false := by
  rcases mem_inetNtoa h with h | rfl
  exacts [not_isspace_of_isdigit h, rfl]

theorem inetNtoa_ne_nil (a : InAddr) : inetNtoa a ≠ [] := by
  simp [inetNtoa, decimal_ne_nil]

theorem dot_not_mem_decimal (n : Nat) : (46 : UInt8) ∉ decimal n := fun h =>
  absurd (isdigit_of_mem_decimal h) (by decide)

theorem inetAddr_inetNtoa (a : InAddr) : inetAddr (inetNtoa a) = a := by
  have hword : (inetNtoa a).takeWhile (!isspace ·) = inetNtoa a :=
    List.takeWhile_eq_self_iff.2 fun c hc => by simp [not_isspace_of_mem_inetNtoa hc]
  have hsplit : (inetNtoa a).splitOn 46 =
      [decimal a.b₁.toNat, decimal a.b₂.toNat, decimal a.b₃.toNat, decimal a.b₄.toNat] :=
    List.splitOn_intercalate 46 (by simp [dot_not_mem_decimal]) (by simp)
  have hpart : ∀ b : UInt8, addrPart (decimal b.toNat) = some b.toNat := fun b =>
    addrPart_decimal _ b.toNat_lt
  simp only [inetAddr, hword, hsplit, List.mapM_cons, List.mapM_nil, hpart, Option.bind_eq_bind,
    Option.bind_some, Option.pure_def]
  rw [if_pos ⟨a.b₁.toNat_lt, a.b₂.toNat_lt, a.b₃.toNat_lt, a.b₄.toNat_lt⟩]
  exact a.ofNat_bytes

end Cpp
