import Mathlib.Algebra.Order.Ring.Int
import Mathlib.Algebra.Order.Ring.Nat
import Mathlib.Data.List.TakeDrop

/-!
# C++ integers, bytes and bounded memory

The part of the C++ machine the programs below rest on: conversions between the integer types,
little-endian storage of an `int32_t`, and byte buffers whose every access is checked. An object of
`n` bytes is a list of length `n`; an access outside of it is undefined behaviour in C++, and here
the run ends in `Stop.outOfBounds`.
-/

namespace Cpp

abbrev Bytes := List UInt8

/-- The bytes of a string literal in a UTF-8 source. -/
def literal (s : String) : Bytes := s.toUTF8.data.toList

/-! ### Integers: the conversions to `int`, `size_t` and `uint16_t` -/

def int32 (z : Int) : Int := (z + 2 ^ 31) % 2 ^ 32 - 2 ^ 31

def sizeT (z : Int) : Nat := (z % 2 ^ 64).toNat

def uint16 (z : Int) : UInt16 := UInt16.ofNat (z % 2 ^ 16).toNat

theorem int32_of_range {z : Int} (h₁ : -2 ^ 31 ≤ z) (h₂ : z < 2 ^ 31) : int32 z = z := by
  unfold int32; omega

theorem int32_range (z : Int) : -2 ^ 31 ≤ int32 z ∧ int32 z < 2 ^ 31 := by
  unfold int32; omega

theorem int32_natCast {n : Nat} (h : n < 2 ^ 31) : int32 n = n :=
  int32_of_range (by omega) (by omega)

/-! ### Little-endian `int32_t` -/

def storeInt32 (z : Int) : Bytes :=
  let n := (z % 2 ^ 32).toNat
  [UInt8.ofNat n, UInt8.ofNat (n / 2 ^ 8), UInt8.ofNat (n / 2 ^ 16), UInt8.ofNat (n / 2 ^ 24)]

def loadInt32 : Bytes → Int
  | [a, b, c, d] => int32 (a.toNat + 2 ^ 8 * b.toNat + 2 ^ 16 * c.toNat + 2 ^ 24 * d.toNat : Nat)
  | _ => 0

@[simp] theorem length_storeInt32 (z : Int) : (storeInt32 z).length = 4 := rfl

theorem load_storeInt32 (z : Int) : loadInt32 (storeInt32 z) = int32 z := by
  simp only [storeInt32, loadInt32, UInt8.toNat_ofNat', int32]
  omega

theorem loadInt32_range (b : Bytes) : -2 ^ 31 ≤ loadInt32 b ∧ loadInt32 b < 2 ^ 31 := by
  unfold loadInt32
  split
  · exact int32_range _
  · omega

theorem loadInt32_eq_one {b : Bytes} : loadInt32 b = 1 ↔ b = [1, 0, 0, 0] := by
  constructor
  · intro h
    unfold loadInt32 at h
    split at h
    next a b c d =>
      have ha := a.toNat_lt
      have hb := b.toNat_lt
      have hc := c.toNat_lt
      have hd := d.toNat_lt
      simp only [int32] at h
      simp only [List.cons.injEq, and_true, ← UInt8.toNat_inj, UInt8.reduceToNat]
      omega
    · cases h
  · rintro rfl; decide

/-! ### How a call ends early -/

inductive StdException where
  | badAlloc
  | badArrayNewLength
  | outOfRange
  | rangeError
  | exception
  deriving DecidableEq, Repr

/-- The ways a call does not return. -/
inductive Stop where
  /-- An `assert` is false: the process aborts. -/
  | assertion
  /-- An exception leaves the call. -/
  | threw (e : StdException)
  /-- An access outside of an object: undefined behaviour. -/
  | outOfBounds
  deriving DecidableEq, Repr

section Except

variable {ε α β : Type}

@[simp] theorem ok_bind (a : α) (f : α → Except ε β) : (Except.ok a >>= f) = f a := rfl

@[simp] theorem error_bind (e : ε) (f : α → Except ε β) :
    ((Except.error e : Except ε α) >>= f) = .error e := rfl

@[simp] theorem pure_eq_ok (a : α) : (pure a : Except ε α) = .ok a := rfl

@[simp] theorem throw_eq_error (e : ε) : (throw e : Except ε α) = .error e := rfl

theorem bind_eq_ok {x : Except ε α} {f : α → Except ε β} {b : β} :
    (x >>= f) = .ok b ↔ ∃ a, x = .ok a ∧ f a = .ok b := by
  cases x <;> simp

theorem bind_eq_error {x : Except ε α} {f : α → Except ε β} {e : ε} :
    (x >>= f) = .error e ↔ x = .error e ∨ ∃ a, x = .ok a ∧ f a = .error e := by
  cases x <;> simp

end Except

/-- `assert(p)` with assertions enabled. -/
def assert (p : Prop) [Decidable p] : Except Stop Unit :=
  if p then .ok () else .error .assertion

@[simp] theorem assert_eq_ok {p : Prop} [Decidable p] {u : Unit} : assert p = .ok u ↔ p := by
  unfold assert; split <;> simp_all

theorem assert_of {p : Prop} [Decidable p] (h : p) : assert p = .ok () := if_pos h

theorem assert_of_not {p : Prop} [Decidable p] (h : ¬ p) : assert p = .error .assertion := if_neg h

/-! ### Memory -/

/-- The answers of the allocator: a request fails, or yields an object of the size asked for whose
bytes may be anything. -/
structure Heap where
  alloc : Nat → Option Bytes
  alloc_length : ∀ n b, alloc n = some b → b.length = n

def Heap.zeroed : Heap := ⟨fun n => some (List.replicate n 0), fun n b h => by
  cases h; exact List.length_replicate ..⟩

/-- `new char[n]`. -/
def newChars (heap : Heap) (n : Int) : Except Stop Bytes :=
  if n < 0 then .error (.threw .badArrayNewLength)
  else match heap.alloc n.toNat with
    | none => .error (.threw .badAlloc)
    | some b => .ok b

/-- `memcpy(dst + i, src + j, n)`. -/
def memcpy (dst : Bytes) (i : Nat) (src : Bytes) (j n : Nat) : Except Stop Bytes :=
  if i + n ≤ dst.length ∧ j + n ≤ src.length then
    .ok (dst.take i ++ (src.drop j).take n ++ dst.drop (i + n))
  else .error .outOfBounds

/-- `std::string(p)` of a pointer to the start of `b`: the bytes before the first NUL. -/
def cString (b : Bytes) : Except Stop Bytes :=
  if 0 ∈ b then .ok (b.takeWhile (· ≠ 0)) else .error .outOfBounds

theorem newChars_eq_ok {heap : Heap} {n : Int} {b : Bytes} :
    newChars heap n = .ok b ↔ 0 ≤ n ∧ heap.alloc n.toNat = some b := by
  unfold newChars
  split
  · simp; omega
  · split <;> simp_all

theorem newChars_length {heap : Heap} {n : Int} {b : Bytes} (h : newChars heap n = .ok b) :
    (b.length : Int) = n := by
  obtain ⟨h₀, ha⟩ := newChars_eq_ok.1 h
  rw [heap.alloc_length _ _ ha]; omega

theorem memcpy_eq_ok {dst src b : Bytes} {i j n : Nat} : memcpy dst i src j n = .ok b ↔
    (i + n ≤ dst.length ∧ j + n ≤ src.length) ∧
      b = dst.take i ++ (src.drop j).take n ++ dst.drop (i + n) := by
  unfold memcpy
  split
  next h => simp [h, eq_comm]
  next h => simp only [h, false_and, reduceCtorEq]

theorem memcpy_of_le {dst src : Bytes} {i j n : Nat} (hd : i + n ≤ dst.length)
    (hs : j + n ≤ src.length) :
    memcpy dst i src j n = .ok (dst.take i ++ (src.drop j).take n ++ dst.drop (i + n)) :=
  if_pos ⟨hd, hs⟩

theorem memcpy_start {dst src : Bytes} {n : Nat} (hd : n ≤ dst.length) (hs : n ≤ src.length) :
    memcpy dst 0 src 0 n = .ok (src.take n ++ dst.drop n) := by
  rw [memcpy_of_le (by omega) (by omega)]; simp

theorem memcpy_behind {a d src : Bytes} {i n : Nat} (hi : a.length = i) (hn : n ≤ d.length)
    (hs : n ≤ src.length) :
    memcpy (a ++ d) i src 0 n = .ok (a ++ (src.take n ++ d.drop n)) := by
  subst hi
  rw [memcpy_of_le (by simpa using hn) (by omega)]; simp

theorem memcpy_end {a d src : Bytes} {i n : Nat} (hi : a.length = i) (hn : d.length = n)
    (hs : n ≤ src.length) : memcpy (a ++ d) i src 0 n = .ok (a ++ src.take n) := by
  rw [memcpy_behind hi hn.ge hs, List.drop_of_length_le hn.le, List.append_nil]

theorem memcpy_overrun {dst src : Bytes} {i j n : Nat} (h : dst.length < i + n) :
    memcpy dst i src j n = .error .outOfBounds := if_neg (by omega)

theorem memcpy_eq_error {dst src : Bytes} {i j n : Nat} {s : Stop}
    (h : memcpy dst i src j n = .error s) : s = .outOfBounds := by
  unfold memcpy at h; split at h <;> simp_all

theorem memcpy_length {dst src b : Bytes} {i j n : Nat} (h : memcpy dst i src j n = .ok b) :
    b.length = dst.length := by
  obtain ⟨⟨hd, hs⟩, rfl⟩ := memcpy_eq_ok.1 h
  simp; omega

theorem cString_of_mem {b : Bytes} (h : 0 ∈ b) : cString b = .ok (b.takeWhile (· ≠ 0)) := if_pos h

theorem cString_eq_error {b : Bytes} {s : Stop} (h : cString b = .error s) : s = .outOfBounds := by
  unfold cString at h; split at h <;> simp_all

theorem cString_append_zeros {b rest : Bytes} {n : Nat} (h : 0 < n) :
    cString (b ++ (List.replicate n 0 ++ rest)) = .ok (b.takeWhile (· ≠ 0)) := by
  obtain ⟨n, rfl⟩ : ∃ k, n = k + 1 := ⟨n - 1, by omega⟩
  rw [List.replicate_succ, cString_of_mem (by simp), Except.ok.injEq, List.takeWhile_append]
  split
  next hlen => rw [List.cons_append, List.takeWhile_cons_of_neg (by simp), List.append_nil,
    (List.takeWhile_prefix _).eq_of_length hlen]
  next => rfl

/-! ### Strings -/

/-- `s.substr(pos, n)`. -/
def substr (s : Bytes) (pos n : Nat) : Except StdException Bytes :=
  if pos ≤ s.length then .ok ((s.drop pos).take n) else .error .outOfRange

theorem substr_of_le {s : Bytes} {pos : Nat} (h : pos ≤ s.length) (n : Nat) :
    substr s pos n = .ok ((s.drop pos).take n) := if_pos h

theorem substr_append (s t : Bytes) {n : Nat} (h : t.length ≤ n) :
    substr (s ++ t) s.length n = .ok t := by
  rw [substr_of_le (by simp), List.drop_left, List.take_of_length_le h]

/-- `std::string::npos`. -/
def npos : Nat := 2 ^ 64 - 1

/-- Every `std::string` is shorter than `npos`. -/
abbrev StdString := { s : Bytes // s.length < npos }

/-- The first index from `pos` on of a byte with the property `p`. -/
def findFrom (p : UInt8 → Bool) (s : Bytes) (pos : Nat) : Nat :=
  match (s.drop pos).findIdx? p with
  | some i => pos + i
  | none => npos

/-- `s.find_first_of(d, pos)`. -/
def findFirstOf (s d : Bytes) (pos : Nat) : Nat := findFrom (· ∈ d) s pos

/-- `s.find_first_not_of(d, pos)`. -/
def findFirstNotOf (s d : Bytes) (pos : Nat) : Nat := findFrom (· ∉ d) s pos

section Find

variable {p : UInt8 → Bool} {s pre lead rest : Bytes}

theorem findFrom_npos (h : s.length < npos) : findFrom p s npos = npos := by
  rw [findFrom, List.drop_of_length_le (Nat.le_of_lt h)]
  rfl

theorem findFrom_none (h : ∀ c ∈ rest, p c = false) : findFrom p (pre ++ rest) pre.length = npos := by
  rw [findFrom, List.drop_left, List.findIdx?_eq_none_iff.2 h]

theorem findFrom_some {c : UInt8} (hlead : ∀ c ∈ lead, p c = false) (hc : p c) :
    findFrom p (pre ++ (lead ++ c :: rest)) pre.length = pre.length + lead.length := by
  have hfind : (lead ++ c :: rest).findIdx? p = some lead.length := by
    rw [List.findIdx?_append, List.findIdx?_eq_none_iff.2 hlead, List.findIdx?_cons, if_pos hc]
    simp
  rw [findFrom, List.drop_left, hfind]

end Find

end Cpp
