import CoffeeChat.Lib.CText

/-!
# Input streams

A `std::istream` over a finite input: what is left of it and the two flags that extraction sets.
`getline` into an array of `n` bytes fails when the array fills before the delimiter or when nothing
is left, and `>>` when only blanks are left; on a stream with a flag set nothing is extracted. A line
that fits is extracted whole (`extractLine_line`).
-/

namespace Cpp

structure Istream where
  rest : Bytes
  eofbit : Bool
  failbit : Bool
  deriving DecidableEq, Repr

namespace Istream

def ofBytes (input : Bytes) : Istream := ⟨input, false, false⟩

def good (is : Istream) : Bool := !is.eofbit && !is.failbit

/-- The characters up to the delimiter, and the stream behind them; `room` bytes of the array are
free. -/
def extractLine (delim : UInt8) : Nat → Bytes → Bytes × Istream
  | _, [] => ([], ⟨[], true, false⟩)
  | room, c :: rest =>
    if c = delim then ([], ⟨rest, false, false⟩)
    else if room = 0 then ([], ⟨c :: rest, false, true⟩)
    else
      let (line, is) := extractLine delim (room - 1) rest
      (c :: line, is)

/-- `is.getline(s, n, delim)`: what is stored before the terminating NUL. -/
def getline (is : Istream) (n : Nat) (delim : UInt8) : Bytes × Istream :=
  if is.good then
    if is.rest = [] then ([], ⟨[], true, true⟩) else extractLine delim (n - 1) is.rest
  else ([], { is with failbit := true })

/-- `is >> str`. -/
def extract (is : Istream) (str : Bytes) : Bytes × Istream :=
  if is.good then
    match extractWord is.rest with
    | some (word, rest) => (word, ⟨rest, rest = [], false⟩)
    | none => (str, ⟨[], true, true⟩)
  else (str, { is with failbit := true })

end Istream

/-! ### Lines -/

/-- The lines of an input; bytes behind the last delimiter are one, too. -/
def linesOf (delim : UInt8) : Bytes → List Bytes
  | [] => []
  | c :: s =>
    if c = delim then [] :: linesOf delim s
    else
      match linesOf delim s with
      | [] => [[c]]
      | line :: lines => (c :: line) :: lines

section Lines

variable {delim : UInt8} {line s rest : Bytes} {lines : List Bytes} {n : Nat}

theorem linesOf_append (h : delim ∉ line) :
    linesOf delim (line ++ delim :: rest) = line :: linesOf delim rest := by
  induction line with
  | nil => rw [List.nil_append, linesOf, if_pos rfl]
  | cons c line ih =>
    obtain ⟨hc, hline⟩ := not_or.1 (mt List.mem_cons.2 h)
    rw [List.cons_append, linesOf, if_neg (Ne.symm hc), ih hline]

theorem linesOf_of_not_mem (h : delim ∉ line) (hne : line ≠ []) : linesOf delim line = [line] := by
  induction line with
  | nil => exact absurd rfl hne
  | cons c line ih =>
    obtain ⟨hc, hline⟩ := not_or.1 (mt List.mem_cons.2 h)
    rw [linesOf, if_neg (Ne.symm hc)]
    by_cases hnil : line = []
    · rw [hnil, linesOf]
    · rw [ih hline hnil]

/-- The first line of an input is its end or stands before a delimiter. -/
theorem linesOf_eq_cons (h : linesOf delim s = line :: lines) : delim ∉ line ∧
    ((s = line ∧ line ≠ [] ∧ lines = []) ∨
      ∃ rest, s = line ++ delim :: rest ∧ linesOf delim rest = lines) := by
  by_cases hmem : delim ∈ s
  · obtain ⟨w, rest, rfl, hw⟩ := List.eq_append_cons_of_mem hmem
    rw [linesOf_append hw] at h
    cases h
    exact ⟨hw, .inr ⟨rest, rfl, rfl⟩⟩
  · have hne : s ≠ [] := by
      rintro rfl
      cases h
    rw [linesOf_of_not_mem hmem hne] at h
    cases h
    exact ⟨hmem, .inl ⟨rfl, hne, rfl⟩⟩

theorem linesOf_eq_nil (h : linesOf delim s = []) : s = [] := by
  cases s with
  | nil => rfl
  | cons c s =>
    rw [linesOf] at h
    split at h
    · cases h
    · split at h <;> cases h

end Lines

namespace Istream

section Getline

variable {delim : UInt8} {line rest : Bytes} {n room : Nat}

theorem extractLine_line (h : delim ∉ line) (hroom : line.length ≤ room) :
    extractLine delim room (line ++ delim :: rest) = (line, ⟨rest, false, false⟩) := by
  induction line generalizing room with
  | nil => rw [List.nil_append, extractLine, if_pos rfl]
  | cons c line ih =>
    obtain ⟨hc, hline⟩ := not_or.1 (mt List.mem_cons.2 h)
    rw [List.length_cons] at hroom
    rw [List.cons_append, extractLine, if_neg (Ne.symm hc), if_neg (by omega), ih hline (by omega)]

theorem extractLine_end (h : delim ∉ line) (hroom : line.length ≤ room) :
    extractLine delim room line = (line, ⟨[], true, false⟩) := by
  induction line generalizing room with
  | nil => rw [extractLine]
  | cons c line ih =>
    obtain ⟨hc, hline⟩ := not_or.1 (mt List.mem_cons.2 h)
    rw [List.length_cons] at hroom
    rw [extractLine, if_neg (Ne.symm hc), if_neg (by omega), ih hline (by omega)]

theorem extractLine_full (h : delim ∉ line) (hroom : room < line.length) :
    (extractLine delim room (line ++ rest)).1 = line.take room ∧
      (extractLine delim room (line ++ rest)).2.failbit = true := by
  induction line generalizing room with
  | nil => cases hroom
  | cons c line ih =>
    obtain ⟨hc, hline⟩ := not_or.1 (mt List.mem_cons.2 h)
    rw [List.cons_append, extractLine, if_neg (Ne.symm hc)]
    by_cases hzero : room = 0
    · subst hzero
      exact ⟨rfl, rfl⟩
    · rw [List.length_cons] at hroom
      obtain ⟨hline, hfail⟩ := ih hline (show room - 1 < line.length by omega)
      rw [if_neg hzero]
      refine ⟨?_, hfail⟩
      obtain ⟨room, rfl⟩ := Nat.exists_eq_succ_of_ne_zero hzero
      exact congrArg (c :: ·) hline

theorem getline_of_good (hne : rest ≠ []) :
    (ofBytes rest).getline n delim = extractLine delim (n - 1) rest := by
  have hgood : (ofBytes rest).good = true := rfl
  rw [getline, if_pos hgood]
  exact if_neg hne

@[simp] theorem getline_nil : (ofBytes []).getline n delim = ([], ⟨[], true, true⟩) := rfl

theorem getline_of_not_good {is : Istream} (h : is.good = false) :
    is.getline n delim = ([], { is with failbit := true }) := by
  rw [getline, h]
  rfl

end Getline

/-- What `getline` makes of the first line of an input: as much as the array holds is stored. Behind a
line that fits the stream is good, unless it was the last one and without a delimiter; behind a longer
one it has failed. -/
theorem getline_first {delim : UInt8} {line s : Bytes} {lines : List Bytes} {n : Nat} (hn : 0 < n)
    (h : linesOf delim s = line :: lines) :
    ((ofBytes s).getline n delim).1 = line.take (n - 1) ∧
      ((line.length < n ∧ ∃ rest eof, ((ofBytes s).getline n delim).2 = ⟨rest, eof, false⟩ ∧
        linesOf delim rest = lines ∧ (eof = true → lines = [])) ∨
      (n ≤ line.length ∧ ((ofBytes s).getline n delim).2.failbit = true)) := by
  have hne : s ≠ [] := by
    rintro rfl
    cases h
  obtain ⟨hmem, hcases⟩ := linesOf_eq_cons h
  rw [getline_of_good hne]
  rcases Nat.lt_or_ge line.length n with hfit | hlong
  · rw [List.take_of_length_le (show line.length ≤ n - 1 by omega)]
    rcases hcases with ⟨rfl, -, rfl⟩ | ⟨rest, rfl, rfl⟩
    · rw [extractLine_end hmem (by omega)]
      exact ⟨rfl, .inl ⟨hfit, [], true, rfl, rfl, fun _ => rfl⟩⟩
    · rw [extractLine_line hmem (by omega)]
      exact ⟨rfl, .inl ⟨hfit, rest, false, rfl, rfl, nofun⟩⟩
  · rcases hcases with ⟨rfl, -, -⟩ | ⟨rest, rfl, -⟩
    · obtain ⟨hstored, hfail⟩ := @extractLine_full delim s [] (n - 1) hmem (by omega)
      rw [List.append_nil] at hstored hfail
      exact ⟨hstored, .inr ⟨hlong, hfail⟩⟩
    · obtain ⟨hstored, hfail⟩ := @extractLine_full delim line (delim :: rest) (n - 1) hmem (by omega)
      exact ⟨hstored, .inr ⟨hlong, hfail⟩⟩

end Istream
end Cpp
