import CoffeeChat.JsonSerializer
import Mathlib.Data.List.Induction

/-!
# What `dump_escaped` writes

`Reading` ties the state of the loop to the part of a code point that has been read and to the text
of the code points before it; each turn keeps it. From it follow that the buffer is never overrun,
what the strict handler accepts and what it reports, and what the other two handlers make of invalid
strings (`Mends`).
-/

namespace CoffeeChat.Json
open Cpp Utf8 WeChatApi

/-- The code points whose bytes are written as they are. -/
def Copied (ensureAscii : Bool) (codepoint : Nat) : Prop :=
  0x20 ≤ codepoint ∧ codepoint ≠ 0x22 ∧ codepoint ≠ 0x5C ∧ (ensureAscii = true → codepoint < 0x7F)

instance (ensureAscii : Bool) (codepoint : Nat) : Decidable (Copied ensureAscii codepoint) :=
  inferInstanceAs (Decidable (_ ∧ _))

/-- The text of one code point in a JSON string. -/
def escapeChar (ensureAscii : Bool) (c : Char) : Bytes :=
  if Copied ensureAscii c.toNat then String.utf8EncodeChar c else (escapeChunk ensureAscii c.val 0).text

variable {ensureAscii : Bool}

theorem length_hex4 (n : Nat) : (hex4 n).length = 4 := rfl

/-- A code point is copied, or its chunk is the same whatever its last byte, and short. -/
theorem escapeChunk_cases (ensureAscii : Bool) (cp : UInt32) :
    Copied ensureAscii cp.toNat ∧ (∀ b, escapeChunk ensureAscii cp b = .chars [b]) ∨
    ¬ Copied ensureAscii cp.toNat ∧ ∃ chunk, (∀ b, escapeChunk ensureAscii cp b = chunk) ∧
      chunk.touched ≤ 13 ∧ (ensureAscii = false → chunk.touched ≤ 7) := by
  unfold escapeChunk
  split
  iterate 7
    next h => exact .inr ⟨by simp [h, Copied], _, fun _ => rfl, by simp [Chunk.chars], by simp [Chunk.chars]⟩
  next h₈ h₉ h₁₀ h₁₂ h₁₃ hquote hslash =>
    by_cases hescape : cp.toNat ≤ 0x1F ∨ ensureAscii = true ∧ 0x7F ≤ cp.toNat
    · have hnot : ¬ Copied ensureAscii cp.toNat := by
        rintro ⟨hge, -, -, hlt⟩
        rcases hescape with hle | ⟨hmode, hge'⟩
        · omega
        · exact absurd (hlt hmode) (by omega)
      refine .inr ⟨hnot, _, fun _ => if_pos hescape, ?_, fun hmode => ?_⟩
      · split <;> simp [Chunk.snprintf, length_hex4]
      · -- without `ensure_ascii` only control characters are written as numbers
        have hle : cp.toNat ≤ 0xFFFF := by
          rcases hescape with hle | ⟨hmode', -⟩
          · omega
          · rw [hmode] at hmode'
            cases hmode'
        simp [if_pos hle, Chunk.snprintf, length_hex4]
    · refine .inl ⟨⟨by omega, hquote, hslash, fun hmode => ?_⟩, fun _ => if_neg hescape⟩
      by_contra hge
      exact hescape (.inr ⟨hmode, by omega⟩)

theorem escapeChunk_of_copied {cp : UInt32} (h : Copied ensureAscii cp.toNat) (b : UInt8) :
    escapeChunk ensureAscii cp b = .chars [b] := by
  rcases escapeChunk_cases ensureAscii cp with ⟨-, hchunk⟩ | ⟨hnot, -⟩
  · exact hchunk b
  · exact absurd h hnot

theorem escapeChunk_of_not_copied {cp : UInt32} (h : ¬ Copied ensureAscii cp.toNat) (b b' : UInt8) :
    escapeChunk ensureAscii cp b = escapeChunk ensureAscii cp b' := by
  rcases escapeChunk_cases ensureAscii cp with ⟨hcopied, -⟩ | ⟨-, chunk, hchunk, -⟩
  · exact absurd hcopied h
  · rw [hchunk, hchunk]

/-- Together with the bytes that are in the buffer already, a chunk fits into the 13 bytes left. -/
theorem touched_escapeChunk (ensureAscii : Bool) (cp : UInt32) (b : UInt8) :
    (if ensureAscii then 0 else 3) + (escapeChunk ensureAscii cp b).touched ≤ 13 := by
  rcases escapeChunk_cases ensureAscii cp with ⟨-, hchunk⟩ | ⟨-, chunk, hchunk, htouched, hshort⟩
  · rw [hchunk]
    cases ensureAscii <;> simp [Chunk.chars]
  · rw [hchunk]
    cases ensureAscii with
    | false => exact Nat.add_le_add_left (hshort rfl |>.trans (by decide : 7 ≤ 10)) 3
    | true => simpa using htouched

/-! ### The invariant of the loop -/

/-- `part` has been read of the current code point and `owed` is left of it; `done` is the text of
what came before. Without `ensure_ascii` the bytes of `part` are in the buffer already. -/
structure Reading (ensureAscii : Bool) (part : Bytes) (owed : List Range) (done : Bytes) (st : Escaping) :
    Prop where
  within : Within part owed
  state : owedOf st.state = some owed
  code : part ≠ [] → st.codepoint.toNat = codeOf part % 2 ^ 32
  undumped : st.undumpedChars = part.length
  kept : ∃ pre, st.buffer = pre ++ (if ensureAscii then [] else part) ∧
    pre.length = st.bytesAfterLastAccept ∧ st.out ++ pre = done
  room : st.bytesAfterLastAccept + 13 ≤ bufferSize

theorem Reading.start (ensureAscii : Bool) : Reading ensureAscii [] [] [] .start where
  within := .between
  state := rfl
  code := fun h => absurd rfl h
  undumped := rfl
  kept := ⟨[], by cases ensureAscii <;> rfl, rfl, rfl⟩
  room := by decide

variable {part done : Bytes} {owed : List Range} {st : Escaping} {b : UInt8}

theorem Reading.length_buffer (h : Reading ensureAscii part owed done st) :
    st.buffer.length ≤ st.bytesAfterLastAccept + (if ensureAscii then 0 else 3) := by
  obtain ⟨pre, hbuf, hpre, -⟩ := h.kept
  have hpart := h.within.length_le
  rw [hbuf, List.length_append, hpre]
  cases ensureAscii with
  | false => simpa using hpart
  | true => simp

theorem Reading.take_buffer (h : Reading ensureAscii part owed done st) :
    st.out ++ st.buffer.take st.bytesAfterLastAccept = done := by
  obtain ⟨pre, hbuf, hpre, hdone⟩ := h.kept
  rw [hbuf, ← hpre, List.take_left, hdone]

theorem put_eq_ok {c : Chunk} (h : st.buffer.length + c.touched ≤ bufferSize) :
    st.put c = .ok { st with buffer := st.buffer ++ c.text } := if_pos h

theorem flush_spec (st : Escaping) : st.flush.out ++ st.flush.buffer = st.out ++ st.buffer ∧
    st.flush.buffer.length + 13 ≤ bufferSize ∧ st.flush.state = st.state := by
  unfold Escaping.flush
  split_ifs with hfull
  · exact ⟨List.append_nil _, by simp [bufferSize], rfl⟩
  · refine ⟨rfl, ?_, rfl⟩
    unfold bufferSize at *
    omega

/-- The state and the code point after one more byte. -/
theorem Reading.decode (h : Reading ensureAscii part owed done st) {owed' : List Range}
    (hafter : after b owed = some owed') :
    owedOf (decode st.state st.codepoint b).1 = some owed' ∧
      (decode st.state st.codepoint b).2.toNat = codeOf (part ++ [b]) % 2 ^ 32 := by
  refine ⟨(owedOf_nextState h.state).trans hafter, ?_⟩
  by_cases hpart : part = []
  · have howed := h.within.eq_nil.1 hpart
    subst hpart howed
    have hstate := owedOf_eq_nil.1 h.state
    rw [hstate, codepoint_lead hafter]
    have hlt : leadBits b < 256 := by
      have := b.toNat_lt
      unfold leadBits
      split_ifs <;> omega
    exact (Nat.mod_eq_of_lt (by omega)).symm
  · have hne : st.state ≠ UTF8_ACCEPT := fun hstate =>
      hpart (h.within.eq_nil.2 (Option.some.inj (h.state.symm.trans (owedOf_eq_nil.2 hstate))))
    rw [codepoint_tail hne, codeOf_concat hpart, h.code hpart]
    omega

theorem lt_of_not_copied {n : Nat} (h : ¬ Copied false n) : n < 0x80 := by
  by_contra hge
  exact h ⟨by omega, by omega, by omega, by simp⟩

theorem eq_nil_of_ascii {c : Char} (hc : String.utf8EncodeChar c = part ++ [b]) (h : c.toNat < 0x80) :
    part = [] := by
  rw [utf8EncodeChar_ascii h] at hc
  cases part with
  | nil => rfl
  | cons _ _ => simp at hc

/-- The last byte of a code point: what stands before it in the buffer and what is added for it make
up its text. -/
theorem pre_append_text {c : Char} (hc : String.utf8EncodeChar c = part ++ [b]) :
    (if ensureAscii then [] else part) ++ (escapeChunk ensureAscii c.val b).text =
      escapeChar ensureAscii c := by
  by_cases hcopied : Copied ensureAscii c.toNat
  · rw [escapeChunk_of_copied hcopied, escapeChar, if_pos hcopied, hc]
    split_ifs with hmode
    · have hlt := hcopied.2.2.2 hmode
      rw [eq_nil_of_ascii hc (by omega)]
      rfl
    · rfl
  · rw [escapeChunk_of_not_copied hcopied b 0, escapeChar, if_neg hcopied]
    cases ensureAscii with
    | false => rw [eq_nil_of_ascii hc (lt_of_not_copied hcopied)]; rfl
    | true => rfl

/-- The byte that ends a code point. -/
theorem turn_accept (h : Reading ensureAscii part owed done st) (hafter : after b owed = some [])
    (handler : ErrorHandler) (i : Nat) : ∃ c st', String.utf8EncodeChar c = part ++ [b] ∧
      turn handler ensureAscii i b st = .ok (st', false) ∧
      Reading ensureAscii [] [] (done ++ escapeChar ensureAscii c) st' := by
  obtain ⟨c, hc⟩ := (h.within.after hafter).encodes
  obtain ⟨hstate, hcode⟩ := h.decode hafter
  have hcp : (Json.decode st.state st.codepoint b).2 = c.val := by
    rw [← UInt32.toNat_inj, hcode, ← hc, codeOf_utf8EncodeChar]
    exact Nat.mod_eq_of_lt c.val.toNat_lt
  have hacc := owedOf_eq_nil.1 hstate
  obtain ⟨pre, hbuf, hpre, hdone⟩ := h.kept
  have htouched : st.buffer.length + (escapeChunk ensureAscii c.val b).touched ≤ bufferSize := by
    have hlen := h.length_buffer
    have hroom := h.room
    have htouched := touched_escapeChunk ensureAscii c.val b
    omega
  let st₁ : Escaping := { st with state := (Json.decode st.state st.codepoint b).1, codepoint := c.val }
  let st₂ : Escaping := { st₁ with buffer := st.buffer ++ (escapeChunk ensureAscii c.val b).text }
  obtain ⟨hout, hroom, hflush⟩ := flush_spec st₂
  refine ⟨c, { st₂.flush with bytesAfterLastAccept := st₂.flush.buffer.length, undumpedChars := 0 }, hc, ?_, ?_⟩
  · have hput : st₁.put (escapeChunk ensureAscii c.val b) = .ok st₂ := put_eq_ok htouched
    simp only [turn, hcp, if_pos hacc, accepted]
    change (st₁.put (escapeChunk ensureAscii c.val b) >>= _) >>= _ = _
    rw [hput]
    rfl
  · refine ⟨.between, ?_, fun h => absurd rfl h, rfl, ⟨st₂.flush.buffer, ?_, rfl, ?_⟩, hroom⟩
    · change owedOf st₂.flush.state = _
      rw [hflush]
      exact hstate
    · cases ensureAscii <;> exact (List.append_nil _).symm
    · change st₂.flush.out ++ st₂.flush.buffer = _
      rw [hout, ← hdone, ← pre_append_text hc]
      change st.out ++ (st.buffer ++ _) = _
      rw [hbuf]
      simp only [List.append_assoc]

theorem turn_unfinished {r : Range} {rs : List Range} (h : Reading ensureAscii part owed done st)
    (hafter : after b owed = some (r :: rs)) (handler : ErrorHandler) (i : Nat) :
    ∃ st', turn handler ensureAscii i b st = .ok (st', false) ∧
      Reading ensureAscii (part ++ [b]) (r :: rs) done st' := by
  obtain ⟨hstate, hcode⟩ := h.decode hafter
  have hwithin : Within (part ++ [b]) (r :: rs) := .inside (h.within.after hafter)
  have hacc : (Json.decode st.state st.codepoint b).1 ≠ UTF8_ACCEPT := by
    intro heq
    rw [owedOf_eq_nil.2 heq] at hstate
    cases hstate
  have hrej : (Json.decode st.state st.codepoint b).1 ≠ UTF8_REJECT := by
    intro heq
    rw [heq] at hstate
    cases hstate
  obtain ⟨pre, hbuf, hpre, hdone⟩ := h.kept
  have hund : st.undumpedChars + 1 = (part ++ [b]).length := by
    rw [h.undumped, List.length_append, List.length_singleton]
  simp only [turn, if_neg hacc, if_neg hrej, unfinished]
  cases ensureAscii with
  | true => exact ⟨_, rfl, hwithin, hstate, fun _ => hcode, hund, ⟨pre, hbuf, hpre, hdone⟩, h.room⟩
  | false =>
    have hlen := h.length_buffer
    have hroom := h.room
    simp only [Bool.false_eq_true, if_false] at hlen ⊢
    rw [put_eq_ok (by simp only [Chunk.chars, List.length_singleton]; omega)]
    refine ⟨_, rfl, hwithin, hstate, fun _ => hcode, hund, ⟨pre, ?_, hpre, hdone⟩, h.room⟩
    simp only [hbuf, Chunk.chars, Bool.false_eq_true, if_false, List.append_assoc]

/-- What the handlers put for bytes that are no code point. -/
def substitute (handler : ErrorHandler) : List Char :=
  if handler = .replace then [Char.ofNat 0xFFFD] else []

theorem Reading.reject (h : Reading ensureAscii part owed done st) (hafter : after b owed = none) :
    (Json.decode st.state st.codepoint b).1 = UTF8_REJECT := by
  have hnone := (owedOf_nextState h.state).trans hafter
  have hlt := nextState_lt (b := b) (toNat_of_owedOf h.state).1
  have hone : (nextState st.state b).toNat = 1 := by
    rcases owedOf_eq_none.1 hnone with hone | hge
    · exact hone
    · omega
  exact UInt8.toNat_inj.1 hone

theorem turn_strict (h : Reading ensureAscii part owed done st) (hafter : after b owed = none) (i : Nat) :
    turn .strict ensureAscii i b st = .error (invalidByte i b) := by
  have hrej := h.reject hafter
  have hacc : UTF8_REJECT ≠ UTF8_ACCEPT := by decide
  simp only [turn, hrej, if_neg hacc, if_true, throw_eq_error]

theorem text_replacementChunk : (replacementChunk ensureAscii).text =
    escapeChar ensureAscii (Char.ofNat 0xFFFD) := by
  cases ensureAscii <;> decide

/-- Taking back the unfinished code point, and putting the replacement for it. -/
theorem rejected_spec (handler : ErrorHandler) (hbuf : st.out ++ st.buffer.take st.bytesAfterLastAccept = done)
    (hlen : st.bytesAfterLastAccept ≤ st.buffer.length) (hroom : st.bytesAfterLastAccept + 13 ≤ bufferSize) :
    ∃ st', rejected handler ensureAscii st = .ok st' ∧
      Reading ensureAscii [] [] (done ++ (substitute handler).flatMap (escapeChar ensureAscii)) st' := by
  let st₁ : Escaping := { st with buffer := st.buffer.take st.bytesAfterLastAccept }
  have htake : st₁.buffer.length = st.bytesAfterLastAccept := List.length_take_of_le hlen
  by_cases hreplace : handler = .replace
  · let st₂ : Escaping := { st₁ with buffer := st₁.buffer ++ (replacementChunk ensureAscii).text }
    obtain ⟨hout, hroom', -⟩ := flush_spec st₂
    have hput : st₁.put (replacementChunk ensureAscii) = .ok st₂ := by
      refine put_eq_ok ?_
      have htouched : (replacementChunk ensureAscii).touched ≤ 6 := by cases ensureAscii <;> decide
      omega
    have hsub : (substitute handler).flatMap (escapeChar ensureAscii) = (replacementChunk ensureAscii).text := by
      rw [substitute, if_pos hreplace, List.flatMap_singleton, text_replacementChunk]
    let st₃ : Escaping := { st₂.flush with bytesAfterLastAccept := st₂.flush.buffer.length }
    refine ⟨{ st₃ with undumpedChars := 0, state := UTF8_ACCEPT }, ?_, .between, rfl,
      fun h => absurd rfl h, rfl, ⟨st₂.flush.buffer, ?_, rfl, ?_⟩, hroom'⟩
    · simp only [rejected, substituted, if_pos hreplace]
      change (st₁.put (replacementChunk ensureAscii) >>= _) >>= _ = _
      rw [hput]
      rfl
    · cases ensureAscii <;> exact (List.append_nil _).symm
    · change st₂.flush.out ++ st₂.flush.buffer = _
      rw [hout, hsub, ← hbuf]
      simp only [st₂, st₁, List.append_assoc]
  · refine ⟨{ st₁ with undumpedChars := 0, state := UTF8_ACCEPT }, ?_, .between, rfl,
      fun h => absurd rfl h, rfl, ⟨st₁.buffer, ?_, htake, ?_⟩, hroom⟩
    · simp only [rejected, substituted, if_neg hreplace]
      rfl
    · cases ensureAscii <;> exact (List.append_nil _).symm
    · rw [substitute, if_neg hreplace, List.flatMap_nil, List.append_nil]
      exact hbuf

theorem turn_lenient {handler : ErrorHandler} (hne : handler ≠ .strict)
    (h : Reading ensureAscii part owed done st) (hafter : after b owed = none) (i : Nat) :
    ∃ st', turn handler ensureAscii i b st = .ok (st', decide (part ≠ [])) ∧
      Reading ensureAscii [] [] (done ++ (substitute handler).flatMap (escapeChar ensureAscii)) st' := by
  have hrej := h.reject hafter
  have hacc : UTF8_REJECT ≠ UTF8_ACCEPT := by decide
  let st₁ : Escaping := { st with state := UTF8_REJECT, codepoint := (Json.decode st.state st.codepoint b).2 }
  have hlen : st₁.bytesAfterLastAccept ≤ st₁.buffer.length := by
    obtain ⟨pre, hbuf, hpre, -⟩ := h.kept
    change st.bytesAfterLastAccept ≤ st.buffer.length
    rw [hbuf, List.length_append]
    omega
  have htake : st₁.out ++ st₁.buffer.take st₁.bytesAfterLastAccept = done := h.take_buffer
  obtain ⟨st', hst', hreading⟩ := rejected_spec handler htake hlen h.room
  have hagain : 0 < st.undumpedChars ↔ part ≠ [] := by rw [h.undumped, List.length_pos_iff]
  refine ⟨st', ?_, hreading⟩
  simp only [turn, hrej, if_neg hacc, if_true, if_neg hne, hagain]
  change rejected handler ensureAscii st₁ >>= _ = _
  rw [hst']
  rfl

/-! ### The loop -/

section Loop

variable {handler : ErrorHandler} {i : Nat} {s : Bytes} {st' : Escaping}

theorem dumpLoop_nil : dumpLoop handler ensureAscii i [] st = .ok st := by rw [dumpLoop]

theorem dumpLoop_next (h : turn handler ensureAscii i b st = .ok (st', false)) :
    dumpLoop handler ensureAscii i (b :: s) st = dumpLoop handler ensureAscii (i + 1) s st' := by
  rw [dumpLoop]
  split <;> simp_all

theorem dumpLoop_again (h : turn handler ensureAscii i b st = .ok (st', true)) :
    dumpLoop handler ensureAscii i (b :: s) st = dumpLoop handler ensureAscii i (b :: s) st' := by
  rw [dumpLoop]
  split <;> simp_all

theorem dumpLoop_error {e : Fault} (h : turn handler ensureAscii i b st = .error e) :
    dumpLoop handler ensureAscii i (b :: s) st = .error e := by
  rw [dumpLoop]
  split <;> simp_all

/-- As long as every byte can stand where it does, the text of the code points is written. -/
theorem dumpLoop_of_read (handler : ErrorHandler) (i : Nat) {owed' : List Range} (h : Reading ensureAscii part owed done st)
    (hread : read owed s = some owed') : ∃ cs part' st', part ++ s = encode cs ++ part' ∧
      dumpLoop handler ensureAscii i s st = .ok st' ∧
      Reading ensureAscii part' owed' (done ++ cs.flatMap (escapeChar ensureAscii)) st' := by
  induction s generalizing part owed done st i with
  | nil =>
    cases hread
    exact ⟨[], part, st, List.append_nil _, dumpLoop_nil, by rwa [List.flatMap_nil, List.append_nil]⟩
  | cons b s ih =>
    obtain ⟨owed₁, hafter, hread⟩ := Option.bind_eq_some_iff.1 hread
    cases owed₁ with
    | nil =>
      obtain ⟨c, st₁, hc, hturn, hreading⟩ := turn_accept h hafter handler i
      obtain ⟨cs, part', st', hs, hloop, hreading⟩ := ih (i + 1) hreading hread
      refine ⟨c :: cs, part', st', ?_, (dumpLoop_next hturn).trans hloop, ?_⟩
      · rw [encode_cons, hc, List.append_assoc, ← hs]
        simp
      · rwa [List.flatMap_cons, ← List.append_assoc]
    | cons r rs =>
      obtain ⟨st₁, hturn, hreading⟩ := turn_unfinished h hafter handler i
      obtain ⟨cs, part', st', hs, hloop, hreading⟩ := ih (i + 1) hreading hread
      refine ⟨cs, part', st', ?_, (dumpLoop_next hturn).trans hloop, hreading⟩
      rw [← hs]
      simp

/-- The strict handler throws at the first byte that cannot stand where it does. -/
theorem dumpLoop_strict_of_read {owed' : List Range} {s' : Bytes} (h : Reading ensureAscii part owed done st)
    (hread : read owed s = some owed') (hafter : after b owed' = none) :
    dumpLoop .strict ensureAscii i (s ++ b :: s') st = .error (invalidByte (i + s.length) b) := by
  induction s generalizing part owed done st i with
  | nil =>
    cases hread
    exact dumpLoop_error (turn_strict h hafter i)
  | cons b₁ s ih =>
    obtain ⟨owed₁, hafter₁, hread⟩ := Option.bind_eq_some_iff.1 hread
    have hindex : i + (b₁ :: s).length = i + 1 + s.length := by
      rw [List.length_cons]
      omega
    rw [hindex]
    cases owed₁ with
    | nil =>
      obtain ⟨c, st₁, -, hturn, hreading⟩ := turn_accept h hafter₁ .strict i
      exact (dumpLoop_next hturn).trans (ih hreading hread)
    | cons r rs =>
      obtain ⟨st₁, hturn, hreading⟩ := turn_unfinished h hafter₁ .strict i
      exact (dumpLoop_next hturn).trans (ih hreading hread)

end Loop

/-! ### The strict handler -/

theorem finish_of_reading {handler : ErrorHandler} (s : Bytes) (h : Reading ensureAscii [] [] done st) :
    finish handler ensureAscii s st = .ok done := by
  obtain ⟨pre, hbuf, -, hdone⟩ := h.kept
  have hpre : st.buffer = pre := by
    rw [hbuf]
    cases ensureAscii <;> exact List.append_nil _
  rw [finish.eq_def, if_pos (owedOf_eq_nil.1 h.state), hpre, hdone]
  rfl

/-- Whatever the handler, a valid string is written as the escapes of its code points. -/
theorem dumpEscaped_encode (handler : ErrorHandler) (cs : List Char) :
    dumpEscaped handler ensureAscii (encode cs) = .ok (cs.flatMap (escapeChar ensureAscii)) := by
  have hread : read [] (encode cs) = some [] := valid_iff_read.1 ⟨cs, rfl⟩
  obtain ⟨cs', part', st', hs, hloop, hreading⟩ :=
    dumpLoop_of_read handler 0 (Reading.start ensureAscii) hread
  cases hreading.within.eq_nil.2 rfl
  have hcs : cs = cs' := by
    rw [List.nil_append, List.append_nil] at hs
    have hdecode := decode_encode cs
    rw [hs, decode_encode] at hdecode
    exact (Option.some.inj hdecode).symm
  subst hcs
  rw [dumpEscaped, hloop, ok_bind, finish_of_reading _ hreading]
  rfl

theorem dumpEscaped_strict_incomplete {s : Bytes} (hext : Extends s) (hvalid : ¬ Valid s) :
    dumpEscaped .strict ensureAscii s = .error (incomplete (s.getLastD 0)) := by
  obtain ⟨owed, hread⟩ := extends_iff_read.1 hext
  obtain ⟨cs, part, st, -, hloop, hreading⟩ :=
    dumpLoop_of_read .strict 0 (Reading.start ensureAscii) hread
  have hne : st.state ≠ UTF8_ACCEPT := by
    intro hstate
    have howed := Option.some.inj (hreading.state.symm.trans (owedOf_eq_nil.2 hstate))
    rw [howed] at hread
    exact hvalid (valid_iff_read.2 hread)
  rw [dumpEscaped, hloop, ok_bind, finish, if_neg hne]
  rfl

theorem dumpEscaped_strict_invalid {s s' : Bytes} (hext : Extends s) (hnot : ¬ Extends (s ++ [b])) :
    dumpEscaped .strict ensureAscii (s ++ b :: s') = .error (invalidByte s.length b) := by
  obtain ⟨owed, hread⟩ := extends_iff_read.1 hext
  have hafter : after b owed = none := by
    rw [extends_iff_read, read_append hread, read_cons] at hnot
    cases hafter : after b owed with
    | none => rfl
    | some owed' => exact absurd ⟨owed', by rw [hafter]; rfl⟩ hnot
  have hloop : dumpLoop .strict ensureAscii 0 (s ++ b :: s') .start = .error (invalidByte (0 + s.length) b) :=
    dumpLoop_strict_of_read (Reading.start ensureAscii) hread hafter
  rw [dumpEscaped, hloop, Nat.zero_add]
  rfl

/-- The first byte that cannot stand where it does, if there is one. -/
theorem exists_refused {s : Bytes} (h : ¬ Extends s) :
    ∃ s₁ b s₂, s = s₁ ++ b :: s₂ ∧ Extends s₁ ∧ ¬ Extends (s₁ ++ [b]) := by
  induction s using List.reverseRecOn with
  | nil => exact absurd ⟨[], Valid.nil⟩ h
  | append_singleton s b ih =>
    by_cases hs : Extends s
    · exact ⟨s, b, [], rfl, hs, h⟩
    · obtain ⟨s₁, b₁, s₂, rfl, h₁, h₂⟩ := ih hs
      exact ⟨s₁, b₁, s₂ ++ [b], by simp, h₁, h₂⟩

/-! ### The other handlers -/

/-- `part` begins a code point and does not end it. -/
def Unfinished (part : Bytes) : Prop :=
  part ≠ [] ∧ ∃ c rest, rest ≠ [] ∧ String.utf8EncodeChar c = part ++ rest

/-- A byte string as code points, with `sub` for each longest part that begins a code point without
ending it, and for each byte that begins none. -/
inductive Mends (sub : List Char) : Bytes → List Char → Prop where
  | nil : Mends sub [] []
  | char {s : Bytes} {cs : List Char} (c : Char) : Mends sub s cs →
      Mends sub (String.utf8EncodeChar c ++ s) (c :: cs)
  | stray {s : Bytes} {cs : List Char} {b : UInt8} : (∀ c, ¬ [b] <+: String.utf8EncodeChar c) →
      Mends sub s cs → Mends sub (b :: s) (sub ++ cs)
  | broken {part s : Bytes} {cs : List Char} {b : UInt8} : Unfinished part →
      (∀ c, ¬ part ++ [b] <+: String.utf8EncodeChar c) → Mends sub (b :: s) cs →
      Mends sub (part ++ b :: s) (sub ++ cs)
  | cut {part : Bytes} : Unfinished part → Mends sub part sub

theorem unfinished_of_within (h : Within part owed) (hne : part ≠ []) : Unfinished part := by
  rcases h with _ | ⟨h⟩
  · exact absurd rfl hne
  · exact ⟨hne, h.exists_rest⟩

section Lenient

variable {handler : ErrorHandler} {i : Nat} {s : Bytes}

/-- The rest of the loop and what follows it. -/
def Dumps (handler : ErrorHandler) (ensureAscii : Bool) (i : Nat) (s : Bytes) (st : Escaping)
    (text : Bytes) : Prop :=
  ∃ st', dumpLoop handler ensureAscii i s st = .ok st' ∧
    ∀ s₀, finish handler ensureAscii s₀ st' = .ok text

theorem Dumps.next {st' : Escaping} {text : Bytes} (hturn : turn handler ensureAscii i b st = .ok (st', false))
    (h : Dumps handler ensureAscii (i + 1) s st' text) : Dumps handler ensureAscii i (b :: s) st text := by
  obtain ⟨st₁, hloop, hfinish⟩ := h
  exact ⟨st₁, (dumpLoop_next hturn).trans hloop, hfinish⟩

theorem Dumps.again {st' : Escaping} {text : Bytes} (hturn : turn handler ensureAscii i b st = .ok (st', true))
    (h : Dumps handler ensureAscii i (b :: s) st' text) : Dumps handler ensureAscii i (b :: s) st text := by
  obtain ⟨st₁, hloop, hfinish⟩ := h
  exact ⟨st₁, (dumpLoop_again hturn).trans hloop, hfinish⟩

/-- The end of the string, inside of a code point or not. -/
theorem exists_dumps_nil (hne : handler ≠ .strict) (h : Reading ensureAscii part owed done st) :
    ∃ cs, Mends (substitute handler) part cs ∧
      Dumps handler ensureAscii i [] st (done ++ cs.flatMap (escapeChar ensureAscii)) := by
  by_cases hpart : part = []
  · cases h.within.eq_nil.1 hpart
    subst hpart
    refine ⟨[], .nil, st, dumpLoop_nil, fun s₀ => ?_⟩
    rw [List.flatMap_nil, List.append_nil, finish_of_reading s₀ h]
  · refine ⟨substitute handler, .cut (unfinished_of_within h.within hpart), st, dumpLoop_nil, fun s₀ => ?_⟩
    have hstate : st.state ≠ UTF8_ACCEPT := fun hstate =>
      hpart (h.within.eq_nil.2 (Option.some.inj (h.state.symm.trans (owedOf_eq_nil.2 hstate))))
    rw [finish.eq_def, if_neg hstate]
    cases handler with
    | strict => exact absurd rfl hne
    | ignore => simp only [h.take_buffer, substitute, reduceCtorEq, if_false, List.flatMap_nil, List.append_nil,
        pure_eq_ok]
    | replace => simp only [h.take_buffer, substitute, if_true, List.flatMap_singleton, text_replacementChunk,
        pure_eq_ok]

/-- What holds of the rest of the string after every byte `b`: the loop ends, and what it adds to the
text is a mended version of what was unfinished and of the rest. -/
def Mended (handler : ErrorHandler) (ensureAscii : Bool) (s : Bytes) : Prop :=
  ∀ part owed done st i, Reading ensureAscii part owed done st →
    ∃ cs, Mends (substitute handler) (part ++ s) cs ∧
      Dumps handler ensureAscii i s st (done ++ cs.flatMap (escapeChar ensureAscii))

/-- A byte that can stand where it does. -/
theorem Mended.step (h : Mended handler ensureAscii s) (hreading : Reading ensureAscii part owed done st)
    {owed' : List Range} (hafter : after b owed = some owed') (i : Nat) :
    ∃ cs, Mends (substitute handler) (part ++ b :: s) cs ∧
      Dumps handler ensureAscii i (b :: s) st (done ++ cs.flatMap (escapeChar ensureAscii)) := by
  cases owed' with
  | nil =>
    obtain ⟨c, st', hc, hturn, hreading'⟩ := turn_accept hreading hafter handler i
    obtain ⟨cs, hmends, hdumps⟩ := h _ _ _ _ (i + 1) hreading'
    refine ⟨c :: cs, ?_, .next hturn ?_⟩
    · have hs : part ++ b :: s = String.utf8EncodeChar c ++ s := by simp [hc]
      rw [hs]
      exact .char c hmends
    · rwa [List.flatMap_cons, ← List.append_assoc]
  | cons r rs =>
    obtain ⟨st', hturn, hreading'⟩ := turn_unfinished hreading hafter handler i
    obtain ⟨cs, hmends, hdumps⟩ := h _ _ _ _ (i + 1) hreading'
    refine ⟨cs, ?_, .next hturn hdumps⟩
    rwa [List.append_assoc, List.singleton_append] at hmends

/-- Between two code points every byte is settled at once. -/
theorem Mended.between (h : Mended handler ensureAscii s) (hne : handler ≠ .strict)
    (hreading : Reading ensureAscii [] [] done st) (b : UInt8) (i : Nat) :
    ∃ cs, Mends (substitute handler) (b :: s) cs ∧
      Dumps handler ensureAscii i (b :: s) st (done ++ cs.flatMap (escapeChar ensureAscii)) := by
  cases hafter : after b [] with
  | some owed' => exact h.step hreading hafter i
  | none =>
    obtain ⟨st', hturn, hreading'⟩ := turn_lenient hne hreading hafter i
    obtain ⟨cs, hmends, hdumps⟩ := h _ _ _ _ (i + 1) hreading'
    refine ⟨substitute handler ++ cs, .stray (hreading.within.not_isPrefix hafter) hmends, .next hturn ?_⟩
    rwa [List.flatMap_append, ← List.append_assoc]

theorem mended (hne : handler ≠ .strict) (s : Bytes) : Mended handler ensureAscii s := by
  induction s with
  | nil =>
    intro part owed done st i h
    rw [List.append_nil]
    exact exists_dumps_nil hne h
  | cons b s ih =>
    intro part owed done st i h
    cases hafter : after b owed with
    | some owed' => exact ih.step h hafter i
    | none =>
      by_cases hpart : part = []
      · cases h.within.eq_nil.1 hpart
        subst hpart
        exact ih.between hne h b i
      · -- the code point breaks off at `b`, which is read again
        obtain ⟨st', hturn, hreading'⟩ := turn_lenient hne h hafter i
        rw [decide_eq_true hpart] at hturn
        obtain ⟨cs, hmends, hdumps⟩ := ih.between hne hreading' b i
        refine ⟨substitute handler ++ cs, .broken (unfinished_of_within h.within hpart)
          (h.within.not_isPrefix hafter) hmends, .again hturn ?_⟩
        rwa [List.flatMap_append, ← List.append_assoc]

end Lenient

theorem dumpEscaped_lenient (ensureAscii : Bool) {handler : ErrorHandler} (hne : handler ≠ .strict) (s : Bytes) :
    ∃ cs, Mends (substitute handler) s cs ∧
      dumpEscaped handler ensureAscii s = .ok (cs.flatMap (escapeChar ensureAscii)) := by
  obtain ⟨cs, hmends, st, hloop, hfinish⟩ := mended hne s [] [] [] .start 0 (Reading.start ensureAscii)
  exact ⟨cs, hmends, by rw [dumpEscaped, hloop, ok_bind, hfinish]; rfl⟩

/-! ### The strings of the robot's requests -/

theorem escapeByte_table : ∀ n < 128, escapeByte (UInt8.ofNat n) =
    if Copied false n then [UInt8.ofNat n] else (escapeChunk false (UInt32.ofNat n) 0).text := by
  decide +kernel

theorem escapeByte_of_le {b : UInt8} (h : 0x80 ≤ b.toNat) : escapeByte b = [b] := by
  have htable : ∀ n < 256, 0x80 ≤ n → escapeByte (UInt8.ofNat n) = [UInt8.ofNat n] := by decide +kernel
  have hb := htable _ b.toNat_lt h
  rwa [UInt8.ofNat_toNat] at hb

theorem flatMap_escapeByte {bs : Bytes} (h : ∀ b ∈ bs, 0x80 ≤ b.toNat) : bs.flatMap escapeByte = bs := by
  induction bs with
  | nil => rfl
  | cons b bs ih =>
    rw [List.flatMap_cons, escapeByte_of_le (h b List.mem_cons_self),
      ih fun b' hb' => h b' (List.mem_cons_of_mem _ hb')]
    rfl

/-- Without `ensure_ascii` a code point is escaped byte by byte. -/
theorem escapeChar_false (c : Char) : escapeChar false c = (String.utf8EncodeChar c).flatMap escapeByte := by
  by_cases hlt : c.toNat < 0x80
  · rw [utf8EncodeChar_ascii hlt, List.flatMap_singleton, escapeByte_table _ hlt, escapeChar,
      utf8EncodeChar_ascii hlt]
    congr 3
    exact (UInt32.ofNat_toNat (x := c.val)).symm
  · have hcopied : Copied false c.toNat := by
      by_contra hnot
      exact hlt (lt_of_not_copied hnot)
    rw [escapeChar, if_pos hcopied,
      flatMap_escapeByte fun b hb => le_of_mem_utf8EncodeChar (by omega) hb]

/-- The strict handler refuses what is not valid, without leaving the buffer. -/
theorem dumpEscaped_strict_refused {ensureAscii : Bool} {s : Bytes} (h : ¬ Valid s) :
    ∃ e, e ≠ .outOfBounds ∧ dumpEscaped .strict ensureAscii s = .error e := by
  by_cases hext : Extends s
  · exact ⟨incomplete (s.getLastD 0), by simp [incomplete], dumpEscaped_strict_incomplete hext h⟩
  · obtain ⟨s₁, b, s₂, rfl, h₁, h₂⟩ := exists_refused hext
    exact ⟨invalidByte s₁.length b, by simp [invalidByte], dumpEscaped_strict_invalid h₁ h₂⟩

/-- The strings of the robot's requests are those of `dump_escaped` with the defaults of `dump`. -/
theorem dumpString_eq_dumpEscaped (s : Bytes) :
    dumpString s = ((dumpEscaped .strict false s).map fun text => 34 :: text ++ [34]).mapError
      fun _ => Exception.typeError 316 := by
  by_cases hvalid : Valid s
  · obtain ⟨cs, rfl⟩ := hvalid
    have hflat : (encode cs).flatMap escapeByte = cs.flatMap (escapeChar false) := by
      rw [encode, List.flatMap_assoc]
      exact congrArg cs.flatMap (funext fun c => (escapeChar_false c).symm)
    rw [dumpString, if_pos ⟨cs, rfl⟩, dumpEscaped_encode, hflat]
    rfl
  · obtain ⟨e, -, he⟩ := @dumpEscaped_strict_refused false s hvalid
    rw [dumpString, if_neg hvalid, he]
    rfl

/-! ### The results -/

/-- The strict handler: a valid string is written as the escapes of its code points, a string that
ends inside of a code point and one with a byte that cannot stand where it does are refused, the
latter at the first such byte. -/
theorem dumpEscaped_strict (ensureAscii : Bool) (s : Bytes) :
    (∃ cs, encode cs = s ∧ dumpEscaped .strict ensureAscii s = .ok (cs.flatMap (escapeChar ensureAscii))) ∨
    (Extends s ∧ ¬ Valid s ∧ dumpEscaped .strict ensureAscii s = .error (incomplete (s.getLastD 0))) ∨
    ∃ s₁ b s₂, s = s₁ ++ b :: s₂ ∧ Extends s₁ ∧ ¬ Extends (s₁ ++ [b]) ∧
      dumpEscaped .strict ensureAscii s = .error (invalidByte s₁.length b) := by
  by_cases hext : Extends s
  · by_cases hvalid : Valid s
    · obtain ⟨cs, rfl⟩ := hvalid
      exact .inl ⟨cs, rfl, dumpEscaped_encode .strict cs⟩
    · exact .inr (.inl ⟨hext, hvalid, dumpEscaped_strict_incomplete hext hvalid⟩)
  · obtain ⟨s₁, b, s₂, rfl, h₁, h₂⟩ := exists_refused hext
    exact .inr (.inr ⟨s₁, b, s₂, rfl, h₁, h₂, dumpEscaped_strict_invalid h₁ h₂⟩)

/-- The other handlers never throw, and what they write is the text of a mended string; no handler
ever writes outside of the buffer. -/
theorem dumpEscaped_mended (ensureAscii : Bool) (s : Bytes) :
    (∀ handler, dumpEscaped handler ensureAscii s ≠ .error .outOfBounds) ∧
    ∀ handler, handler ≠ .strict → ∃ cs, Mends (substitute handler) s cs ∧
      dumpEscaped handler ensureAscii s = .ok (cs.flatMap (escapeChar ensureAscii)) := by
  refine ⟨fun handler => ?_, fun handler hne => dumpEscaped_lenient ensureAscii hne s⟩
  by_cases hne : handler = .strict
  · subst hne
    intro hfault
    by_cases hvalid : Valid s
    · obtain ⟨cs, rfl⟩ := hvalid
      rw [dumpEscaped_encode] at hfault
      cases hfault
    · obtain ⟨e, hinside, h⟩ := @dumpEscaped_strict_refused ensureAscii s hvalid
      rw [h] at hfault
      exact hinside (Except.error.inj hfault)
  · obtain ⟨cs, -, h⟩ := dumpEscaped_lenient ensureAscii hne s
    rw [h]
    simp

end CoffeeChat.Json
