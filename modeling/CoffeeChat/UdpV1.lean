import CoffeeChat.UdpChat

/-!
# v1: the tokenizer and the input loop's pass

`split` of the first version finds its tokens with `find_first_of` and `find_first_not_of`, both of
which may return `npos`; it finds the maximal runs of bytes outside of the delimiters
(`split_eq_runs`), like the stream loop that replaced it (`split_runs`).

The pass of `main` asks for two tokens only, but takes the text from behind a second blank. So it
throws exactly for a line that is an address, one blank and a port (`passes_iff`).
-/

namespace CoffeeChat.V1
open Cpp

/-! ### The tokenizer -/

/-- The loop of `split`; none where it is still running after `fuel` tests. -/
def splitLoop : Nat → Bytes → Bytes → Nat → Nat → List Bytes →
    Except StdException (Option (List Bytes))
  | 0, _, _, _, _, _ => return none
  | fuel + 1, s, delimiters, lastPos, pos, tokens =>
    if npos ≠ pos ∨ npos ≠ lastPos then do
      let token ← substr s lastPos (sizeT (pos - lastPos))
      let lastPos := findFirstNotOf s delimiters pos
      let pos := findFirstOf s delimiters lastPos
      splitLoop fuel s delimiters lastPos pos (tokens ++ [token])
    else return some tokens

def split (s : Bytes) (tokens : List Bytes) (delimiters : Bytes) :
    Except StdException (Option (List Bytes)) :=
  let lastPos := findFirstNotOf s delimiters 0
  let pos := findFirstOf s delimiters lastPos
  splitLoop (s.length + 1) s delimiters lastPos pos tokens

section Positions

variable {s pre lead w rest d : Bytes}

theorem findFirstNotOf_of_cut (h : Cut (· ∉ d) s lead w rest) (pre : Bytes) :
    findFirstNotOf (pre ++ s) d pre.length = pre.length + lead.length := by
  obtain ⟨c, w, rfl⟩ := List.exists_cons_of_ne_nil h.ne_nil
  rw [h.eq, List.cons_append]
  exact findFrom_some h.lead_blank (h.run c (by simp))

theorem findFirstOf_word (hw : ∀ c ∈ w, (c ∉ d : Bool)) (hrest : StopsAt (· ∉ d) rest) (pre : Bytes) :
    findFirstOf (pre ++ (w ++ rest)) d pre.length =
      if rest = [] then npos else pre.length + w.length := by
  have hnot : ∀ c ∈ w, (decide (c ∈ d)) = false := by simpa using hw
  cases rest with
  | nil =>
    rw [List.append_nil, if_pos rfl]
    exact findFrom_none hnot
  | cons c t =>
    rw [if_neg (List.cons_ne_nil _ _)]
    exact findFrom_some hnot (by simpa using hrest c t rfl)

/-- The length of a token, which wraps around when no delimiter follows. -/
theorem substr_token (hs : (pre ++ (w ++ rest)).length < npos) :
    substr (pre ++ (w ++ rest)) pre.length
      (sizeT ((if rest = [] then npos else pre.length + w.length : Nat) - pre.length)) = .ok w := by
  rw [substr_of_le (by simp), List.drop_left]
  by_cases hrest : rest = []
  · subst hrest
    rw [if_pos rfl, List.append_nil, List.take_of_length_le]
    simp only [List.append_nil, List.length_append, npos] at hs
    simp only [sizeT, npos]
    omega
  · rw [if_neg hrest]
    have hlen : sizeT ((pre.length + w.length : Nat) - pre.length) = w.length := by
      simp only [List.length_append, npos] at hs
      simp only [sizeT]
      omega
    rw [hlen, List.take_left]

/-- Behind the last token the search for the next one gets `npos`, as good as the end of the string. -/
theorem findFirstNotOf_restart (hs : (pre ++ rest).length < npos) :
    findFirstNotOf (pre ++ rest) d (if rest = [] then npos else pre.length) =
      findFirstNotOf (pre ++ rest) d pre.length := by
  by_cases hrest : rest = []
  · subst hrest
    have hend : findFirstNotOf (pre ++ []) d pre.length = npos :=
      findFrom_none fun _ h => absurd h List.not_mem_nil
    rw [if_pos rfl, hend]
    exact findFrom_npos hs
  · rw [if_neg hrest]

end Positions

theorem splitLoop_eq {s d : Bytes} (hs : s.length < npos) {fuel : Nat} {pre rest : Bytes}
    (hpre : s = pre ++ rest) (hfuel : rest.length < fuel) (tokens : List Bytes) :
    splitLoop fuel s d (findFirstNotOf s d pre.length) (findFirstOf s d (findFirstNotOf s d pre.length))
      tokens = .ok (some (tokens ++ runs (· ∉ d) rest)) := by
  induction fuel generalizing pre rest tokens with
  | zero => omega
  | succ fuel ih =>
    rw [splitLoop]
    rcases cut_or_blank (· ∉ d) rest with ⟨lead, w, rest', hcut⟩ | hblank
    · have hword : s = pre ++ lead ++ (w ++ rest') := by rw [hpre, hcut.eq, List.append_assoc]
      have hnext : s = (pre ++ lead ++ w) ++ rest' := by rw [hword, ← List.append_assoc]
      have hlast : findFirstNotOf s d pre.length = (pre ++ lead).length := by
        rw [hpre, findFirstNotOf_of_cut hcut, List.length_append]
      have hpos := findFirstOf_word hcut.run hcut.stops (pre ++ lead)
      rw [← hword] at hpos
      have hlt : (pre ++ lead).length < npos := by
        rw [hword, List.length_append] at hs
        omega
      rw [hlast, hpos, if_pos (.inr (Nat.ne_of_gt hlt))]
      have htoken := substr_token (hword ▸ hs)
      rw [← hword] at htoken
      rw [htoken, ok_bind]
      have hrestart := @findFirstNotOf_restart (pre ++ lead ++ w) rest' d (hnext ▸ hs)
      rw [← hnext, List.length_append] at hrestart
      have hlen := hcut.rest_length_lt
      show splitLoop fuel s d (findFirstNotOf s d _) _ _ = _
      rw [hrestart, ← List.length_append, ih hnext (by omega), hcut.runs_eq, List.append_assoc]
      rfl
    · have hlast : findFirstNotOf s d pre.length = npos := by
        rw [hpre]
        exact findFrom_none hblank
      rw [hlast, findFirstOf, findFrom_npos hs, runs_eq_nil.2 hblank, List.append_nil]
      rfl

theorem split_eq_runs {s : Bytes} (hs : s.length < npos) (tokens : List Bytes) (d : Bytes) :
    split s tokens d = .ok (some (tokens ++ runs (· ∉ d) s)) :=
  splitLoop_eq hs (List.nil_append s).symm (Nat.lt_succ_self _) tokens

/-- `split` of v1 ends, calls `substr` inside of the string only, and appends the maximal runs of
bytes that are no delimiters; for the delimiter `" "` and a string whose only whitespace is that
blank the later `split` appends the same. -/
theorem split_runs (s : StdString) (tokens : List Bytes) (d : Bytes) :
    split s.1 tokens d = .ok (some (tokens ++ runs (· ∉ d) s.1)) ∧
      ((∀ c ∈ s.1, isspace c → c = 32) →
        split s.1 tokens [32] = .ok (some (CoffeeChat.split s.1 tokens [32]))) := by
  refine ⟨split_eq_runs s.2 tokens d, fun hspace => ?_⟩
  have hsame : runs (· ∉ ([32] : Bytes)) s.1 = runs (!isspace ·) s.1 := by
    refine runs_congr fun c hc => ?_
    by_cases h : c = 32
    · subst h; rfl
    · have hnot : isspace c = false := by
        rw [← Bool.not_eq_true]
        exact fun hblank => h (hspace c hc hblank)
      simp [h, hnot]
  rw [split_eq_runs s.2, hsame, CoffeeChat.split, wordsOf_eq_runs]

/-! ### The pass of `main` -/

/-- One pass of the loop of `main`; none where `split` has not ended. -/
def handleLine (input : Bytes) : Except StdException (Option Pass) :=
  if input = literal "exit" then return some .exit
  else do
    match ← split input [] [32] with
    | none => return none
    | some (ip :: port :: _) =>
      let remotePort := atoi port
      if remotePort ≤ 0 ∨ remotePort ≥ kUint16Max then return some .badPort
      else
        let dest : SockAddrIn := ⟨htons remotePort, inetAddr ip⟩
        let text ← substr input (ip.length + port.length + 2) input.length
        return some (.send dest text)
    | some _ => return some .badFormat

/-- The pass reports an error and sends nothing, or sends a suffix of the line. -/
def Passes (line : Bytes) : Prop :=
  handleLine line = .ok (some .badFormat) ∨ handleLine line = .ok (some .badPort) ∨
    ∃ dest text, handleLine line = .ok (some (.send dest text)) ∧ text <:+ line

/-- An address, one blank and an accepted port, and nothing else. -/
def BareAddress (line : Bytes) : Prop :=
  ∃ ip port, line = ip ++ 32 :: port ∧ ip ≠ [] ∧ 32 ∉ ip ∧ port ≠ [] ∧ 32 ∉ port ∧
    0 < atoi port ∧ atoi port < kUint16Max

section Pass

variable {line ip port : Bytes} {ws : List Bytes}

theorem handleLine_of_tokens (hlen : line.length < npos) (hexit : line ≠ literal "exit")
    (htokens : runs (· ∉ ([32] : Bytes)) line = ip :: port :: ws) :
    handleLine line =
      if atoi port ≤ 0 ∨ atoi port ≥ kUint16Max then .ok (some .badPort)
      else (substr line (ip.length + port.length + 2) line.length).map fun text =>
        some (.send ⟨htons (atoi port), inetAddr ip⟩ text) := by
  rw [handleLine, if_neg hexit, split_eq_runs hlen, ok_bind, List.nil_append, htokens]
  show (if atoi port ≤ 0 ∨ atoi port ≥ kUint16Max then _ else _) = _
  split
  · rfl
  · cases substr line (ip.length + port.length + 2) line.length <;> rfl

theorem handleLine_of_few (hlen : line.length < npos) (hexit : line ≠ literal "exit")
    (hfew : ∀ ip port ws, runs (· ∉ ([32] : Bytes)) line ≠ ip :: port :: ws) :
    handleLine line = .ok (some .badFormat) := by
  rw [handleLine, if_neg hexit, split_eq_runs hlen, ok_bind, List.nil_append]
  match h : runs (· ∉ ([32] : Bytes)) line with
  | [] => rfl
  | [_] => rfl
  | ip :: port :: ws => exact absurd h (hfew ip port ws)

theorem handleLine_eq_exit : handleLine line = .ok (some .exit) ↔ line = literal "exit" := by
  constructor
  · intro h
    by_contra hexit
    rw [handleLine, if_neg hexit] at h
    obtain ⟨tokens, -, h⟩ := bind_eq_ok.1 h
    split at h
    · cases h
    · dsimp only at h
      split at h
      · cases h
      · obtain ⟨text, -, h⟩ := bind_eq_ok.1 h
        cases h
    · cases h
  · intro hexit
    rw [handleLine, if_pos hexit]
    rfl

theorem runs_address (hip : ip ≠ []) (hip' : 32 ∉ ip) (hport : port ≠ []) (hport' : 32 ∉ port) :
    runs (· ∉ ([32] : Bytes)) (ip ++ 32 :: port) = [ip, port] := by
  have hword : ∀ {w : Bytes}, 32 ∉ w → ∀ c ∈ w, (c ∉ ([32] : Bytes) : Bool) := by
    intro w hw c hc
    have hne : c ≠ 32 := fun h => hw (h ▸ hc)
    simpa using hne
  have hstop : StopsAt (· ∉ ([32] : Bytes)) (32 :: port) := by
    rintro _ _ ⟨⟩
    simp
  have hend : StopsAt (· ∉ ([32] : Bytes)) [] := by
    intro _ _ h
    cases h
  have hlast := runs_append hport (hword hport') hend
  rw [List.append_nil, runs_nil] at hlast
  rw [runs_append hip (hword hip') hstop, runs_cons_of_not (by simp), hlast]

/-- Of the lines with an accepted port a bare address is the one that is too short. -/
theorem bareAddress_iff_length (htokens : runs (· ∉ ([32] : Bytes)) line = ip :: port :: ws)
    (hpos : 0 < atoi port) (hmax : atoi port < kUint16Max) :
    BareAddress line ↔ line.length < ip.length + port.length + 2 := by
  constructor
  · rintro ⟨ip', port', rfl, hip, hip', hport, hport', _⟩
    rw [runs_address hip hip' hport hport'] at htokens
    cases htokens
    simp only [List.length_append, List.length_cons]
    omega
  · intro hshort
    obtain ⟨lead, rest, hcut, hrest⟩ := runs_eq_cons.1 htokens
    obtain ⟨gap, tail, hcut', -⟩ := runs_eq_cons.1 hrest
    have hgap := List.length_pos_iff.2 (hcut.gap_ne_nil hcut')
    have hline : line = lead ++ (ip ++ (gap ++ (port ++ tail))) := by rw [hcut.eq, hcut'.eq]
    have hlength := congrArg List.length hline
    simp only [List.length_append] at hlength
    have hlead : lead = [] := List.length_eq_zero_iff.1 (by omega)
    have htail : tail = [] := List.length_eq_zero_iff.1 (by omega)
    obtain ⟨c, rfl⟩ := List.length_eq_one_iff.1 (show gap.length = 1 by omega)
    have hc : c = 32 := by simpa using hcut'.lead_blank c (by simp)
    have hblank : ∀ {w : Bytes}, (∀ b ∈ w, (b ∉ ([32] : Bytes) : Bool)) → 32 ∉ w := by
      intro w hw hmem
      simpa using hw 32 hmem
    subst hc hlead htail
    refine ⟨ip, port, ?_, hcut.ne_nil, hblank hcut.run, hcut'.ne_nil, hblank hcut'.run, hpos, hmax⟩
    simpa using hline

end Pass

/-- The pass throws for the bare addresses and for no other line. -/
theorem handleLine_cases {line : Bytes} (hlen : line.length < npos) (hexit : line ≠ literal "exit") :
    (BareAddress line ∧ handleLine line = .error .outOfRange) ∨ (¬ BareAddress line ∧ Passes line) := by
  by_cases htwo : ∃ ip port ws, runs (· ∉ ([32] : Bytes)) line = ip :: port :: ws
  · obtain ⟨ip, port, ws, htokens⟩ := htwo
    have hpass := handleLine_of_tokens hlen hexit htokens
    by_cases hbad : atoi port ≤ 0 ∨ atoi port ≥ kUint16Max
    · rw [if_pos hbad] at hpass
      refine .inr ⟨?_, .inr (.inl hpass)⟩
      rintro ⟨ip', port', rfl, hip, hip', hport, hport', hpos, hmax⟩
      rw [runs_address hip hip' hport hport'] at htokens
      cases htokens
      rcases hbad with h | h
      · exact absurd hpos (not_lt.2 h)
      · exact absurd hmax (not_lt.2 h)
    · rw [if_neg hbad] at hpass
      have hgood := not_or.1 hbad
      have hbare := bareAddress_iff_length htokens (not_le.1 hgood.1) (not_le.1 hgood.2)
      by_cases hle : ip.length + port.length + 2 ≤ line.length
      · rw [substr_of_le hle, List.take_of_length_le (by simp)] at hpass
        refine .inr ⟨?_, .inr (.inr ⟨_, _, hpass, List.drop_suffix _ _⟩)⟩
        rw [hbare]
        exact not_lt.2 hle
      · rw [substr, if_neg hle] at hpass
        exact .inl ⟨hbare.2 (not_le.1 hle), hpass⟩
  · have hfew : ∀ ip port ws, runs (· ∉ ([32] : Bytes)) line ≠ ip :: port :: ws :=
      fun ip port ws h => htwo ⟨ip, port, ws, h⟩
    refine .inr ⟨?_, .inl (handleLine_of_few hlen hexit hfew)⟩
    rintro ⟨ip, port, rfl, hip, hip', hport, hport', _⟩
    exact hfew ip port [] (runs_address hip hip' hport hport')

theorem not_passes_of_error {line : Bytes} {e : StdException} (h : handleLine line = .error e) :
    ¬ Passes line := by
  rw [Passes, h]
  rintro (h | h | ⟨_, _, h, -⟩) <;> cases h

/-- Of the lines that `getline` stores only a bare address throws. -/
theorem passes_iff {line : Bytes} (hlen : line.length ≤ 199) (hexit : line ≠ literal "exit") :
    Passes line ↔ ¬ BareAddress line := by
  have hnpos : line.length < npos := Nat.lt_of_le_of_lt hlen (by decide)
  rcases handleLine_cases hnpos hexit with ⟨hbare, hthrows⟩ | ⟨hbare, hpasses⟩
  · exact iff_of_false (not_passes_of_error hthrows) (not_not.2 hbare)
  · exact iff_of_true hpasses hbare

theorem passes_hi : (literal "1.2.3.4 5000 hi").length ≤ 199 ∧
    (Passes (literal "1.2.3.4 5000 hi") ↔ ¬ BareAddress (literal "1.2.3.4 5000 hi")) :=
  ⟨by decide +kernel, passes_iff (by decide +kernel) (by decide +kernel)⟩

/-- The shortest line that the check of the token count lets through. -/
theorem not_passes_address : ¬ ∀ line : Bytes, 0 ∉ line → line.length ≤ 199 → line ≠ literal "exit" →
    Passes line := by
  intro h
  have hthrows : handleLine (literal "1.2.3.4 5000") = .error .outOfRange := by decide +kernel
  refine not_passes_of_error hthrows (h _ ?_ ?_ ?_) <;> decide +kernel

end CoffeeChat.V1
