import CoffeeChat.Lib.Istream
import CoffeeChat.UdpV1
import CoffeeChat.UdpLine

/-!
# The input loops

The loop of the chat's `main`, generic in the pass of a version, and the loop of the robot client, with
every send and receive succeeding. Neither tests the state of `std::cin`. A line too long for the array,
and the end of the input, leave the stream failed; from then on every `getline` stores the empty string
and every `>>` leaves the last word where it is, and the loops go on for ever
(`mainLoop_of_not_good`, `clientLoop_of_not_good`). `consumes_iff` says which inputs are consumed.
-/

namespace CoffeeChat
open Cpp

/-! ### The chat -/

/-- `sizeof(input)`. -/
def sizeofInput : Nat := 200

/-- `std::string(input)`: the bytes of a line before the first NUL. -/
def lineText (line : Bytes) : Bytes := line.takeWhile (· ≠ 0)

/-- The loop of `main` over a pass that may throw, or not end: the passes up to the one that leaves the
loop, and none where it has not been left after `fuel` rounds. -/
def mainLoop (pass : Bytes → Except StdException (Option Pass)) :
    Nat → Istream → Option (Except StdException (List Pass))
  | 0, _ => none
  | fuel + 1, cin =>
    let (input, cin) := cin.getline sizeofInput 10
    match pass (lineText input) with
    | .error e => some (.error e)
    | .ok none => none
    | .ok (some .exit) => some (.ok [.exit])
    | .ok (some p) => (mainLoop pass fuel cin).map fun passes => passes.map (p :: ·)

/-- The pass of v2 and v3. -/
def laterPass (input : Bytes) : Except StdException (Option Pass) := (handleLine input).map some

/-- The lines up to the first `exit`. -/
def upToExit : List Bytes → List Bytes
  | [] => []
  | line :: lines => if lineText line = literal "exit" then [line] else line :: upToExit lines

/-- The loop is left, and its passes are those of the lines up to the first `exit`, one for each, in
their order and by their own content. -/
def ConsumesLines (pass : Bytes → Except StdException (Option Pass)) (input : Bytes) : Prop :=
  ∃ fuel passes, mainLoop pass fuel (.ofBytes input) = some (.ok passes) ∧
    (upToExit (linesOf 10 input)).map (fun line => pass (lineText line)) =
      passes.map fun p => .ok (some p)

/-- A line is `exit`, and all before it have the property `P`. -/
def ExitReached (P : Bytes → Prop) (lines : List Bytes) : Prop :=
  ∃ pre line post, lines = pre ++ line :: post ∧ lineText line = literal "exit" ∧ ∀ l ∈ pre, P l

theorem exitReached_cons {P : Bytes → Prop} {line : Bytes} {lines : List Bytes} :
    ExitReached P (line :: lines) ↔ lineText line = literal "exit" ∨ (P line ∧ ExitReached P lines) := by
  constructor
  · rintro ⟨pre, l, post, heq, hexit, hpre⟩
    cases pre with
    | nil =>
      cases heq
      exact .inl hexit
    | cons a pre =>
      cases heq
      exact .inr ⟨hpre _ (by simp), pre, l, post, rfl, hexit, fun l hl => hpre l (List.mem_cons_of_mem _ hl)⟩
  · rintro (hexit | ⟨hline, pre, l, post, rfl, hexit, hpre⟩)
    · exact ⟨[], line, lines, rfl, hexit, by simp⟩
    · refine ⟨line :: pre, l, post, rfl, hexit, fun l hl => ?_⟩
      rcases List.mem_cons.1 hl with rfl | hl
      · exact hline
      · exact hpre l hl

theorem not_exitReached_nil {P : Bytes → Prop} : ¬ ExitReached P [] := by
  rintro ⟨pre, l, post, heq, -⟩
  simp at heq

/-- What the loop needs to know of a pass. -/
structure IsPass (pass : Bytes → Except StdException (Option Pass)) : Prop where
  exit : ∀ line, pass line = .ok (some .exit) ↔ line = literal "exit"
  empty : pass [] = .ok (some .badFormat)

section Loop

variable {pass : Bytes → Except StdException (Option Pass)} {line : Bytes} {lines : List Bytes}
  {cin : Istream}

theorem mainLoop_exit (hp : IsPass pass) {input : Bytes} (hline : (cin.getline sizeofInput 10).1 = input)
    (hexit : lineText input = literal "exit") (fuel : Nat) :
    mainLoop pass (fuel + 1) cin = some (.ok [.exit]) := by
  subst hline
  have hpass := (hp.exit _).2 hexit
  rw [mainLoop]
  simp only [hpass]

/-- A round that does not leave the loop for `exit`. -/
theorem mainLoop_round (hp : IsPass pass) {fuel : Nat} {input : Bytes} {cin' : Istream}
    (hline : cin.getline sizeofInput 10 = (input, cin')) (hexit : lineText input ≠ literal "exit")
    {passes : List Pass} : mainLoop pass (fuel + 1) cin = some (.ok passes) ↔
      ∃ p rest, pass (lineText input) = .ok (some p) ∧ mainLoop pass fuel cin' = some (.ok rest) ∧
        passes = p :: rest := by
  have hne := mt (hp.exit (lineText input)).1 hexit
  rw [mainLoop, hline]
  match hpass : pass (lineText input) with
  | .error e => simp [hpass]
  | .ok none => simp [hpass]
  | .ok (some .exit) => exact absurd hpass hne
  | .ok (some .badFormat) | .ok (some .badPort) | .ok (some (.send _ _)) =>
    simp only [hpass]
    match mainLoop pass fuel cin' with
    | none => simp
    | some (.error e) => simp [Except.map]
    | some (.ok rest) => simp [Except.map, eq_comm]

/-- Once the stream has failed the empty line comes for ever. -/
theorem mainLoop_of_not_good (hp : IsPass pass) (h : cin.good = false) (fuel : Nat) (passes : List Pass) :
    mainLoop pass fuel cin ≠ some (.ok passes) := by
  induction fuel generalizing cin passes with
  | zero => exact nofun
  | succ fuel ih =>
    rw [Ne, mainLoop_round hp (Istream.getline_of_not_good h) nil_ne_exit]
    rintro ⟨p, rest, -, hloop, -⟩
    exact ih (by simp [Istream.good]) rest hloop

/-- The first 199 bytes of a line say whether it is `exit`. -/
theorem lineText_stored_iff : lineText (line.take (sizeofInput - 1)) = literal "exit" ↔
    lineText line = literal "exit" := by
  have htake : lineText (line.take (sizeofInput - 1)) = (lineText line).take 199 := by
    rw [lineText, lineText, List.take_takeWhile]
    rfl
  rw [htake]
  constructor
  · intro h
    have hlen := congrArg List.length h
    rw [List.length_take, literal_exit, List.length_cons] at hlen
    have hfour : (lineText line).length = 4 := by
      simp only [List.length_cons, List.length_nil] at hlen
      omega
    rwa [List.take_of_length_le (by omega)] at h
  · intro h
    rw [h, literal_exit]
    rfl

/-- The property of a line before `exit` that lets the loop go on as it should. -/
def GoesOn (pass : Bytes → Except StdException (Option Pass)) (line : Bytes) : Prop :=
  line.length < sizeofInput ∧ ∃ p, pass (lineText line) = .ok (some p)

theorem mainLoop_of_exitReached (hp : IsPass pass) {s : Bytes} (hs : linesOf 10 s = lines)
    (h : ExitReached (GoesOn pass) lines) :
    ∃ fuel passes, mainLoop pass fuel (.ofBytes s) = some (.ok passes) ∧
      (upToExit lines).map (fun line => pass (lineText line)) = passes.map fun p => .ok (some p) := by
  induction lines generalizing s with
  | nil => exact absurd h not_exitReached_nil
  | cons line lines ih =>
    obtain ⟨hstored, hstream⟩ := Istream.getline_first (n := sizeofInput) (Nat.succ_pos _) hs
    by_cases hexit : lineText line = literal "exit"
    · refine ⟨1, [.exit], mainLoop_exit hp hstored (lineText_stored_iff.2 hexit) 0, ?_⟩
      rw [upToExit, if_pos hexit]
      exact congrArg ([·]) ((hp.exit _).2 hexit)
    · obtain ⟨⟨hfit, p, hpass⟩, hlines⟩ := (exitReached_cons.1 h).resolve_left hexit
      rcases hstream with ⟨-, rest, eof, hrest, hlines', heof⟩ | ⟨hlong, -⟩
      · have hgood : eof = false := by
          rw [← Bool.not_eq_true]
          intro htrue
          rw [heof htrue] at hlines
          exact not_exitReached_nil hlines
        subst hgood
        have hget : (Istream.ofBytes s).getline sizeofInput 10 = (line, .ofBytes rest) := by
          rw [List.take_of_length_le (Nat.le_sub_one_of_lt hfit)] at hstored
          exact Prod.ext hstored hrest
        obtain ⟨fuel, passes, hloop, htrace⟩ := ih hlines' hlines
        refine ⟨fuel + 1, p :: passes, ?_, ?_⟩
        · exact (mainLoop_round hp hget hexit).2 ⟨p, passes, hpass, hloop, rfl⟩
        · rw [upToExit, if_neg hexit, List.map_cons, hpass, htrace, List.map_cons]
      · exact absurd hfit (not_lt.2 hlong)

theorem exitReached_of_mainLoop (hp : IsPass pass) {fuel : Nat} {s : Bytes} {passes : List Pass}
    (h : mainLoop pass fuel (.ofBytes s) = some (.ok passes)) :
    ExitReached (GoesOn pass) (linesOf 10 s) := by
  induction fuel generalizing s passes with
  | zero => cases h
  | succ fuel ih =>
    cases hs : linesOf 10 s with
    | nil =>
      rw [linesOf_eq_nil hs, mainLoop_round hp Istream.getline_nil nil_ne_exit] at h
      obtain ⟨p, rest, -, hloop, -⟩ := h
      exact absurd hloop (mainLoop_of_not_good hp rfl fuel rest)
    | cons line lines =>
      obtain ⟨hstored, hstream⟩ := Istream.getline_first (n := sizeofInput) (Nat.succ_pos _) hs
      rw [exitReached_cons]
      by_cases hexit : lineText line = literal "exit"
      · exact .inl hexit
      have hexit' : lineText (line.take (sizeofInput - 1)) ≠ literal "exit" :=
        mt lineText_stored_iff.1 hexit
      have hget : (Istream.ofBytes s).getline sizeofInput 10 =
          (line.take (sizeofInput - 1), ((Istream.ofBytes s).getline sizeofInput 10).2) :=
        Prod.ext hstored rfl
      rw [mainLoop_round hp hget hexit'] at h
      obtain ⟨p, rest, hpass, hloop, -⟩ := h
      rcases hstream with ⟨hfit, rest', eof, hrest, hlines, -⟩ | ⟨-, hfail⟩
      · rw [List.take_of_length_le (Nat.le_sub_one_of_lt hfit)] at hpass
        rw [hrest] at hloop
        cases eof with
        | true => exact absurd hloop (mainLoop_of_not_good hp rfl fuel rest)
        | false =>
          refine .inr ⟨⟨hfit, p, hpass⟩, ?_⟩
          rw [← hlines]
          exact ih hloop
      · exact absurd hloop (mainLoop_of_not_good hp (by simp [Istream.good, hfail]) fuel rest)

theorem consumesLines_iff (hp : IsPass pass) (input : Bytes) :
    ConsumesLines pass input ↔ ExitReached (GoesOn pass) (linesOf 10 input) :=
  ⟨fun ⟨_, _, hloop, _⟩ => exitReached_of_mainLoop hp hloop, mainLoop_of_exitReached hp rfl⟩

end Loop

/-! ### The versions -/

theorem isPass_later : IsPass laterPass where
  exit := by
    intro line
    rcases handleLine_cases line with ⟨hexit, hline⟩ | ⟨hexit, pass, hne, hline⟩
    · refine iff_of_true ?_ hexit
      rw [laterPass, hline]
      rfl
    · refine iff_of_false ?_ hexit
      rw [laterPass, hline]
      rintro ⟨⟩
      exact hne rfl
  empty := by
    have hnil : handleLine [] = .ok .badFormat := by decide +kernel
    rw [laterPass, hnil]
    rfl

theorem isPass_v1 : IsPass V1.handleLine where
  exit := fun _ => V1.handleLine_eq_exit
  empty := by decide +kernel

/-! ### The robot client -/

/-- The loop of the client, `input` being its string: the words it sent when it was left. -/
def clientLoop : Nat → Bytes → Istream → Option (List Bytes)
  | 0, _, _ => none
  | fuel + 1, input, cin =>
    let (input, cin) := cin.extract input
    if input = literal "exit" then some []
    else (clientLoop fuel input cin).map (input :: ·)

/-- The loop is left, and it sent the words before the first `exit`. -/
def ConsumesWords (input : Bytes) : Prop :=
  ∃ fuel, clientLoop fuel [] (.ofBytes input) = some ((wordsOf input).takeWhile (· ≠ literal "exit"))

theorem clientLoop_of_not_good {word : Bytes} {cin : Istream} (hword : word ≠ literal "exit")
    (h : cin.good = false) (fuel : Nat) : clientLoop fuel word cin = none := by
  induction fuel generalizing cin with
  | zero => rfl
  | succ fuel ih =>
    have hextract : cin.extract word = (word, { cin with failbit := true }) := by
      rw [Istream.extract, h]
      rfl
    rw [clientLoop, hextract]
    show (if word = literal "exit" then some [] else _) = none
    rw [if_neg hword, ih (by simp [Istream.good])]
    rfl

theorem extract_of_runs {s w : Bytes} {ws : List Bytes} (h : runs (!isspace ·) s = w :: ws) (word : Bytes) :
    ∃ rest, (Istream.ofBytes s).extract word = (w, ⟨rest, rest = [], false⟩) ∧
      runs (!isspace ·) rest = ws := by
  obtain ⟨lead, rest, hcut, hrest⟩ := runs_eq_cons.1 h
  refine ⟨rest, ?_, hrest⟩
  have hgood : (Istream.ofBytes s).good = true := rfl
  have hword : extractWord (Istream.ofBytes s).rest = some (w, rest) := extractWord_of_cut hcut
  rw [Istream.extract, if_pos hgood, hword]

/-- The words before the first `exit` are sent. -/
theorem clientLoop_of_exit {s : Bytes} {ws : List Bytes} (hws : runs (!isspace ·) s = ws)
    (h : literal "exit" ∈ ws) (word : Bytes) :
    ∃ fuel, clientLoop fuel word (.ofBytes s) = some (ws.takeWhile (· ≠ literal "exit")) := by
  induction ws generalizing s word with
  | nil => cases h
  | cons w ws ih =>
    obtain ⟨rest, hextract, hrest⟩ := extract_of_runs hws word
    by_cases hexit : w = literal "exit"
    · refine ⟨1, ?_⟩
      rw [clientLoop, hextract, List.takeWhile_cons_of_neg (by simpa using hexit)]
      exact if_pos hexit
    · have hmem : literal "exit" ∈ ws := (List.mem_cons.1 h).resolve_left (Ne.symm hexit)
      have hne : rest ≠ [] := by
        rintro rfl
        rw [← hrest] at hmem
        cases hmem
      obtain ⟨fuel, hloop⟩ := ih hrest hmem w
      refine ⟨fuel + 1, ?_⟩
      rw [clientLoop, hextract, List.takeWhile_cons_of_pos (by simpa using hexit)]
      simp only [hne, if_neg hexit, decide_false]
      exact congrArg (Option.map _) hloop

/-- Without an `exit` the loop is never left. -/
theorem clientLoop_of_no_exit {s word : Bytes} (hs : literal "exit" ∉ runs (!isspace ·) s)
    (hword : word ≠ literal "exit") (fuel : Nat) : clientLoop fuel word (.ofBytes s) = none := by
  induction fuel generalizing s word with
  | zero => rfl
  | succ fuel ih =>
    cases hws : runs (!isspace ·) s with
    | nil =>
      have hgood : (Istream.ofBytes s).good = true := rfl
      have hblank : ∀ c ∈ s, isspace c := by simpa using runs_eq_nil.1 hws
      have hnone : extractWord (Istream.ofBytes s).rest = none := extractWord_eq_none.2 hblank
      have hextract : (Istream.ofBytes s).extract word = (word, ⟨[], true, true⟩) := by
        rw [Istream.extract, if_pos hgood, hnone]
      rw [clientLoop, hextract]
      show (if word = literal "exit" then some [] else _) = none
      rw [if_neg hword, clientLoop_of_not_good hword rfl]
      rfl
    | cons w ws =>
      obtain ⟨rest, hextract, hrest⟩ := extract_of_runs hws word
      rw [hws, List.mem_cons, not_or] at hs
      have hw : w ≠ literal "exit" := Ne.symm hs.1
      rw [clientLoop, hextract]
      show (if w = literal "exit" then some [] else _) = none
      rw [if_neg hw]
      by_cases hend : rest = []
      · rw [clientLoop_of_not_good hw (by simp [Istream.good, hend])]
        rfl
      · simp only [hend, decide_false]
        exact congrArg (Option.map _) (ih (by rw [hrest]; exact hs.2) hw)

theorem consumesWords_iff (input : Bytes) : ConsumesWords input ↔ literal "exit" ∈ wordsOf input := by
  rw [ConsumesWords, wordsOf_eq_runs]
  constructor
  · rintro ⟨fuel, hloop⟩
    by_contra hexit
    rw [clientLoop_of_no_exit hexit nil_ne_exit] at hloop
    cases hloop
  · intro h
    exact clientLoop_of_exit rfl h []

/-! ### Which inputs are consumed -/

theorem goesOn_later (line : Bytes) : GoesOn laterPass line ↔ line.length ≤ 199 := by
  have hpass : ∃ p, laterPass (lineText line) = .ok (some p) := by
    rcases handleLine_cases (lineText line) with ⟨-, hline⟩ | ⟨-, pass, -, hline⟩
    · exact ⟨.exit, by rw [laterPass, hline]; rfl⟩
    · exact ⟨pass, by rw [laterPass, hline]; rfl⟩
  rw [GoesOn, and_iff_left hpass]
  exact Nat.lt_succ_iff

theorem goesOn_v1 (line : Bytes) :
    GoesOn V1.handleLine line ↔ line.length ≤ 199 ∧ ¬ V1.BareAddress (lineText line) := by
  rw [GoesOn, sizeofInput, Nat.lt_succ_iff]
  refine and_congr_right fun hlen => ?_
  have hle : (lineText line).length ≤ line.length := (List.takeWhile_prefix _).length_le
  have hnpos : (lineText line).length < npos := Nat.lt_of_le_of_lt (Nat.le_trans hle hlen) (by decide)
  by_cases hexit : lineText line = literal "exit"
  · refine iff_of_true ⟨.exit, V1.handleLine_eq_exit.2 hexit⟩ ?_
    rintro ⟨ip, port, heq, -⟩
    have hblank : (32 : UInt8) ∈ literal "exit" := by
      rw [← hexit, heq]
      simp
    exact blank_not_mem_exit hblank
  · rcases V1.handleLine_cases hnpos hexit with ⟨hbare, hthrows⟩ | ⟨hbare, hpasses⟩
    · refine iff_of_false ?_ (not_not.2 hbare)
      rintro ⟨p, hp⟩
      rw [hthrows] at hp
      cases hp
    · refine iff_of_true ?_ hbare
      rcases hpasses with hp | hp | ⟨dest, text, hp, -⟩
      exacts [⟨_, hp⟩, ⟨_, hp⟩, ⟨_, hp⟩]

theorem exitReached_congr {P Q : Bytes → Prop} (h : ∀ l, P l ↔ Q l) {lines : List Bytes} :
    ExitReached P lines ↔ ExitReached Q lines := by
  simp only [ExitReached, h]

/-- The chat consumes an input exactly if a line is `exit` and the lines before it fit into the array,
in v1 without a bare address among them; the robot client exactly if a word is `exit`. -/
theorem consumes_iff (input : Bytes) :
    (ConsumesLines V1.handleLine input ↔
      ExitReached (fun line => line.length ≤ 199 ∧ ¬ V1.BareAddress (lineText line))
        (linesOf 10 input)) ∧
    (ConsumesLines laterPass input ↔ ExitReached (fun line => line.length ≤ 199) (linesOf 10 input)) ∧
    (ConsumesWords input ↔ literal "exit" ∈ wordsOf input) := by
  refine ⟨?_, ?_, consumesWords_iff input⟩
  · rw [consumesLines_iff isPass_v1, exitReached_congr goesOn_v1]
  · rw [consumesLines_iff isPass_later, exitReached_congr goesOn_later]

/-- None of the loops sees the end of the empty input. -/
theorem not_consumes_nil :
    ¬ ConsumesLines V1.handleLine [] ∧ ¬ ConsumesLines laterPass [] ∧ ¬ ConsumesWords [] := by
  refine ⟨?_, ?_, ?_⟩
  · rw [consumesLines_iff isPass_v1]
    exact not_exitReached_nil
  · rw [consumesLines_iff isPass_later]
    exact not_exitReached_nil
  · rw [consumesWords_iff]
    exact List.not_mem_nil

end CoffeeChat
