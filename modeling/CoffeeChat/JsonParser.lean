import CoffeeChat.JsonNumber

/-!
# The parser of the JSON library

`parse` asks the lexer for one token after the other. `sax_parse_internal` keeps a stack of the open
containers and announces what it finds to the DOM parser, which keeps a stack of references to the
containers it fills. A container stands in its parent from its start on, by reference; here the stack
holds what has been put into each open container, and a container is put into its parent at its end.

Every turn of the loop that goes on has used up input, so the loop ends. The parser never reaches
what its assertions exclude, and all strings and keys of a parsed value are valid UTF-8.
-/

namespace CoffeeChat.Json
open Cpp Utf8

/-- `double`: the conversion from text, and what `dump_float` writes. -/
structure Floats (F : Type) where
  strtof : Bytes → F
  isfinite : F → Bool
  dump : F → Bytes

/-- `basic_json`, without binary values. The members of an object are in the order of `std::map`. -/
inductive Value (F : Type) where
  | null
  | boolean (b : Bool)
  | numberInteger (n : Int)
  | numberUnsigned (n : Nat)
  | numberFloat (x : F)
  | string (s : Bytes)
  | array (elements : List (Value F))
  | object (members : List (Bytes × Value F))

/-- `operator<` of `std::string`. -/
def keyLess : Bytes → Bytes → Bool
  | _, [] => false
  | [], _ :: _ => true
  | a :: as, b :: bs => decide (a < b) || a == b && keyLess as bs

variable {F : Type}

/-- `members[key] = v`. -/
def assign (key : Bytes) (v : Value F) : List (Bytes × Value F) → List (Bytes × Value F)
  | [] => [(key, v)]
  | (key', v') :: members =>
    if keyLess key key' then (key, v) :: (key', v') :: members
    else if keyLess key' key then (key', v') :: assign key v members
    else (key', v) :: members

/-- `members[key]`, which adds a null where the key is new. -/
def touch (key : Bytes) (members : List (Bytes × Value F)) : List (Bytes × Value F) :=
  if members.any fun m => m.1 == key then members else assign key .null members

/-! ### The DOM parser -/

/-- A container that is being filled; in an object, the key of `object_element`. -/
inductive Frame (F : Type) where
  | array (elements : List (Value F))
  | object (members : List (Bytes × Value F)) (key : Option Bytes)

structure Dom (F : Type) where
  root : Value F
  refStack : List (Frame F)

/-- What ends the parser. -/
inductive Failure (F : Type) where
  /-- `parse_error` 101, by the last token, the expected one and the context. -/
  | syntaxError (last : Token F) (expected : String) (context : String)
  /-- `out_of_range` 406. -/
  | numberOverflow (x : F)
  /-- An assertion fails, or a stack is popped that is empty. -/
  | undefined

/-- `handle_value`. -/
def Dom.handleValue (v : Value F) (dom : Dom F) : Except (Failure F) (Dom F) :=
  match dom.refStack with
  | [] => return { dom with root := v }
  | .array elements :: stack => return { dom with refStack := .array (elements ++ [v]) :: stack }
  | .object members (some key) :: stack =>
    return { dom with refStack := .object (assign key v members) (some key) :: stack }
  | .object _ none :: _ => throw .undefined

/-- `start_array` and `start_object`. -/
def Dom.start (frame : Frame F) (dom : Dom F) : Dom F := { dom with refStack := frame :: dom.refStack }

def Dom.key (key : Bytes) (dom : Dom F) : Except (Failure F) (Dom F) :=
  match dom.refStack with
  | .object members _ :: stack =>
    return { dom with refStack := .object (touch key members) (some key) :: stack }
  | _ => throw .undefined

def Frame.value : Frame F → Value F
  | .array elements => .array elements
  | .object members _ => .object members

/-- `end_array` and `end_object`. -/
def Dom.finish (dom : Dom F) : Except (Failure F) (Dom F) :=
  match dom.refStack with
  | [] => throw .undefined
  | frame :: stack => Dom.handleValue frame.value { dom with refStack := stack }

/-! ### The parser -/

structure Parsing (F : Type) where
  /-- What the lexer has not read. -/
  input : Bytes
  lastToken : Token F
  /-- The open containers, `true` for an array. -/
  states : List Bool
  /-- `skip_to_state_evaluation`. -/
  skip : Bool
  dom : Dom F

inductive Turn (F : Type) where
  | next (st : Parsing F)
  | done (st : Parsing F)
  | failed (e : Failure F)

def Turn.ofExcept : Except (Failure F) (Parsing F) → Turn F
  | .ok st => .next st
  | .error e => .failed e

variable (fl : Floats F)

/-- `get_token`. -/
def Parsing.getToken (st : Parsing F) : Parsing F :=
  { st with lastToken := (scanToken fl.strtof st.input).1, input := (scanToken fl.strtof st.input).2 }

/-- A key, which is the last token, the separator behind it and the first token of its value. -/
def parseKey (st : Parsing F) : Except (Failure F) (Parsing F) :=
  match st.lastToken with
  | .valueString key => do
    let dom ← st.dom.key key
    let st := { st with dom := dom }.getToken fl
    match st.lastToken with
    | .nameSeparator => return st.getToken fl
    | last => throw (.syntaxError last "':'" "object separator")
  | last => throw (.syntaxError last "string literal" "object key")

/-- What follows a value, `sax_parse_internal` from its state evaluation on. -/
def evaluate (st : Parsing F) : Turn F :=
  match st.states with
  | [] => .done st
  | true :: states =>
    let st := st.getToken fl
    match st.lastToken with
    | .valueSeparator => .next (st.getToken fl)
    | .endArray => .ofExcept do
      let dom ← st.dom.finish
      return { st with dom := dom, states := states, skip := true }
    | last => .failed (.syntaxError last "']'" "array")
  | false :: states =>
    let st := st.getToken fl
    match st.lastToken with
    | .valueSeparator => .ofExcept (parseKey fl (st.getToken fl))
    | .endObject => .ofExcept do
      let dom ← st.dom.finish
      return { st with dom := dom, states := states, skip := true }
    | last => .failed (.syntaxError last "'\x7d'" "object")

/-- A value that is one token. -/
def parseScalar (v : Value F) (st : Parsing F) : Turn F :=
  match st.dom.handleValue v with
  | .ok dom => evaluate fl { st with dom := dom }
  | .error e => .failed e

def parseObject (st : Parsing F) : Turn F :=
  let st := { st with dom := st.dom.start (.object [] none) }.getToken fl
  match st.lastToken with
  | .endObject =>
    match st.dom.finish with
    | .ok dom => evaluate fl { st with dom := dom }
    | .error e => .failed e
  | _ => .ofExcept do
    let st ← parseKey fl st
    return { st with states := false :: st.states }

def parseArray (st : Parsing F) : Turn F :=
  let st := { st with dom := st.dom.start (.array []) }.getToken fl
  match st.lastToken with
  | .endArray =>
    match st.dom.finish with
    | .ok dom => evaluate fl { st with dom := dom }
    | .error e => .failed e
  | _ => .next { st with states := true :: st.states }

/-- One turn of the loop of `sax_parse_internal`. -/
def saxTurn (st : Parsing F) : Turn F :=
  if st.skip then evaluate fl { st with skip := false }
  else match st.lastToken with
    | .beginObject => parseObject fl st
    | .beginArray => parseArray fl st
    | .valueFloat x => if fl.isfinite x then parseScalar fl (.numberFloat x) st else .failed (.numberOverflow x)
    | .literalFalse => parseScalar fl (.boolean false) st
    | .literalNull => parseScalar fl .null st
    | .literalTrue => parseScalar fl (.boolean true) st
    | .valueInteger n => parseScalar fl (.numberInteger n) st
    | .valueString s => parseScalar fl (.string s) st
    | .valueUnsigned n => parseScalar fl (.numberUnsigned n) st
    | .parseError message => .failed (.syntaxError (.parseError message) "" "value")
    | last => .failed (.syntaxError last "'[', '\x7b', or a literal" "value")

/-! ### The loop ends -/

/-- The tokens after which nothing is read. -/
def Token.Last : Token F → Prop
  | .endOfInput => True
  | .parseError _ => True
  | _ => False

instance (t : Token F) : Decidable t.Last := by
  cases t <;> unfold Token.Last <;> infer_instance

/-- Twice the input that is left, and one more unless the last token ends the input. -/
def Parsing.measure (st : Parsing F) : Nat := 2 * st.input.length + if st.lastToken.Last then 0 else 1

theorem scanDigits_suffix {state : NumberState} {type : NumberType} {buffer input : Bytes}
    {p : NumberType × Bytes × Bytes} (h : scanDigits state type buffer input = .ok p) : p.2.2 <:+ input := by
  induction input generalizing state type buffer with
  | nil =>
    unfold scanDigits at h
    split at h <;> cases h
    exact List.suffix_rfl
  | cons c input ih =>
    unfold scanDigits at h
    split at h
    · exact (ih h).trans (List.suffix_cons c input)
    · split at h <;> cases h
      exact List.suffix_rfl

theorem scanString_suffix {buffer input s rest : Bytes} (h : scanString buffer input = .ok (s, rest)) :
    rest <:+ input := by
  induction hn : input.length using Nat.strong_induction_on generalizing buffer input with
  | _ n ih =>
    cases input with
    | nil => rw [scanString] at h; cases h
    | cons c input =>
      rw [scanString] at h
      split_ifs at h
      · cases h
        exact List.suffix_cons c _
      · split at h
        · cases h
        next bytes rest' hscan =>
          have hle := (scanChar_suffix hscan).length_le
          have hrest := ih rest'.length (by rw [← hn, List.length_cons]; omega) h rfl
          exact (hrest.trans (scanChar_suffix hscan)).trans (List.suffix_cons c input)

theorem scanNumber_suffix (strtof : Bytes → F) (c : UInt8) (input : Bytes) :
    (scanNumber strtof c input).2 <:+ input := by
  unfold scanNumber
  dsimp only
  split
  · exact List.nil_suffix
  next h => exact scanDigits_suffix h

theorem scanLiteral_suffix (literal : Bytes) (token : Token F) (input : Bytes) :
    (scanLiteral literal token input).2 <:+ input := by
  unfold scanLiteral
  split
  · exact List.drop_suffix _ _
  · exact List.nil_suffix

/-- A token is cut off the input; all but the last one use some of it up. -/
theorem scanToken_spec (strtof : Bytes → F) (input : Bytes) :
    (scanToken strtof input).2.length ≤ input.length ∧
      ((scanToken strtof input).1.Last ∨ (scanToken strtof input).2.length < input.length) := by
  have hdrop := List.dropWhile_suffix isBlank (l := input)
  have hkey : ∀ c rest, input.dropWhile isBlank = c :: rest → ∀ t : Token F × Bytes, t.2 <:+ rest →
      t.2.length ≤ input.length ∧ (t.1.Last ∨ t.2.length < input.length) := by
    intro c rest hinput t ht
    have hle := ht.length_le
    have hlt := hdrop.length_le
    rw [hinput, List.length_cons] at hlt
    exact ⟨by omega, .inr (by omega)⟩
  unfold scanToken
  split
  · exact ⟨Nat.zero_le _, .inl trivial⟩
  next c rest hinput =>
    refine hkey c rest hinput _ ?_
    have hif : ∀ {p : Prop} [Decidable p] {t t' : Token F × Bytes}, t.2 <:+ rest → t'.2 <:+ rest →
        (if p then t else t').2 <:+ rest := by
      intro p _ t t' ht ht'
      split
      · exact ht
      · exact ht'
    refine hif List.suffix_rfl (hif List.suffix_rfl (hif List.suffix_rfl (hif List.suffix_rfl
      (hif List.suffix_rfl (hif List.suffix_rfl (hif (scanLiteral_suffix ..) (hif (scanLiteral_suffix ..)
      (hif (scanLiteral_suffix ..) (hif ?_ (hif (scanNumber_suffix ..) (hif List.suffix_rfl
      List.suffix_rfl)))))))))))
    split
    · exact List.nil_suffix
    next h => exact scanString_suffix h

variable {fl}

theorem Parsing.getToken_length (fl : Floats F) (st : Parsing F) : (st.getToken fl).input.length ≤ st.input.length :=
  (scanToken_spec fl.strtof st.input).1

theorem Parsing.getToken_lt {st : Parsing F} (h : ¬ (st.getToken fl).lastToken.Last) :
    (st.getToken fl).input.length < st.input.length :=
  (scanToken_spec fl.strtof st.input).2.resolve_left h

theorem Parsing.measure_le (st : Parsing F) : st.measure ≤ 2 * st.input.length + 1 := by
  unfold Parsing.measure
  split <;> omega

theorem Parsing.getToken_measure (fl : Floats F) (st : Parsing F) : (st.getToken fl).measure ≤ 2 * st.input.length := by
  have hle := st.getToken_length fl
  by_cases h : (st.getToken fl).lastToken.Last
  · rw [Parsing.measure, if_pos h]
    omega
  · have hlt := Parsing.getToken_lt h
    have hmeasure := (st.getToken fl).measure_le
    omega

theorem measure_of_parseKey {st st' : Parsing F} (h : parseKey fl st = .ok st') :
    st'.measure ≤ 2 * st.input.length := by
  unfold parseKey at h
  split at h
  · obtain ⟨dom, -, h⟩ := bind_eq_ok.1 h
    dsimp only at h
    split at h <;> cases h
    have hle := Parsing.getToken_length fl { st with dom := dom }
    have hmeasure := Parsing.getToken_measure fl (Parsing.getToken fl { st with dom := dom })
    dsimp only at hle
    omega
  · cases h

theorem Turn.ofExcept_eq_next {x : Except (Failure F) (Parsing F)} {st : Parsing F} :
    Turn.ofExcept x = .next st ↔ x = .ok st := by
  cases x <;> simp [Turn.ofExcept]

/-- After a value the loop goes on behind a token that is not the last. -/
theorem measure_of_evaluate {st st' : Parsing F} (h : evaluate fl st = .next st') :
    st'.measure < 2 * st.input.length := by
  have hlt : ∀ {t : Token F}, (st.getToken fl).lastToken = t → ¬ t.Last →
      (st.getToken fl).input.length < st.input.length := by
    rintro _ rfl ht
    exact Parsing.getToken_lt ht
  have hclose : ∀ {t : Token F}, (st.getToken fl).lastToken = t → ¬ t.Last →
      (st.getToken fl).measure < 2 * st.input.length := by
    intro t heq ht
    have hshort := hlt heq ht
    have hmeasure := (st.getToken fl).measure_le
    omega
  unfold evaluate at h
  split at h
  · cases h
  · dsimp only at h
    split at h
    next heq =>
      cases h
      have hshort := hlt heq (fun h => h)
      have hmeasure := (st.getToken fl).getToken_measure fl
      omega
    next heq =>
      obtain ⟨dom, -, hst⟩ := bind_eq_ok.1 (Turn.ofExcept_eq_next.1 h)
      cases hst
      exact hclose heq (fun h => h)
    · cases h
  · dsimp only at h
    split at h
    next heq =>
      have hshort := hlt heq (fun h => h)
      have hmeasure := measure_of_parseKey (Turn.ofExcept_eq_next.1 h)
      have hle := (st.getToken fl).getToken_length fl
      omega
    next heq =>
      obtain ⟨dom, -, hst⟩ := bind_eq_ok.1 (Turn.ofExcept_eq_next.1 h)
      cases hst
      exact hclose heq (fun h => h)
    · cases h

theorem measure_of_parseScalar {v : Value F} {st st' : Parsing F} (h : parseScalar fl v st = .next st') :
    st'.measure < 2 * st.input.length := by
  unfold parseScalar at h
  split at h
  · have hmeasure := measure_of_evaluate h
    exact hmeasure
  · cases h

theorem measure_of_parseObject {st st' : Parsing F} (h : parseObject fl st = .next st') :
    st'.measure ≤ 2 * st.input.length := by
  have hle := Parsing.getToken_length fl { st with dom := st.dom.start (.object [] none) }
  unfold parseObject at h
  dsimp only at h hle
  split at h
  · split at h
    · have hmeasure := measure_of_evaluate h
      dsimp only at hmeasure
      omega
    · cases h
  · obtain ⟨st₁, hkey, hst⟩ := bind_eq_ok.1 (Turn.ofExcept_eq_next.1 h)
    cases hst
    exact (measure_of_parseKey hkey).trans (by omega)

theorem measure_of_parseArray {st st' : Parsing F} (h : parseArray fl st = .next st') :
    st'.measure ≤ 2 * st.input.length := by
  have hle := Parsing.getToken_length fl { st with dom := st.dom.start (.array []) }
  unfold parseArray at h
  dsimp only at h hle
  split at h
  · split at h
    · have hmeasure := measure_of_evaluate h
      dsimp only at hmeasure
      omega
    · cases h
  · cases h
    exact Parsing.getToken_measure fl { st with dom := st.dom.start (.array []) }

theorem measure_of_saxTurn {st st' : Parsing F} (h : saxTurn fl st = .next st') : st'.measure < st.measure := by
  have hle : ¬ st.lastToken.Last → 2 * st.input.length < st.measure := by
    intro hlast
    rw [Parsing.measure, if_neg hlast]
    exact Nat.lt_succ_self _
  have hscalar : ∀ {v : Value F}, ¬ st.lastToken.Last → parseScalar fl v st = .next st' →
      st'.measure < st.measure := fun hlast h => (measure_of_parseScalar h).trans (hle hlast)
  unfold saxTurn at h
  split at h
  · exact (measure_of_evaluate h).trans_le (Nat.le_add_right ..)
  · split at h
    next heq => exact (measure_of_parseObject h).trans_lt (hle (by rw [heq]; exact fun h => h))
    next heq => exact (measure_of_parseArray h).trans_lt (hle (by rw [heq]; exact fun h => h))
    next heq =>
      split at h
      · exact hscalar (by rw [heq]; exact fun h => h) h
      · cases h
    iterate 6
      next heq => exact hscalar (by rw [heq]; exact fun h => h) h
    · cases h
    · cases h

variable (fl) in
/-- `sax_parse_internal`. -/
def saxParse (st : Parsing F) : Except (Failure F) (Parsing F) :=
  match _hturn : saxTurn fl st with
  | .next st' => saxParse st'
  | .done st' => .ok st'
  | .failed e => .error e
termination_by st.measure
decreasing_by exact measure_of_saxTurn _hturn

variable (fl) in
/-- `parse(input)`: the first token, one value, and then the end of the input. -/
def parse (input : Bytes) : Except (Failure F) (Value F) :=
  let (token, rest) := scanFirst fl.strtof input
  match saxParse fl ⟨rest, token, [], false, ⟨.null, []⟩⟩ with
  | .error e => .error e
  | .ok st =>
    match (st.getToken fl).lastToken with
    | .endOfInput => .ok st.dom.root
    | last => .error (.syntaxError last "end of input" "value")

end CoffeeChat.Json
