import CoffeeChat.JsonWellFormed

/-!
# Parsing what the serializer writes

`dump` writes a value without blanks, its strings escaped, with or without `ensure_ascii`. The parser
reads every well-formed value without floating-point numbers back as it was.
-/

namespace CoffeeChat.Json
open Cpp Utf8 WeChatApi

variable {F : Type}

/-! ### `dump` -/

section Dump

variable (fl : Floats F) (ensureAscii : Bool) (numberBuffer : Bytes)

/-- A string in quotes, a value or a key. -/
def dumpQuoted (s : Bytes) : Except Fault Bytes := do
  let text ← dumpEscaped .strict ensureAscii s
  return 34 :: text ++ [34]

mutual

/-- `dump(val)` with the strict handler and without indentation, `numberBuffer` holding whatever the
integers before have left in it. -/
def dumpValue : Value F → Except Fault Bytes
  | .null => return literal "null"
  | .boolean b => return if b then literal "true" else literal "false"
  | .numberInteger n => dumpInteger numberBuffer n
  | .numberUnsigned n => dumpInteger numberBuffer n
  | .numberFloat x => return if fl.isfinite x then fl.dump x else literal "null"
  | .string s => dumpQuoted ensureAscii s
  | .array elements => do
    let text ← dumpElements elements
    return 91 :: text ++ [93]
  | .object members => do
    let text ← dumpMembers members
    return 123 :: text ++ [125]

/-- The elements with commas between them. -/
def dumpElements : List (Value F) → Except Fault Bytes
  | [] => return []
  | [v] => dumpValue v
  | v :: vs => do
    let text ← dumpValue v
    let rest ← dumpElements vs
    return text ++ 44 :: rest

def dumpMembers : List (Bytes × Value F) → Except Fault Bytes
  | [] => return []
  | [(key, v)] => do
    let name ← dumpQuoted ensureAscii key
    let text ← dumpValue v
    return name ++ 58 :: text
  | (key, v) :: members => do
    let name ← dumpQuoted ensureAscii key
    let text ← dumpValue v
    let rest ← dumpMembers members
    return name ++ 58 :: text ++ 44 :: rest

end

end Dump

/-- The values that `parse` builds again from their text: valid strings and keys, no floating-point
numbers, and only negative numbers as `number_integer`. -/
inductive Value.Plain : Value F → Prop where
  | null : Plain .null
  | boolean (b : Bool) : Plain (.boolean b)
  | numberInteger {n : Int} : -2 ^ 63 ≤ n → n < 0 → Plain (.numberInteger n)
  | numberUnsigned {n : Nat} : n < 2 ^ 64 → Plain (.numberUnsigned n)
  | string {s : Bytes} : Valid s → Plain (.string s)
  | array {elements : List (Value F)} : (∀ v ∈ elements, Plain v) → Plain (.array elements)
  | object {members : List (Bytes × Value F)} : Ascending members → (∀ m ∈ members, Valid m.1) →
      (∀ m ∈ members, Plain m.2) → Plain (.object members)

variable {fl : Floats F} {ensureAscii : Bool} {numberBuffer : Bytes}

/-! ### Tokens -/

theorem scanToken_cons {c : UInt8} (h : isBlank c = false) (input : Bytes) : scanToken fl.strtof (c :: input) =
    if c = 91 then (.beginArray, input)
    else if c = 93 then (.endArray, input)
    else if c = 123 then (.beginObject, input)
    else if c = 125 then (.endObject, input)
    else if c = 58 then (.nameSeparator, input)
    else if c = 44 then (.valueSeparator, input)
    else if c = 116 then scanLiteral (literal "rue") .literalTrue input
    else if c = 102 then scanLiteral (literal "alse") .literalFalse input
    else if c = 110 then scanLiteral (literal "ull") .literalNull input
    else if c = 34 then
      match scanString [] input with
      | .error message => (.parseError message, [])
      | .ok (s, rest) => (.valueString s, rest)
    else if c = 45 ∨ isdigit c then scanNumber fl.strtof c input
    else if c = 0 then (.endOfInput, input)
    else (.parseError "invalid literal", input) := by
  unfold scanToken
  rw [List.dropWhile_cons, h]
  rfl

theorem scanLiteral_append (text rest : Bytes) (token : Token F) :
    scanLiteral text token (text ++ rest) = (token, rest) := by
  rw [scanLiteral, if_pos (List.prefix_append text rest), List.drop_left]

theorem scanToken_true (rest : Bytes) : scanToken fl.strtof (literal "true" ++ rest) = (.literalTrue, rest) := by
  have htext : literal "true" = 116 :: literal "rue" := by decide
  rw [htext, List.cons_append, scanToken_cons (by decide)]
  change scanLiteral (literal "rue") .literalTrue (literal "rue" ++ rest) = _
  exact scanLiteral_append _ _ _

theorem scanToken_false (rest : Bytes) : scanToken fl.strtof (literal "false" ++ rest) = (.literalFalse, rest) := by
  have htext : literal "false" = 102 :: literal "alse" := by decide
  rw [htext, List.cons_append, scanToken_cons (by decide)]
  change scanLiteral (literal "alse") .literalFalse (literal "alse" ++ rest) = _
  exact scanLiteral_append _ _ _

theorem scanToken_null (rest : Bytes) : scanToken fl.strtof (literal "null" ++ rest) = (.literalNull, rest) := by
  have htext : literal "null" = 110 :: literal "ull" := by decide
  rw [htext, List.cons_append, scanToken_cons (by decide)]
  change scanLiteral (literal "ull") .literalNull (literal "ull" ++ rest) = _
  exact scanLiteral_append _ _ _

/-- A string in quotes is one token. -/
theorem exists_dumpQuoted (fl : Floats F) (ensureAscii : Bool) {s : Bytes} (h : Valid s) :
    ∃ text, dumpQuoted ensureAscii s = .ok text ∧
      ∀ rest, scanToken fl.strtof (text ++ rest) = (.valueString s, rest) := by
  obtain ⟨cs, rfl⟩ := h
  refine ⟨34 :: cs.flatMap (escapeChar ensureAscii) ++ [34], by rw [dumpQuoted, dumpEscaped_encode]; rfl,
    fun rest => ?_⟩
  have hscan := scanString_escaped ensureAscii cs [] rest
  rw [List.cons_append, List.cons_append, List.append_assoc, scanToken_cons (by decide)]
  change (match scanString [] (cs.flatMap (escapeChar ensureAscii) ++ 34 :: rest) with
    | .error message => _ | .ok (s, rest) => _) = _
  rw [hscan]
  rfl

theorem skipBom_cons {c : UInt8} (h : c ≠ 0xEF) (input : Bytes) : skipBom (c :: input) = some (c :: input) := by
  unfold skipBom
  split
  next heq => exact absurd (List.cons.inj heq).1 h
  · rfl

theorem scanToken_number {c : UInt8} (h : c = 45 ∨ isdigit c) (input : Bytes) :
    scanToken fl.strtof (c :: input) = scanNumber fl.strtof c input := by
  have htable : ∀ c : UInt8, c = 45 ∨ isdigit c → isBlank c = false ∧
      ∀ k ∈ [91, 93, 123, 125, 58, 44, 116, 102, 110, 34], c ≠ k := forall_byte (by decide +kernel)
  obtain ⟨hblank, hne⟩ := htable c h
  simp only [List.forall_mem_cons] at hne
  obtain ⟨h₁, h₂, h₃, h₄, h₅, h₆, h₇, h₈, h₉, h₁₀, -⟩ := hne
  rw [scanToken_cons hblank, if_neg h₁, if_neg h₂, if_neg h₃, if_neg h₄, if_neg h₅, if_neg h₆, if_neg h₇,
    if_neg h₈, if_neg h₉, if_neg h₁₀, if_pos h]

theorem scanToken_unsigned {n : Nat} (h : n < 2 ^ 64) {rest : Bytes} (hrest : Ends rest) :
    scanToken fl.strtof (decimal n ++ rest) = (.valueUnsigned n, rest) := by
  obtain ⟨c, digits, hdec, hc, hscan⟩ := scanNumber_decimal fl.strtof h hrest
  rw [hdec, List.cons_append, scanToken_number (.inr hc), hscan]

theorem scanToken_integer {x : Int} (h₁ : -2 ^ 63 ≤ x) (h₂ : x < 0) {rest : Bytes} (hrest : Ends rest) :
    scanToken fl.strtof (decimalInt x ++ rest) = (.valueInteger x, rest) := by
  obtain ⟨digits, hdec, hscan⟩ := scanNumber_decimalInt fl.strtof h₁ h₂ hrest
  rw [hdec, List.cons_append, scanToken_number (.inl rfl), hscan]

/-! ### The loop on the text of a value -/

/-- The loop from a turn's outcome on. -/
def run (fl : Floats F) : Turn F → Except (Failure F) (Parsing F)
  | .next st => saxParse fl st
  | .done st => .ok st
  | .failed e => .error e

theorem saxParse_eq_run (st : Parsing F) : saxParse fl st = run fl (saxTurn fl st) := by
  rw [saxParse]
  split <;> simp_all [run]

/-- The parser before a value, the first token of which has been read off `input`. -/
def entering (fl : Floats F) (input : Bytes) (states : List Bool) (dom : Dom F) : Parsing F :=
  ⟨(scanToken fl.strtof input).2, (scanToken fl.strtof input).1, states, false, dom⟩

/-- The loop behind a value, the input being `rest`. -/
def Resumes (fl : Floats F) (st : Parsing F) (rest : Bytes) (states : List Bool) (dom : Dom F) : Prop :=
  ∃ token, saxParse fl st = run fl (evaluate fl ⟨rest, token, states, false, dom⟩)

theorem getToken_eq {input rest : Bytes} {t token : Token F} {states : List Bool} {skip : Bool} {dom : Dom F}
    (h : scanToken fl.strtof input = (token, rest)) :
    Parsing.getToken fl ⟨input, t, states, skip, dom⟩ = ⟨rest, token, states, skip, dom⟩ := by
  rw [Parsing.getToken, h]

theorem getToken_eq_entering (input : Bytes) (t : Token F) (states : List Bool) (dom : Dom F) :
    Parsing.getToken fl ⟨input, t, states, false, dom⟩ = entering fl input states dom := rfl

/-- What holds of the text of a value: it does not begin like a byte order mark or the end of an
array, and the loop gets behind it with the value in its place. -/
structure Runs (fl : Floats F) (text : Bytes) (v : Value F) : Prop where
  head : ∃ c text', text = c :: text' ∧ c ≠ 0xEF
  first : ∀ rest, Ends rest → (scanToken fl.strtof (text ++ rest)).1 ≠ .endArray
  resumes : ∀ rest states dom dom', Ends rest → dom.handleValue v = .ok dom' →
    Resumes fl (entering fl (text ++ rest) states dom) rest states dom'

/-- A value that is one token. -/
theorem Runs.scalar {text : Bytes} {v : Value F} (token : Token F)
    (hhead : ∃ c text', text = c :: text' ∧ c ≠ 0xEF) (hne : token ≠ .endArray)
    (hscan : ∀ rest, Ends rest → scanToken fl.strtof (text ++ rest) = (token, rest))
    (hturn : ∀ st : Parsing F, st.skip = false → st.lastToken = token → saxTurn fl st = parseScalar fl v st) :
    Runs fl text v := by
  refine ⟨hhead, fun rest hrest => by rw [hscan rest hrest]; exact hne, fun rest states dom dom' hrest hdom => ?_⟩
  refine ⟨token, ?_⟩
  rw [entering, hscan rest hrest, saxParse_eq_run, hturn _ rfl rfl, parseScalar, hdom]

theorem ends_of_head {c : UInt8} (h : c = 44 ∨ c = 93 ∨ c = 125) (rest : Bytes) : Ends (c :: rest) := by
  intro c' hc'
  cases hc'
  rcases h with rfl | rfl | rfl <;> exact ⟨by decide, by decide, by decide⟩

theorem ends_nil : Ends [] := fun _ h => nomatch h

theorem scanToken_comma (rest : Bytes) : scanToken fl.strtof (44 :: rest) = (.valueSeparator, rest) :=
  scanToken_cons (by decide) rest

theorem scanToken_endArray (rest : Bytes) : scanToken fl.strtof (93 :: rest) = (.endArray, rest) :=
  scanToken_cons (by decide) rest

theorem scanToken_endObject (rest : Bytes) : scanToken fl.strtof (125 :: rest) = (.endObject, rest) :=
  scanToken_cons (by decide) rest

theorem scanToken_colon (rest : Bytes) : scanToken fl.strtof (58 :: rest) = (.nameSeparator, rest) :=
  scanToken_cons (by decide) rest

/-! ### Containers -/

/-- The loop goes on behind a container that is closed. -/
theorem saxParse_skip (rest : Bytes) (token : Token F) (states : List Bool) (dom : Dom F) :
    saxParse fl ⟨rest, token, states, true, dom⟩ = run fl (evaluate fl ⟨rest, token, states, false, dom⟩) := by
  rw [saxParse_eq_run]
  rfl

theorem evaluate_endArray (rest : Bytes) (token : Token F) (states : List Bool) {dom dom' : Dom F}
    (h : dom.finish = .ok dom') :
    run fl (evaluate fl ⟨93 :: rest, token, true :: states, false, dom⟩) =
      run fl (evaluate fl ⟨rest, .endArray, states, false, dom'⟩) := by
  refine Eq.trans ?_ (saxParse_skip rest .endArray states dom')
  simp only [evaluate, getToken_eq (scanToken_endArray rest), h, ok_bind, pure_eq_ok, Turn.ofExcept, run]

theorem evaluate_endObject (rest : Bytes) (token : Token F) (states : List Bool) {dom dom' : Dom F}
    (h : dom.finish = .ok dom') :
    run fl (evaluate fl ⟨125 :: rest, token, false :: states, false, dom⟩) =
      run fl (evaluate fl ⟨rest, .endObject, states, false, dom'⟩) := by
  refine Eq.trans ?_ (saxParse_skip rest .endObject states dom')
  simp only [evaluate, getToken_eq (scanToken_endObject rest), h, ok_bind, pure_eq_ok, Turn.ofExcept, run]

theorem evaluate_comma_array (rest : Bytes) (token : Token F) (states : List Bool) (dom : Dom F) :
    run fl (evaluate fl ⟨44 :: rest, token, true :: states, false, dom⟩) =
      saxParse fl (entering fl rest (true :: states) dom) := by
  simp only [evaluate, getToken_eq (scanToken_comma rest), getToken_eq_entering, run]

theorem evaluate_comma_object (rest : Bytes) (token : Token F) (states : List Bool) (dom : Dom F) :
    run fl (evaluate fl ⟨44 :: rest, token, false :: states, false, dom⟩) =
      run fl (.ofExcept (parseKey fl (entering fl rest (false :: states) dom))) := by
  simp only [evaluate, getToken_eq (scanToken_comma rest), getToken_eq_entering]

theorem parseArray_of_ne {st : Parsing F}
    (h : (Parsing.getToken fl { st with dom := st.dom.start (.array []) }).lastToken ≠ .endArray) :
    parseArray fl st = .next { Parsing.getToken fl { st with dom := st.dom.start (.array []) } with
      states := true :: st.states } := by
  unfold parseArray
  dsimp only
  split
  next heq => exact absurd heq h
  · rfl

theorem parseObject_of_ne {st : Parsing F}
    (h : (Parsing.getToken fl { st with dom := st.dom.start (.object [] none) }).lastToken ≠ .endObject) :
    parseObject fl st = .ofExcept do
      let st ← parseKey fl (Parsing.getToken fl { st with dom := st.dom.start (.object [] none) })
      return { st with states := false :: st.states } := by
  unfold parseObject
  dsimp only
  split
  next heq => exact absurd heq h
  · rfl

/-- The elements of an array, from the first token of the next one to the end of the array. -/
theorem resumes_elements {elements : List (Value F)} (hne : elements ≠ [])
    (hruns : ∀ v ∈ elements, ∃ text, dumpValue fl ensureAscii numberBuffer v = .ok text ∧ Runs fl text v) :
    ∃ text, dumpElements fl ensureAscii numberBuffer elements = .ok text ∧
      (∀ rest, Ends rest → (scanToken fl.strtof (text ++ rest)).1 ≠ .endArray) ∧
      ∀ rest states root stack before dom',
        Dom.handleValue (.array (before ++ elements)) ⟨root, stack⟩ = .ok dom' →
        Resumes fl (entering fl (text ++ 93 :: rest) (true :: states) ⟨root, .array before :: stack⟩) rest
          states dom' := by
  induction elements with
  | nil => exact absurd rfl hne
  | cons v vs ih =>
    obtain ⟨text, hdump, hv⟩ := hruns v List.mem_cons_self
    cases vs with
    | nil =>
      refine ⟨text, by rw [dumpElements, hdump], hv.first, fun rest states root stack before dom' hdom => ?_⟩
      obtain ⟨token, hloop⟩ := hv.resumes (93 :: rest) (true :: states) ⟨root, .array before :: stack⟩ _
        (ends_of_head (.inr (.inl rfl)) rest) rfl
      exact ⟨.endArray, hloop.trans (evaluate_endArray rest token states hdom)⟩
    | cons w vs =>
      obtain ⟨inner, hinner, -, hloops⟩ := ih (List.cons_ne_nil w vs) fun v' hv' =>
        hruns v' (List.mem_cons_of_mem v hv')
      have hcomma : ∀ rest, Ends (44 :: inner ++ rest) := fun rest => ends_of_head (.inl rfl) _
      refine ⟨text ++ 44 :: inner, by rw [dumpElements, hdump, hinner]; rfl; exact List.cons_ne_nil w vs,
        fun rest hrest => by rw [List.append_assoc]; exact hv.first _ (hcomma rest),
        fun rest states root stack before dom' hdom => ?_⟩
      obtain ⟨token, hloop⟩ := hv.resumes (44 :: inner ++ 93 :: rest) (true :: states)
        ⟨root, .array before :: stack⟩ _ (hcomma (93 :: rest)) rfl
      obtain ⟨token', hloop'⟩ := hloops rest states root stack (before ++ [v]) dom'
        (by rw [List.append_assoc]; exact hdom)
      rw [List.append_assoc]
      exact ⟨token', (hloop.trans (evaluate_comma_array _ token states _)).trans hloop'⟩

/-! ### Objects -/

theorem assign_append {key : Bytes} {members : List (Bytes × Value F)} (h : ∀ m ∈ members, keyLess m.1 key)
    (v : Value F) (after : List (Bytes × Value F)) :
    assign key v (members ++ after) = members ++ assign key v after := by
  induction members with
  | nil => rfl
  | cons m members ih =>
    have hlt := h m List.mem_cons_self
    have hgt : ¬ keyLess key m.1 := by
      intro hgt
      have hself := keyLess_trans hlt hgt
      rw [keyLess_irrefl] at hself
      cases hself
    rw [List.cons_append, assign, if_neg hgt, if_pos hlt, ih fun m' hm' => h m' (List.mem_cons_of_mem m hm')]
    rfl

/-- A new key that is greater than the others comes last, with a null until its value is there. -/
theorem touch_eq {key : Bytes} {members : List (Bytes × Value F)} (h : ∀ m ∈ members, keyLess m.1 key) :
    touch key members = members ++ [(key, .null)] := by
  have hnew : ¬ (members.any fun m => m.1 == key) := by
    intro hany
    obtain ⟨m, hm, heq⟩ := List.any_eq_true.1 hany
    have hlt := h m hm
    rw [beq_iff_eq.1 heq, keyLess_irrefl] at hlt
    cases hlt
  have hassign := assign_append h .null []
  rw [List.append_nil] at hassign
  rw [touch, if_neg hnew, hassign]
  rfl

theorem assign_touch {key : Bytes} {members : List (Bytes × Value F)} (h : ∀ m ∈ members, keyLess m.1 key)
    (v : Value F) : assign key v (touch key members) = members ++ [(key, v)] := by
  rw [touch_eq h, assign_append h, assign, keyLess_irrefl]
  rfl

theorem parseKey_quoted {name : Bytes} {key : Bytes} {rest : Bytes}
    (h : scanToken fl.strtof (name ++ 58 :: rest) = (.valueString key, 58 :: rest)) (states : List Bool)
    (root : Value F) (members : List (Bytes × Value F)) (oldKey : Option Bytes) (stack : List (Frame F)) :
    parseKey fl (entering fl (name ++ 58 :: rest) states ⟨root, .object members oldKey :: stack⟩) =
      .ok (entering fl rest states ⟨root, .object (touch key members) (some key) :: stack⟩) := by
  rw [entering, h]
  simp only [parseKey, Dom.key, pure_eq_ok, ok_bind, getToken_eq (scanToken_colon rest)]
  rfl

/-- The members of an object, from the first token of the next key to the end of the object. -/
theorem resumes_members {members : List (Bytes × Value F)} (hne : members ≠ [])
    (hvalid : ∀ m ∈ members, Valid m.1)
    (hruns : ∀ m ∈ members, ∃ text, dumpValue fl ensureAscii numberBuffer m.2 = .ok text ∧ Runs fl text m.2) :
    ∃ text, dumpMembers fl ensureAscii numberBuffer members = .ok text ∧
      (∀ rest, ∃ key, (scanToken fl.strtof (text ++ rest)).1 = .valueString key) ∧
      ∀ rest states root stack before oldKey dom', Ascending (before ++ members) →
        Dom.handleValue (.object (before ++ members)) ⟨root, stack⟩ = .ok dom' →
        ∃ input dom₁, (∀ states, parseKey fl
            (entering fl (text ++ 125 :: rest) states ⟨root, .object before oldKey :: stack⟩) =
              .ok (entering fl input states dom₁)) ∧
          Resumes fl (entering fl input (false :: states) dom₁) rest states dom' := by
  induction members with
  | nil => exact absurd rfl hne
  | cons m ms ih =>
    obtain ⟨key, v⟩ := m
    obtain ⟨name, hname, hkey⟩ := exists_dumpQuoted fl ensureAscii (hvalid _ List.mem_cons_self)
    obtain ⟨text, hdump, hv⟩ := hruns _ List.mem_cons_self
    have hless : ∀ {before : List (Bytes × Value F)}, Ascending (before ++ (key, v) :: ms) →
        ∀ m ∈ before, keyLess m.1 key := fun hasc m hm =>
      (List.pairwise_append.1 hasc).2.2 m hm _ List.mem_cons_self
    cases ms with
    | nil =>
      refine ⟨name ++ 58 :: text, by rw [dumpMembers, hname, hdump]; rfl, fun rest => ⟨key, ?_⟩,
        fun rest states root stack before oldKey dom' hasc hdom => ?_⟩
      · rw [List.append_assoc, hkey]
      refine ⟨text ++ 125 :: rest, ⟨root, .object (touch key before) (some key) :: stack⟩, fun states => ?_, ?_⟩
      · rw [List.append_assoc]
        exact parseKey_quoted (hkey _) states root before oldKey stack
      · have hput := assign_touch (hless hasc) v
        obtain ⟨token, hloop⟩ := hv.resumes (125 :: rest) (false :: states)
          ⟨root, .object (touch key before) (some key) :: stack⟩ _ (ends_of_head (.inr (.inr rfl)) rest) rfl
        rw [hput] at hloop
        exact ⟨.endObject, hloop.trans (evaluate_endObject rest token states hdom)⟩
    | cons m' ms =>
      obtain ⟨inner, hinner, -, hloops⟩ := ih (List.cons_ne_nil m' ms)
        (fun m hm => hvalid m (List.mem_cons_of_mem _ hm)) fun m hm => hruns m (List.mem_cons_of_mem _ hm)
      refine ⟨name ++ 58 :: text ++ 44 :: inner,
        by rw [dumpMembers, hname, hdump, hinner]; rfl; exact List.cons_ne_nil m' ms, fun rest => ⟨key, ?_⟩,
        fun rest states root stack before oldKey dom' hasc hdom => ?_⟩
      · rw [List.append_assoc, List.append_assoc, hkey]
      have hinput : name ++ 58 :: text ++ 44 :: inner ++ 125 :: rest =
          name ++ 58 :: (text ++ 44 :: (inner ++ 125 :: rest)) := by simp
      refine ⟨text ++ 44 :: (inner ++ 125 :: rest), ⟨root, .object (touch key before) (some key) :: stack⟩,
        fun states => ?_, ?_⟩
      · rw [hinput]
        exact parseKey_quoted (hkey _) states root before oldKey stack
      · have hput := assign_touch (hless hasc) v
        obtain ⟨token, hloop⟩ := hv.resumes (44 :: (inner ++ 125 :: rest)) (false :: states)
          ⟨root, .object (touch key before) (some key) :: stack⟩ _ (ends_of_head (.inl rfl) _) rfl
        obtain ⟨input, dom₁, hparse, token', hloop'⟩ := hloops rest states root stack (before ++ [(key, v)])
          (some key) dom' (by rw [List.append_assoc]; exact hasc) (by rw [List.append_assoc]; exact hdom)
        rw [hput] at hloop
        refine ⟨token', (hloop.trans (evaluate_comma_object _ token states _)).trans ?_⟩
        rw [hparse]
        exact hloop'

/-! ### Values -/

theorem runs_array {elements : List (Value F)} (hruns : ∀ v ∈ elements,
    ∃ text, dumpValue fl ensureAscii numberBuffer v = .ok text ∧ Runs fl text v) :
    ∃ text, dumpValue fl ensureAscii numberBuffer (.array elements) = .ok text ∧
      Runs fl text (.array elements) := by
  have hbegin : ∀ input, scanToken fl.strtof (91 :: input) = (.beginArray, input) :=
    fun input => scanToken_cons (by decide) input
  by_cases hne : elements = []
  · subst hne
    refine ⟨[91, 93], by rw [dumpValue, dumpElements]; rfl, ⟨91, [93], rfl, by decide⟩, fun rest _ => ?_,
      fun rest states dom dom' _ hdom => ⟨.endArray, ?_⟩⟩
    · rw [List.cons_append, hbegin]
      exact nofun
    · have hfinish : (dom.start (.array [])).finish = .ok dom' := hdom
      rw [entering, List.cons_append, hbegin, saxParse_eq_run]
      simp only [saxTurn, parseArray, List.cons_append, List.nil_append, getToken_eq (scanToken_endArray rest),
        hfinish]
      rfl
  · obtain ⟨inner, hinner, hfirst, hloop⟩ := resumes_elements hne hruns
    refine ⟨91 :: inner ++ [93], by rw [dumpValue, hinner]; rfl, ⟨91, inner ++ [93], rfl, by decide⟩,
      fun rest _ => ?_, fun rest states dom dom' _ hdom => ?_⟩
    · rw [List.cons_append, List.cons_append, hbegin]
      exact nofun
    · have hturn : saxTurn fl (entering fl (91 :: (inner ++ 93 :: rest)) states dom) =
          .next (entering fl (inner ++ 93 :: rest) (true :: states) (dom.start (.array []))) := by
        rw [entering, hbegin]
        exact parseArray_of_ne (hfirst _ (ends_of_head (.inr (.inl rfl)) rest))
      have hinput : 91 :: inner ++ [93] ++ rest = 91 :: (inner ++ 93 :: rest) := by simp
      obtain ⟨token, hresumes⟩ := hloop rest states dom.root dom.refStack [] dom' hdom
      refine ⟨token, ?_⟩
      rw [hinput, saxParse_eq_run, hturn]
      exact hresumes

theorem runs_object {members : List (Bytes × Value F)} (hasc : Ascending members)
    (hvalid : ∀ m ∈ members, Valid m.1) (hruns : ∀ m ∈ members,
      ∃ text, dumpValue fl ensureAscii numberBuffer m.2 = .ok text ∧ Runs fl text m.2) :
    ∃ text, dumpValue fl ensureAscii numberBuffer (.object members) = .ok text ∧
      Runs fl text (.object members) := by
  have hbegin : ∀ input, scanToken fl.strtof (123 :: input) = (.beginObject, input) :=
    fun input => scanToken_cons (by decide) input
  by_cases hne : members = []
  · subst hne
    refine ⟨[123, 125], by rw [dumpValue, dumpMembers]; rfl, ⟨123, [125], rfl, by decide⟩, fun rest _ => ?_,
      fun rest states dom dom' _ hdom => ⟨.endObject, ?_⟩⟩
    · rw [List.cons_append, hbegin]
      exact nofun
    · have hfinish : (dom.start (.object [] none)).finish = .ok dom' := hdom
      rw [entering, List.cons_append, hbegin, saxParse_eq_run]
      simp only [saxTurn, parseObject, List.cons_append, List.nil_append, getToken_eq (scanToken_endObject rest),
        hfinish]
      rfl
  · obtain ⟨inner, hinner, hfirst, hloop⟩ := resumes_members hne hvalid hruns
    refine ⟨123 :: inner ++ [125], by rw [dumpValue, hinner]; rfl, ⟨123, inner ++ [125], rfl, by decide⟩,
      fun rest _ => ?_, fun rest states dom dom' _ hdom => ?_⟩
    · rw [List.cons_append, List.cons_append, hbegin]
      exact nofun
    · obtain ⟨input, dom₁, hparse, token, hresumes⟩ :=
        hloop rest states dom.root dom.refStack [] none dom' hasc hdom
      obtain ⟨key, hkey⟩ := hfirst (125 :: rest)
      have hturn : saxTurn fl (entering fl (123 :: (inner ++ 125 :: rest)) states dom) =
          .next (entering fl input (false :: states) dom₁) := by
        rw [entering, hbegin]
        refine (parseObject_of_ne (by rw [Parsing.getToken, hkey]; exact nofun)).trans ?_
        rw [getToken_eq_entering]
        exact congrArg (fun x => Turn.ofExcept (x >>= _)) (hparse states)
      have hinput : 123 :: inner ++ [125] ++ rest = 123 :: (inner ++ 125 :: rest) := by simp
      refine ⟨token, ?_⟩
      rw [hinput, saxParse_eq_run, hturn]
      exact hresumes

/-- The serializer writes every plain value, and the parser's loop reads it. -/
theorem runs_dumpValue (fl : Floats F) (ensureAscii : Bool) (hbuffer : numberBuffer.length = 64) {v : Value F}
    (h : v.Plain) :
    ∃ text, dumpValue fl ensureAscii numberBuffer v = .ok text ∧ Runs fl text v := by
  induction h with
  | null =>
    exact ⟨literal "null", by rw [dumpValue]; rfl,
      .scalar .literalNull ⟨110, literal "ull", by decide, by decide⟩ nofun (fun rest _ => scanToken_null rest)
      fun st hskip hlast => by rw [saxTurn, hskip, hlast]; rfl⟩
  | boolean b =>
    cases b with
    | false =>
      exact ⟨literal "false", by rw [dumpValue]; rfl,
        .scalar .literalFalse ⟨102, literal "alse", by decide, by decide⟩ nofun (fun rest _ => scanToken_false rest)
        fun st hskip hlast => by rw [saxTurn, hskip, hlast]; rfl⟩
    | true =>
      exact ⟨literal "true", by rw [dumpValue]; rfl,
        .scalar .literalTrue ⟨116, literal "rue", by decide, by decide⟩ nofun (fun rest _ => scanToken_true rest)
        fun st hskip hlast => by rw [saxTurn, hskip, hlast]; rfl⟩
  | @numberInteger n h₁ h₂ =>
    obtain ⟨digits, hdec, -⟩ := scanNumber_decimalInt fl.strtof h₁ h₂ ends_nil
    exact ⟨decimalInt n, by rw [dumpValue, dumpInteger_neg hbuffer h₁ h₂],
      .scalar (.valueInteger n) ⟨45, digits, hdec, by decide⟩ nofun
      (fun rest hrest => scanToken_integer h₁ h₂ hrest) fun st hskip hlast => by rw [saxTurn, hskip, hlast]; rfl⟩
  | @numberUnsigned n hn =>
    have hne : ∀ c : UInt8, isdigit c → c ≠ 0xEF := forall_byte (by decide +kernel)
    obtain ⟨c, digits, hdec, hc, -⟩ := scanNumber_decimal fl.strtof hn ends_nil
    exact ⟨decimal n, by rw [dumpValue, dumpInteger_natCast hbuffer hn],
      .scalar (.valueUnsigned n) ⟨c, digits, hdec, hne c hc⟩ nofun (fun rest hrest => scanToken_unsigned hn hrest)
      fun st hskip hlast => by rw [saxTurn, hskip, hlast]; rfl⟩
  | @string s hs =>
    obtain ⟨text, hdump, hscan⟩ := exists_dumpQuoted fl ensureAscii hs
    refine ⟨text, by rw [dumpValue, hdump], .scalar (.valueString s) ?_ nofun (fun rest _ => hscan rest)
      fun st hskip hlast => by rw [saxTurn, hskip, hlast]; rfl⟩
    obtain ⟨inner, -, heq⟩ := bind_eq_ok.1 hdump
    cases heq
    exact ⟨34, inner ++ [34], rfl, by decide⟩
  | array _ ih => exact runs_array ih
  | object hasc hvalid _ ih => exact runs_object hasc hvalid ih

theorem Runs.parse_eq {text : Bytes} {v : Value F} (h : Runs fl text v) : parse fl text = .ok v := by
  obtain ⟨c, text', htext, hc⟩ := h.head
  have hfirst : scanFirst fl.strtof text = scanToken fl.strtof text := by
    rw [scanFirst, htext, skipBom_cons hc]
  obtain ⟨token, hloop⟩ := h.resumes [] [] ⟨.null, []⟩ ⟨v, []⟩ ends_nil rfl
  rw [List.append_nil] at hloop
  have hsax : saxParse fl ⟨(scanToken fl.strtof text).2, (scanToken fl.strtof text).1, [], false, ⟨.null, []⟩⟩ =
      .ok ⟨[], token, [], false, ⟨v, []⟩⟩ := hloop
  unfold parse
  dsimp only
  rw [hfirst, hsax]
  rfl

/-- The parser reads what the serializer writes of a plain value, whether `ensure_ascii` is set or not,
and finds the value. -/
theorem parse_dumpValue (fl : Floats F) (ensureAscii : Bool) {numberBuffer : Bytes}
    (hbuffer : numberBuffer.length = 64) {v : Value F} (h : v.Plain) :
    ∃ text, dumpValue fl ensureAscii numberBuffer v = .ok text ∧ parse fl text = .ok v := by
  obtain ⟨text, hdump, hruns⟩ := runs_dumpValue fl ensureAscii hbuffer h
  exact ⟨text, hdump, hruns.parse_eq⟩

theorem parse_dumpValue_friends :
    let v : Value Unit := .object [(literal "age", .numberUnsigned 18),
      (literal "friends", .array [.string (literal "Bob"), .null, .numberInteger (-1)])]
    ∃ text, dumpValue ⟨fun _ => (), fun _ => true, fun _ => []⟩ false (List.replicate 64 0) v = .ok text ∧
      parse ⟨fun _ => (), fun _ => true, fun _ => []⟩ text = .ok v := by
  refine parse_dumpValue _ false List.length_replicate (.object ?_ ?_ ?_)
  · exact List.pairwise_pair.2 (by decide)
  · simp only [List.forall_mem_cons, valid_literal]
    simp
  · simp only [List.forall_mem_cons]
    refine ⟨.numberUnsigned (by decide), .array ?_, nofun⟩
    simp only [List.forall_mem_cons]
    exact ⟨.string (valid_literal _), .null, .numberInteger (by decide) (by decide), nofun⟩

end CoffeeChat.Json
