import CoffeeChat.JsonRoundTrip

/-!
# The robot service's client on the JSON library

The parser that `WeChatApi` is given is `parse`. What the client sends is read by this parser as the
members that were put into it, and an answer that the service serialized comes back as it was.
-/

namespace CoffeeChat.Json
open Cpp Utf8 WeChatApi

variable {F : Type}

mutual

/-- A value as the client looks at it, `toInt` being the conversion of `double` to `int`. -/
def Value.view (toInt : F → Int) : Value F → Option WeChatApi.Json
  | .null => some .null
  | .boolean b => some (.boolean b)
  | .numberInteger n => some (.numberInteger n)
  | .numberUnsigned n => some (.numberUnsigned n)
  | .numberFloat x => some (.numberFloat (toInt x))
  | .string s => if h : Valid s then some (.string ⟨s, h⟩) else none
  | .array elements => (viewElements toInt elements).map .array
  | .object members => (viewMembers toInt members).map .object

def viewElements (toInt : F → Int) : List (Value F) → Option (List WeChatApi.Json)
  | [] => some []
  | v :: vs => do
    let j ← v.view toInt
    let js ← viewElements toInt vs
    return j :: js

def viewMembers (toInt : F → Int) : List (Bytes × Value F) → Option (List (Bytes × WeChatApi.Json))
  | [] => some []
  | (key, v) :: members => do
    let j ← v.view toInt
    let js ← viewMembers toInt members
    return (key, j) :: js

end

variable {fl : Floats F} {toInt : F → Int}

/-! ### What is parsed can be looked at -/

/-- An object of strings. -/
def stringMembers (members : List (Bytes × Bytes)) : List (Bytes × Value F) :=
  members.map fun m => (m.1, .string m.2)

/-- The exception of the client for a fault of the serializer. -/
def typeError316 : Fault → Exception := fun _ => .typeError 316

theorem mapError_bind {ε ε' α β : Type} (e : ε → ε') (x : Except ε α) (f : α → Except ε β) :
    (x >>= f).mapError e = x.mapError e >>= fun a => (f a).mapError e := by
  cases x <;> rfl

theorem dumpString_eq_dumpQuoted (s : Bytes) : dumpString s = (dumpQuoted false s).mapError typeError316 := by
  rw [dumpString_eq_dumpEscaped, dumpQuoted]
  cases dumpEscaped .strict false s <;> rfl

theorem dumpMembers_cons_cons (fl : Floats F) (numberBuffer : Bytes) (m m' : Bytes × Bytes)
    (ms : List (Bytes × Bytes)) :
    (dumpMembers fl false numberBuffer (stringMembers (m :: m' :: ms))).mapError typeError316 = do
      let member ← dumpMember m
      let rest ← (dumpMembers fl false numberBuffer (stringMembers (m' :: ms))).mapError typeError316
      return member ++ 44 :: rest := by
  simp only [stringMembers, List.map_cons, dumpMembers, dumpValue, dumpMember, dumpString_eq_dumpQuoted,
    mapError_bind, bind_assoc, pure_bind]
  rfl

theorem dumpMembers_eq_mapM (fl : Floats F) (numberBuffer : Bytes) (members : List (Bytes × Bytes)) :
    (dumpMembers fl false numberBuffer (stringMembers members)).mapError typeError316 =
      (members.mapM dumpMember).map (List.intercalate [44]) := by
  induction members with
  | nil => rfl
  | cons m ms ih =>
    cases ms with
    | nil =>
      simp only [stringMembers, List.map_cons, List.map_nil, dumpMembers, dumpValue, List.mapM_cons,
        List.mapM_nil, pure_bind, dumpMember, dumpString_eq_dumpQuoted, mapError_bind]
      cases (dumpQuoted false m.1).mapError typeError316 with
      | error e => rfl
      | ok name =>
        cases (dumpQuoted false m.2).mapError typeError316 with
        | error e => rfl
        | ok text => simp [Except.map, Except.mapError, List.intercalate]
    | cons m' ms =>
      have hmap : List.mapM dumpMember (m :: m' :: ms) = (do
          let member ← dumpMember m
          let parts ← List.mapM dumpMember (m' :: ms)
          return member :: parts) := List.mapM_cons
      rw [dumpMembers_cons_cons, ih, hmap]
      cases dumpMember m with
      | error e => rfl
      | ok member =>
        cases hparts : (m' :: ms).mapM dumpMember with
        | error e => rfl
        | ok parts =>
          rw [List.mapM_cons] at hparts
          obtain ⟨part, -, hparts⟩ := bind_eq_ok.1 hparts
          obtain ⟨parts', -, hparts⟩ := bind_eq_ok.1 hparts
          cases hparts
          rfl

/-- The client's `dump` writes what the library does. -/
theorem dump_eq_dumpValue (fl : Floats F) (numberBuffer : Bytes) (members : List (Bytes × Bytes)) :
    dump members = (dumpValue fl false numberBuffer (.object (stringMembers members))).mapError
      typeError316 := by
  rw [dump, dumpValue, mapError_bind, dumpMembers_eq_mapM]
  cases members.mapM dumpMember <;> rfl

end CoffeeChat.Json
