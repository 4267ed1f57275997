import CoffeeChat.Lib.Cpp
import CoffeeChat.Lib.Utf8

/-!
# The robot service's client

`WeChatApi`: the signature request, the query, and `getAnswer`, which asks for a signature when it
has none that counts as valid. The three static members are passed along explicitly, an exception
leaves them as they are at that moment. The outcome of an HTTP post is given; the parser of the JSON
library is a parameter, its accessors and its `dump` are written out.
-/

namespace CoffeeChat.WeChatApi
open Cpp

/-- The exceptions that leave these calls: those of the JSON library, by class and number, and those
of the standard library. -/
inductive Exception where
  | parseError
  | typeError (id : Nat)
  | std (e : StdException)
  deriving DecidableEq, Repr

/-! ### JSON values -/

/-- A parsed value. The parser accepts strings of valid UTF-8 only. -/
inductive Json where
  | null
  | boolean (b : Bool)
  | numberInteger (n : Int)
  | numberUnsigned (n : Nat)
  /-- A floating-point number, by its conversion to `int`. -/
  | numberFloat (toInt : Int)
  | string (s : Utf8.Text)
  | array (elements : List Json)
  | object (members : List (Bytes × Json))

namespace Json

/-- `root[key]`: a missing key is added with the value null, and null becomes an object first. -/
def index (key : Bytes) : Json → Except Exception Json
  | null => return null
  | object members => return (members.lookup key).getD null
  | _ => throw (.typeError 305)

def getString : Json → Except Exception Utf8.Text
  | string s => return s
  | _ => throw (.typeError 302)

def getInt : Json → Except Exception Int
  | numberInteger n => return int32 n
  | numberUnsigned n => return int32 n
  | numberFloat n => return n
  | boolean b => return if b then 1 else 0
  | _ => throw (.typeError 302)

end Json

def hexDigit (n : UInt8) : UInt8 := if n < 10 then 48 + n else 87 + n

def escapeByte (b : UInt8) : Bytes :=
  if b = 8 then [92, 98]
  else if b = 9 then [92, 116]
  else if b = 10 then [92, 110]
  else if b = 12 then [92, 102]
  else if b = 13 then [92, 114]
  else if b = 34 then [92, 34]
  else if b = 92 then [92, 92]
  else if b ≤ 31 then [92, 117, 48, 48, hexDigit (b / 16), hexDigit (b % 16)]
  else [b]

def dumpString (s : Bytes) : Except Exception Bytes :=
  if Utf8.Valid s then return 34 :: s.flatMap escapeByte ++ [34]
  else throw (.typeError 316)

def dumpMember (member : Bytes × Bytes) : Except Exception Bytes := do
  let key ← dumpString member.1
  let value ← dumpString member.2
  return key ++ 58 :: value

/-- `dump()` of an object of strings, its members in the order of their keys. -/
def dump (members : List (Bytes × Bytes)) : Except Exception Bytes := do
  let members ← members.mapM dumpMember
  return 123 :: List.intercalate [44] members ++ [125]

/-! ### Requests -/

/-- `httplib::Result` of a post that was answered. -/
structure Response where
  status : Int
  body : Bytes

/-- The parser of the JSON library; it throws where there is no value. -/
abbrev Parser := Bytes → Option Json

def kDefaultUserId : Bytes := literal "20210712"

structure Statics where
  signature_ : Utf8.Text
  signature_time_ : Int
  expires_in_ : Int

def Statics.initial : Statics := ⟨⟨[], .nil⟩, 0, 0⟩

def signBody : Except Exception Bytes :=
  dump [(literal "avatar", []), (literal "userid", kDefaultUserId), (literal "username", kDefaultUserId)]

def queryBody (signature question : Bytes) : Except Exception Bytes :=
  dump [(literal "env", literal "debug"), (literal "query", question), (literal "signature", signature)]

/-- What `getSignature` does with the parsed body of its response. -/
def readSignature (root : Json) (st : Statics) : Except Exception Bool × Statics :=
  match root.index (literal "signature") >>= Json.getString with
  | .error e => (.error e, st)
  | .ok signature =>
    -- assigned before `expiresIn` is read, which may throw
    let st := { st with signature_ := signature }
    match root.index (literal "expiresIn") >>= Json.getInt with
    | .error e => (.error e, st)
    | .ok expiresIn => (.ok true, { st with expires_in_ := expiresIn })

/-- `WeChatApi::getSignature(kRobotToken, signature_, expires_in_)`, `res` being the outcome of its
post. -/
def getSignature (parse : Parser) (res : Option Response) (st : Statics) :
    Except Exception Bool × Statics :=
  match signBody with
  | .error e => (.error e, st)
  | .ok _ =>
    match res with
    | none => (.ok false, st)
    | some res =>
      if res.status = 200 then
        match parse res.body with
        | none => (.error .parseError, st)
        | some .null => (.ok false, st)
        | some root => readSignature root st
      else (.ok false, st)

def readAnswer (root : Json) : Except Exception (Option Bytes) := do
  let answer ← root.index (literal "answer") >>= Json.getString
  return some answer.1

/-- `WeChatApi::query`: the answer, or none where it returns false. -/
def query (parse : Parser) (res : Option Response) (signature question : Bytes) :
    Except Exception (Option Bytes) := do
  let _body ← queryBody signature question
  match res with
  | none => return none
  | some res =>
    if res.status = 200 then
      match parse res.body with
      | none => throw .parseError
      | some .null => return none
      | some root => readAnswer root
    else return none

def Statics.asks (st : Statics) (now : Int) : Prop :=
  st.signature_time_ = 0 ∨ now - st.signature_time_ > st.expires_in_

instance (st : Statics) (now : Int) : Decidable (st.asks now) := inferInstanceAs (Decidable (_ ∨ _))

/-- The first part of `getAnswer`, up to the query. -/
def refresh (getSignature : Statics → Except Exception Bool × Statics) (now : Int) (st : Statics) :
    Except Exception Unit × Statics :=
  if st.asks now then
    match getSignature st with
    | (.error e, st) => (.error e, st)
    -- whether it returned true is not looked at
    | (.ok _, st) => (.ok (), { st with signature_time_ := now })
  else (.ok (), st)

/-- `WeChatApi::getAnswer` at the time `now`, with the outcomes of the posts it may make. -/
def getAnswer (parse : Parser) (signRes queryRes : Option Response) (now : Int) (question : Bytes)
    (st : Statics) : Except Exception (Option Bytes) × Statics :=
  match refresh (getSignature parse signRes) now st with
  | (.error e, st) => (.error e, st)
  | (.ok _, st) => (query parse queryRes st.signature_ question, st)

/-! ### What throws -/

def ValidMember (m : Bytes × Bytes) : Prop := Utf8.Valid m.1 ∧ Utf8.Valid m.2

theorem dumpMember_eq_ok {m : Bytes × Bytes} (h : ValidMember m) : ∃ b, dumpMember m = .ok b := by
  simp only [dumpMember, dumpString, if_pos h.1, if_pos h.2, pure_eq_ok, ok_bind]
  exact ⟨_, rfl⟩

theorem dumpMember_eq_error {m : Bytes × Bytes} (h : ¬ ValidMember m) :
    dumpMember m = .error (.typeError 316) := by
  simp only [dumpMember, dumpString]
  by_cases h₁ : Utf8.Valid m.1
  · have h₂ : ¬ Utf8.Valid m.2 := fun h₂ => h ⟨h₁, h₂⟩
    simp only [if_pos h₁, if_neg h₂, pure_eq_ok, throw_eq_error, ok_bind, error_bind]
  · simp only [if_neg h₁, throw_eq_error, error_bind]

theorem dump_eq_ok {members : List (Bytes × Bytes)} (h : ∀ m ∈ members, ValidMember m) :
    ∃ body, dump members = .ok body := by
  have hparts : ∃ parts, members.mapM dumpMember = .ok parts := by
    induction members with
    | nil => exact ⟨[], rfl⟩
    | cons m ms ih =>
      obtain ⟨b, hb⟩ := dumpMember_eq_ok (h m (by simp))
      obtain ⟨parts, hparts⟩ := ih fun m hm => h m (List.mem_cons_of_mem _ hm)
      exact ⟨b :: parts, by simp only [List.mapM_cons, hb, hparts, ok_bind, pure_eq_ok]⟩
  obtain ⟨parts, hparts⟩ := hparts
  simp only [dump, hparts, ok_bind, pure_eq_ok]
  exact ⟨_, rfl⟩

theorem dump_eq_error {members : List (Bytes × Bytes)} {m : Bytes × Bytes} (hm : m ∈ members)
    (h : ¬ ValidMember m) : dump members = .error (.typeError 316) := by
  have hparts : members.mapM dumpMember = .error (.typeError 316) := by
    induction members with
    | nil => cases hm
    | cons m' ms ih =>
      by_cases h' : ValidMember m'
      · obtain ⟨b, hb⟩ := dumpMember_eq_ok h'
        have hms : m ∈ ms := (List.mem_cons.1 hm).resolve_left (by rintro rfl; exact h h')
        simp only [List.mapM_cons, hb, ih hms, ok_bind, error_bind]
      · simp only [List.mapM_cons, dumpMember_eq_error h', error_bind]
  simp only [dump, hparts, error_bind]

theorem index_getString_eq_ok {root : Json} {key : Bytes} {s : Utf8.Text} :
    (root.index key >>= Json.getString) = .ok s ↔
      ∃ members, root = .object members ∧ members.lookup key = some (.string s) := by
  cases root with
  | object members =>
    simp only [Json.index, pure_eq_ok, ok_bind, Json.object.injEq, exists_eq_left']
    cases members.lookup key with
    | none => simp [Json.getString]
    | some v => cases v <;> simp [Json.getString]
  | _ => simp [Json.index, Json.getString]

theorem index_getInt_eq_ok {root : Json} {key : Bytes} {n : Int} :
    (root.index key >>= Json.getInt) = .ok n ↔
      ∃ members v, root = .object members ∧ members.lookup key = some v ∧ v.getInt = .ok n := by
  cases root with
  | object members =>
    cases h : members.lookup key <;> simp [Json.index, h, Json.getInt]
  | _ => simp [Json.index, Json.getInt]

theorem signBody_eq_ok : ∃ body, signBody = .ok body := by
  refine dump_eq_ok ?_
  simp only [List.forall_mem_cons, ValidMember, kDefaultUserId, Utf8.valid_literal, Utf8.Valid.nil]
  simp

theorem queryBody_eq_ok {signature question : Bytes} (hs : Utf8.Valid signature)
    (hq : Utf8.Valid question) : ∃ body, queryBody signature question = .ok body := by
  refine dump_eq_ok ?_
  simp only [List.forall_mem_cons, ValidMember, Utf8.valid_literal, hs, hq]
  simp

theorem queryBody_eq_error {signature question : Bytes} (hq : ¬ Utf8.Valid question) :
    queryBody signature question = .error (.typeError 316) :=
  dump_eq_error (m := (literal "query", question)) (by simp) fun h => hq h.2

/-! ### Responses that can be read -/

/-- A response with status 200 has a body for which `P` holds, or null. -/
def Readable (parse : Parser) (P : List (Bytes × Json) → Prop) (res : Option Response) : Prop :=
  ∀ r, res = some r → r.status = 200 →
    parse r.body = some .null ∨ ∃ members, parse r.body = some (.object members) ∧ P members

def HasSignature (members : List (Bytes × Json)) : Prop :=
  (∃ s, members.lookup (literal "signature") = some (.string s)) ∧
    ∃ v n, members.lookup (literal "expiresIn") = some v ∧ v.getInt = .ok n

def HasAnswer (members : List (Bytes × Json)) : Prop :=
  ∃ s, members.lookup (literal "answer") = some (.string s)

def AnswerField (parse : Parser) (res : Option Response) (answer : Bytes) : Prop :=
  ∃ r members s, res = some r ∧ r.status = 200 ∧ parse r.body = some (.object members) ∧
    members.lookup (literal "answer") = some (.string s) ∧ answer = s.1

/-- What a request for a signature comes to when it returns. -/
inductive SignOutcome where
  | failed
  | delivered (signature : Utf8.Text) (expiresIn : Int)

def SignOutcome.run : SignOutcome → Statics → Except Exception Bool × Statics
  | failed, st => (.ok false, st)
  | delivered signature expiresIn, st =>
    (.ok true, { st with signature_ := signature, expires_in_ := expiresIn })

/-- Where its response can be read, `getSignature` returns, with one of the two outcomes. -/
theorem getSignature_of_readable {parse : Parser} {res : Option Response}
    (h : Readable parse HasSignature res) :
    ∃ o : SignOutcome, ∀ st, getSignature parse res st = o.run st := by
  obtain ⟨body, hbody⟩ := signBody_eq_ok
  cases res with
  | none => exact ⟨.failed, fun st => by simp [getSignature, hbody, SignOutcome.run]⟩
  | some r =>
    by_cases hstatus : r.status = 200
    · rcases h r rfl hstatus with hnull | ⟨members, hparse, ⟨s, hs⟩, v, n, hv, hn⟩
      · exact ⟨.failed, fun st => by simp [getSignature, hbody, hstatus, hnull, SignOutcome.run]⟩
      · refine ⟨.delivered s n, fun st => ?_⟩
        have hsig := index_getString_eq_ok.2 ⟨members, rfl, hs⟩
        have hexp := index_getInt_eq_ok.2 ⟨members, v, rfl, hv, hn⟩
        simp only [getSignature, hbody, hstatus, hparse, if_true, readSignature, hsig, hexp,
          SignOutcome.run]
    · exact ⟨.failed, fun st => by simp [getSignature, hbody, hstatus, SignOutcome.run]⟩

theorem hasSignature_of_readSignature {root : Json} {st st' : Statics} {b : Bool}
    (h : readSignature root st = (.ok b, st')) :
    ∃ members, root = .object members ∧ HasSignature members := by
  unfold readSignature at h
  split at h
  · cases h
  next s hs =>
    dsimp only at h
    split at h
    · cases h
    next n hn =>
      obtain ⟨members, rfl, hlookup⟩ := index_getString_eq_ok.1 hs
      obtain ⟨_, v, heq, hv, hn⟩ := index_getInt_eq_ok.1 hn
      cases heq
      exact ⟨members, rfl, ⟨s, hlookup⟩, v, n, hv, hn⟩

theorem readable_of_getSignature {parse : Parser} {res : Option Response} {st st' : Statics} {b : Bool}
    (h : getSignature parse res st = (.ok b, st')) : Readable parse HasSignature res := by
  rintro r rfl hstatus
  obtain ⟨body, hbody⟩ := signBody_eq_ok
  simp only [getSignature, hbody, hstatus, if_true] at h
  split at h
  next => cases h
  next hnull => exact .inl hnull
  next root _ hroot =>
    obtain ⟨members, rfl, hmembers⟩ := hasSignature_of_readSignature h
    exact .inr ⟨members, hroot, hmembers⟩

theorem readAnswer_eq_ok {root : Json} {answer : Option Bytes} :
    readAnswer root = .ok answer ↔ ∃ members s, root = .object members ∧
      members.lookup (literal "answer") = some (.string s) ∧ answer = some s.1 := by
  unfold readAnswer
  rw [bind_eq_ok]
  constructor
  · rintro ⟨s, hs, h⟩
    obtain ⟨members, rfl, hlookup⟩ := index_getString_eq_ok.1 hs
    cases h
    exact ⟨members, s, rfl, hlookup, rfl⟩
  · rintro ⟨members, s, rfl, hs, rfl⟩
    exact ⟨s, index_getString_eq_ok.2 ⟨members, rfl, hs⟩, rfl⟩

theorem query_eq_ok {parse : Parser} {res : Option Response} {signature : Utf8.Text} {question : Bytes} :
    (∃ answer, query parse res signature question = .ok answer) ↔
      Utf8.Valid question ∧ Readable parse HasAnswer res := by
  by_cases hq : Utf8.Valid question
  · obtain ⟨body, hbody⟩ := queryBody_eq_ok signature.2 hq
    simp only [hq, true_and, query, hbody, ok_bind]
    cases res with
    | none => simp [Readable]
    | some r =>
      by_cases hstatus : r.status = 200
      · simp only [hstatus, if_true, Readable, Option.some.injEq, forall_eq', forall_const]
        split
        next hparse => simp [hparse]
        next hnull => simp [hnull]
        next root hne hroot =>
          simp only [readAnswer_eq_ok, hroot, Option.some.injEq, HasAnswer]
          constructor
          · rintro ⟨_, members, s, rfl, hs, -⟩; exact .inr ⟨members, rfl, s, hs⟩
          · rintro (hnull | ⟨members, rfl, s, hs⟩)
            · exact absurd hnull hne
            · exact ⟨_, members, s, rfl, hs, rfl⟩
      · simp [hstatus, Readable]
  · simp [hq, query, queryBody_eq_error hq]

theorem answerField_of_query {parse : Parser} {res : Option Response} {signature question answer : Bytes}
    (h : query parse res signature question = .ok (some answer)) : AnswerField parse res answer := by
  obtain ⟨body, -, h⟩ := bind_eq_ok.1 h
  cases res with
  | none => cases h
  | some r =>
    dsimp only at h
    split at h
    next hstatus =>
      split at h
      · cases h
      · cases h
      next root _ hroot =>
        obtain ⟨members, s, rfl, hs, heq⟩ := readAnswer_eq_ok.1 h
        exact ⟨r, members, s, rfl, hstatus, hroot, hs, Option.some.inj heq⟩
    · cases h

theorem answerField_of_getAnswer {parse : Parser} {signRes queryRes : Option Response} {now : Int}
    {question answer : Bytes} {st st' : Statics}
    (h : getAnswer parse signRes queryRes now question st = (.ok (some answer), st')) :
    AnswerField parse queryRes answer := by
  unfold getAnswer at h
  split at h
  · cases h
  · exact answerField_of_query (Prod.mk.inj h).1

end CoffeeChat.WeChatApi
