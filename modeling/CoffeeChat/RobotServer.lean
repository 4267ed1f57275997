import CoffeeChat.WeChatApi
import Mathlib.Data.List.Count

/-!
# The robot server's answers

`TcpServer::replace_all`, `simple_ai`, `getAnswer`, `onHandle` and the loops of `run`. A wide string
is a list of code points. `replace_all` searches again from the beginning after each replacement, so
its loop carries fuel; for a mark of one code point that the replacement does not have it ends
(`replaceAll_singleton`), and the three loops of `simple_ai` are one pass over the text
(`simpleAi_text`).

A failed request becomes the fallback text, but neither invalid UTF-8 from the client nor a body that
is not of the expected shape does: each leaves `onHandle` as an exception and ends `run`, which before
that reads beyond its buffer to print a text that fills it without a zero (`answered_iff`).
-/

namespace CoffeeChat.TcpServer
open Cpp WeChatApi

/-! ### Wide strings -/

section Replace

variable {α : Type} [DecidableEq α]

def find (mark : List α) : List α → Option Nat
  | [] => if mark = [] then some 0 else none
  | a :: s => if mark <+: a :: s then some 0 else (find mark s).map (· + 1)

def replace (origin : List α) (pos : Nat) (mark replacement : List α) : List α :=
  origin.take pos ++ replacement ++ origin.drop (pos + mark.length)

/-- `TcpServer::replace_all`; none where the loop is still running after `fuel` tests. -/
def replaceAll : Nat → List α → List α → List α → Option (List α)
  | 0, _, _, _ => none
  | fuel + 1, origin, mark, replacement =>
    match find mark origin with
    | none => some origin
    | some pos => replaceAll fuel (replace origin pos mark replacement) mark replacement

theorem find_singleton_cons (c a : α) (s : List α) :
    find [c] (a :: s) = if c = a then some 0 else (find [c] s).map (· + 1) := by
  simp [find]

theorem find_singleton_eq_none {c : α} {s : List α} (h : find [c] s = none) : c ∉ s := by
  induction s with
  | nil => exact List.not_mem_nil
  | cons a s ih =>
    rw [find_singleton_cons] at h
    split at h
    · cases h
    next hne => exact List.not_mem_cons_of_ne_of_not_mem hne (ih (Option.map_eq_none_iff.1 h))

theorem find_singleton_eq_some {c : α} {s : List α} {pos : Nat} (h : find [c] s = some pos) :
    ∃ pre post, s = pre ++ c :: post ∧ c ∉ pre ∧ pre.length = pos := by
  induction s generalizing pos with
  | nil => cases h
  | cons a s ih =>
    rw [find_singleton_cons] at h
    split at h
    next heq =>
      cases h
      exact ⟨[], s, by rw [heq]; rfl, List.not_mem_nil, rfl⟩
    next hne =>
      obtain ⟨pos, hpos, rfl⟩ := Option.map_eq_some_iff.1 h
      obtain ⟨pre, post, rfl, hpre, rfl⟩ := ih hpos
      exact ⟨a :: pre, post, rfl, List.not_mem_cons_of_ne_of_not_mem hne hpre, rfl⟩

def substitute (c : α) (replacement s : List α) : List α :=
  s.flatMap fun a => if a = c then replacement else [a]

theorem substitute_append (c : α) (r s t : List α) :
    substitute c r (s ++ t) = substitute c r s ++ substitute c r t :=
  List.flatMap_append

theorem substitute_of_not_mem {c : α} {s : List α} (h : c ∉ s) (r : List α) : substitute c r s = s := by
  induction s with
  | nil => rfl
  | cons a s ih =>
    simp only [substitute, List.flatMap_cons, if_neg (List.ne_of_not_mem_cons h).symm]
    exact congrArg (a :: ·) (ih (List.not_mem_of_not_mem_cons h))

/-- The loop for a mark of one code point: each round replaces one of its occurrences. -/
theorem replaceAll_singleton {c : α} {r : List α} (hc : c ∉ r) {fuel : Nat} {s : List α}
    (h : s.count c < fuel) : replaceAll fuel s [c] r = some (substitute c r s) := by
  induction fuel generalizing s with
  | zero => omega
  | succ fuel ih =>
    rw [replaceAll]
    split
    next hfind => rw [substitute_of_not_mem (find_singleton_eq_none hfind)]
    next pos hfind =>
      obtain ⟨pre, post, rfl, hpre, rfl⟩ := find_singleton_eq_some hfind
      have hreplace : replace (pre ++ c :: post) pre.length [c] r = pre ++ r ++ post := by
        simp [replace]
      have hcount : (pre ++ r ++ post).count c < fuel := by
        simp only [List.count_append, List.count_cons_self, List.count_eq_zero_of_not_mem hpre,
          List.count_eq_zero_of_not_mem hc] at h ⊢
        omega
      rw [hreplace, ih hcount, substitute_append, substitute_append, substitute_of_not_mem hpre,
        substitute_of_not_mem hc, substitute_append, substitute_of_not_mem hpre]
      simp [substitute]

end Replace

/-! ### Answers -/

/-- `s2ws`: `from_bytes` throws on invalid UTF-8. -/
def s2ws (str : Bytes) : Except Exception (List Char) :=
  match Utf8.decode str with
  | some w_str => return w_str
  | none => throw (.std .rangeError)

def ws2s (w_str : List Char) : Bytes := Utf8.encode w_str

def simpleLoops (fuel : Nat) (str : List Char) : Option (List Char) := do
  let str ← replaceAll fuel str ['吗'] []
  let str ← replaceAll fuel str ['?'] ['!']
  replaceAll fuel str ['？'] ['!']

/-- `TcpServer::simple_ai`; none where a loop has not ended after as many rounds as there are code
points. -/
def simpleAi (text : Bytes) : Except Exception (Option Bytes) := do
  let str ← s2ws text
  return (simpleLoops (str.length + 1) str).map ws2s

def simplified (str : List Char) : List Char :=
  substitute '？' ['!'] (substitute '?' ['!'] (substitute '吗' [] str))

theorem length_substitute_le {c : Char} {r : List Char} (h : r.length ≤ 1) (s : List Char) :
    (substitute c r s).length ≤ s.length := by
  induction s with
  | nil => exact Nat.le_refl _
  | cons a s ih =>
    have hone : (if a = c then r else [a]).length ≤ 1 := by split <;> simp [h]
    have hcons : substitute c r (a :: s) = (if a = c then r else [a]) ++ substitute c r s := rfl
    rw [hcons, List.length_append, List.length_cons]
    omega

theorem simpleLoops_eq (str : List Char) :
    simpleLoops (str.length + 1) str = some (simplified str) := by
  have hfuel : ∀ {c : Char} {s : List Char}, s.length ≤ str.length → s.count c < str.length + 1 :=
    fun h => Nat.lt_succ_of_le (Nat.le_trans List.count_le_length h)
  have h₁ := length_substitute_le (c := '吗') (r := []) (by simp) str
  have h₂ := length_substitute_le (c := '?') (r := ['!']) (by simp) (substitute '吗' [] str)
  rw [simpleLoops, replaceAll_singleton (by simp) (hfuel (Nat.le_refl _)), Option.bind_eq_bind,
    Option.bind_some, replaceAll_singleton (by decide) (hfuel h₁),
    Option.bind_some, replaceAll_singleton (by decide) (hfuel (Nat.le_trans h₂ h₁))]
  rfl

theorem simpleAi_encode (str : List Char) :
    simpleAi (Utf8.encode str) = .ok (some (Utf8.encode (simplified str))) := by
  simp only [simpleAi, s2ws, Utf8.decode_encode, pure_eq_ok, ok_bind, simpleLoops_eq]
  rfl

/-- What `simple_ai` makes of a code point: U+5417 goes, and U+003F and U+FF1F become U+0021. -/
def reply (c : Char) : List Char :=
  if c = '吗' then [] else if c = '?' ∨ c = '？' then ['!'] else [c]

theorem simplified_eq_flatMap (str : List Char) : simplified str = str.flatMap reply := by
  simp only [simplified, substitute, List.flatMap_assoc]
  congr 1
  funext c
  rw [reply]
  by_cases hma : c = '吗'
  · simp [hma]
  · by_cases hmark : c = '?'
    · simp [hmark]
    · by_cases hwide : c = '？'
      · simp [hwide]
      · simp [hma, hmark, hwide]

theorem reply_flatMap_reply (c : Char) : (reply c).flatMap reply = reply c := by
  rw [reply]
  split
  · rfl
  next hma =>
    split
    · decide
    next hmark => rw [List.flatMap_singleton, reply, if_neg hma, if_neg hmark]

/-- The three loops end, together they are one pass over the code points, and a second call changes
nothing. -/
theorem simpleAi_text (text : Utf8.Text) : ∃ str, Utf8.decode text.1 = some str ∧
    simpleAi text.1 = .ok (some (Utf8.encode (str.flatMap reply))) ∧
    simpleAi (Utf8.encode (str.flatMap reply)) = .ok (some (Utf8.encode (str.flatMap reply))) := by
  obtain ⟨_, str, rfl⟩ := text
  have hagain : (str.flatMap reply).flatMap reply = str.flatMap reply := by
    simp only [List.flatMap_assoc, reply_flatMap_reply]
  refine ⟨str, Utf8.decode_encode str, ?_, ?_⟩
  · rw [simpleAi_encode, simplified_eq_flatMap]
  · rw [simpleAi_encode, simplified_eq_flatMap, hagain]

theorem simpleAi_invalid {text : Bytes} (h : ¬ Utf8.Valid text) :
    simpleAi text = .error (.std .rangeError) := by
  simp only [simpleAi, s2ws, Utf8.not_valid_iff.1 h, throw_eq_error, error_bind]

/-- What a call of `WeChatApi::getAnswer` meets: the clock and the outcomes of its posts. -/
structure Env where
  now : Int
  signRes : Option Response
  queryRes : Option Response

def Simple : Int := 1

def UseWeChat : Int := 2

def fallback : Bytes := literal "机器人出错啦，请过一会试试呢"

def getAnswer (parse : Parser) (env : Env) (text : Bytes) (type : Int) (st : Statics) :
    Except Exception (Option Bytes) × Statics :=
  if type = 1 then (simpleAi text, st)
  else
    match WeChatApi.getAnswer parse env.signRes env.queryRes env.now text st with
    | (.error e, st) => (.error e, st)
    | (.ok (some answer), st) => (.ok (some answer), st)
    | (.ok none, st) => (.ok (some fallback), st)

/-- `TcpServer::onHandle`: what it gives to `send`, whose failure it only reports. -/
def onHandle (parse : Parser) (env : Env) (text : Bytes) (st : Statics) :
    Except Exception (Option Bytes) × Statics :=
  getAnswer parse env text UseWeChat st

/-! ### The loops of `run` -/

/-- `sizeof(buffer)`. -/
def bufferSize : Nat := 1024

/-- What `recv` can put into `buffer`. -/
abbrev Received := { text : Bytes // text.length ≤ bufferSize }

/-- `buffer`, zeroed before `recv`. -/
def Received.buffer (text : Received) : Bytes := text.1 ++ List.replicate (bufferSize - text.1.length) 0

inductive At where
  | accepting
  | receiving
  | returned
  /-- `<< buffer` has read behind the end of the buffer. -/
  | overrun
  /-- An exception left `onHandle`, and with it `run` and `main`. -/
  | terminated (e : Exception)
  deriving DecidableEq, Repr

inductive Event where
  | acceptError
  | accepted
  | recvError
  | closed
  | received (text : Received) (env : Env)

/-- `TcpServer::run` from one blocking call to the next. -/
def run (parse : Parser) (event : Event) : At × Statics → At × Statics
  | (.accepting, st) =>
    match event with
    | .acceptError => (.returned, st)
    | .accepted => (.receiving, st)
    | _ => (.accepting, st)
  | (.receiving, st) =>
    match event with
    | .recvError | .closed => (.accepting, st)
    | .received text env =>
      -- `std::cout << "recv: " << buffer`
      match cString text.buffer with
      | .error _ => (.overrun, st)
      | .ok _ =>
        match onHandle parse env text.1 st with
        | (.error e, st) => (.terminated e, st)
        | (.ok _, st) => (.receiving, st)
    | _ => (.receiving, st)
  | (pos, st) => (pos, st)

/-! ### Every failure becomes an answer -/

/-- A text received from a client is answered, by the robot and by `simple_ai`, and `run` goes on. -/
structure Answered (parse : Parser) (env : Env) (text : Received) (st : Statics) : Prop where
  weChat : ∃ answer, (getAnswer parse env text.1 UseWeChat st).1 = .ok (some answer) ∧
    (AnswerField parse env.queryRes answer ∨ answer = fallback)
  simple : ∃ answer, (getAnswer parse env text.1 Simple st).1 = .ok (some answer)
  running : (run parse (.received text env) (.receiving, st)).1 = .receiving

theorem weChat_getAnswer_eq_ok {parse : Parser} {env : Env} {text : Bytes} {st : Statics} :
    (∃ answer, (WeChatApi.getAnswer parse env.signRes env.queryRes env.now text st).1 = .ok answer) ↔
      Utf8.Valid text ∧ (st.asks env.now → Readable parse HasSignature env.signRes) ∧
        Readable parse HasAnswer env.queryRes := by
  rw [WeChatApi.getAnswer, refresh]
  by_cases hasks : st.asks env.now
  · rw [if_pos hasks]
    simp only [hasks, forall_const]
    rcases hget : getSignature parse env.signRes st with ⟨e | b, st'⟩
    · -- an exception of `getSignature` is one of an unreadable response
      have hsign : ¬ Readable parse HasSignature env.signRes := by
        intro h
        obtain ⟨o, ho⟩ := getSignature_of_readable h
        rw [ho] at hget
        cases o <;> cases hget
      simp [hsign]
    · have hsign := readable_of_getSignature hget
      simp only [query_eq_ok, hsign, true_and]
  · rw [if_neg hasks]
    simp only [query_eq_ok, hasks, false_implies, true_and]

section Answered

variable {parse : Parser} {env : Env} {text : Bytes} {st st' : Statics}

theorem getAnswer_of_ok {answer : Option Bytes}
    (h : WeChatApi.getAnswer parse env.signRes env.queryRes env.now text st = (.ok answer, st')) :
    getAnswer parse env text UseWeChat st = (.ok (some (answer.getD fallback)), st') := by
  rw [getAnswer, if_neg (by decide), h]
  cases answer <;> rfl

theorem getAnswer_of_error {e : Exception}
    (h : WeChatApi.getAnswer parse env.signRes env.queryRes env.now text st = (.error e, st')) :
    getAnswer parse env text UseWeChat st = (.error e, st') := by
  rw [getAnswer, if_neg (by decide), h]

theorem getAnswer_eq_ok_iff : (∃ answer, (getAnswer parse env text UseWeChat st).1 = .ok answer) ↔
    ∃ answer, (WeChatApi.getAnswer parse env.signRes env.queryRes env.now text st).1 = .ok answer := by
  rcases hget : WeChatApi.getAnswer parse env.signRes env.queryRes env.now text st with ⟨e | answer, st'⟩
  · simp [getAnswer_of_error hget]
  · simp [getAnswer_of_ok hget]

theorem run_received {text : Received} : (run parse (.received text env) (.receiving, st)).1 =
    match cString text.buffer, (getAnswer parse env text.1 UseWeChat st).1 with
    | .error _, _ => .overrun
    | .ok _, .error e => .terminated e
    | .ok _, .ok _ => .receiving := by
  rcases hprint : cString text.buffer with stop | printed
  · simp only [run, hprint]
  · rcases h : getAnswer parse env text.1 UseWeChat st with ⟨e | answer, st'⟩ <;>
      simp only [run, hprint, onHandle, h]

theorem mem_buffer {text : Received} : 0 ∈ text.buffer ↔ text.1.length < bufferSize ∨ 0 ∈ text.1 := by
  rw [Received.buffer, List.mem_append, List.mem_replicate, or_comm, and_iff_left rfl, Nat.sub_ne_zero_iff_lt]

/-- A text is printed within the buffer if a zero is behind it or in it. -/
theorem cString_buffer {text : Received} (h : text.1.length < bufferSize ∨ 0 ∈ text.1) :
    ∃ printed, cString text.buffer = .ok printed :=
  ⟨_, cString_of_mem (mem_buffer.2 h)⟩

theorem cString_buffer_full {text : Received} (h : ¬ (text.1.length < bufferSize ∨ 0 ∈ text.1)) :
    cString text.buffer = .error .outOfBounds :=
  if_neg (mt mem_buffer.1 h)

end Answered

/-- Every failure becomes an answer exactly for texts of valid UTF-8 that do not fill the buffer without
a zero, where each response with status 200 that is read is null or an object with the members asked
for. -/
theorem answered_iff (parse : Parser) (env : Env) (text : Received) (st : Statics) :
    Answered parse env text st ↔ (text.1.length < bufferSize ∨ 0 ∈ text.1) ∧ Utf8.Valid text.1 ∧
      (st.asks env.now → Readable parse HasSignature env.signRes) ∧
        Readable parse HasAnswer env.queryRes := by
  rw [← weChat_getAnswer_eq_ok]
  constructor
  · rintro ⟨⟨_, h, _⟩, _, hrunning⟩
    refine ⟨?_, getAnswer_eq_ok_iff.1 ⟨_, h⟩⟩
    by_contra hfull
    rw [run_received, cString_buffer_full hfull] at hrunning
    cases hrunning
  · rintro ⟨hroom, h⟩
    obtain ⟨printed, hprint⟩ := cString_buffer hroom
    obtain ⟨⟨str, hstr⟩, -⟩ := weChat_getAnswer_eq_ok.1 h
    rcases hget : WeChatApi.getAnswer parse env.signRes env.queryRes env.now text.1 st with ⟨e | answer, st'⟩
    · simp [hget] at h
    · have hserver := getAnswer_of_ok hget
      have hsimple : simpleAi text.1 = .ok (some (Utf8.encode (simplified str))) := hstr ▸ simpleAi_encode str
      refine ⟨⟨_, by rw [hserver], ?_⟩, ⟨_, hsimple⟩, by rw [run_received, hprint, hserver]⟩
      cases answer with
      | none => exact .inr rfl
      | some answer => exact .inl (answerField_of_getAnswer hget)

/-- The byte `ff`, while the service does not respond: the serialisation of the query throws. -/
theorem not_answered_ff : ¬ ∀ (parse : Parser) (env : Env) (text : Received) (st : Statics),
    Answered parse env text st := by
  intro h
  obtain ⟨answer, hanswer, -⟩ := (h (fun _ => none) ⟨1, none, none⟩ ⟨[255], by decide⟩ .initial).weChat
  have hvalid := (weChat_getAnswer_eq_ok.1 (getAnswer_eq_ok_iff.1 ⟨_, hanswer⟩)).1
  exact absurd hvalid (by decide +kernel)

end CoffeeChat.TcpServer
