import CoffeeChat.JsonParser
import CoffeeChat.JsonString

/-!
# What the parser returns

A parsed value is well formed: its strings and keys are valid UTF-8, the keys of an object are in
strictly increasing order, its integers fit into 64 bits and its other numbers are finite. The parser
never reaches a state that its assertions exclude.
-/

namespace CoffeeChat.Json
open Cpp Utf8

variable {F : Type}

/-- The order of the members of an object. -/
def Ascending (members : List (Bytes × Value F)) : Prop :=
  members.Pairwise fun m m' => keyLess m.1 m'.1

inductive Value.WellFormed (fl : Floats F) : Value F → Prop where
  | null : WellFormed fl .null
  | boolean (b : Bool) : WellFormed fl (.boolean b)
  | numberInteger {n : Int} : -2 ^ 63 ≤ n → n ≤ 0 → WellFormed fl (.numberInteger n)
  | numberUnsigned {n : Nat} : n < 2 ^ 64 → WellFormed fl (.numberUnsigned n)
  | numberFloat {x : F} : fl.isfinite x → WellFormed fl (.numberFloat x)
  | string {s : Bytes} : Valid s → WellFormed fl (.string s)
  | array {elements : List (Value F)} : (∀ v ∈ elements, WellFormed fl v) → WellFormed fl (.array elements)
  | object {members : List (Bytes × Value F)} : Ascending members → (∀ m ∈ members, Valid m.1) →
      (∀ m ∈ members, WellFormed fl m.2) → WellFormed fl (.object members)

/-! ### The order of the keys -/

theorem keyLess_irrefl (k : Bytes) : keyLess k k = false := by
  induction k with
  | nil => rfl
  | cons a k ih => simp [keyLess, ih]

theorem keyLess_cons {a b : UInt8} {k k' : Bytes} :
    keyLess (a :: k) (b :: k') ↔ a < b ∨ a = b ∧ keyLess k k' := by
  simp [keyLess]

theorem keyLess_trans {k₁ k₂ k₃ : Bytes} (h₁ : keyLess k₁ k₂) (h₂ : keyLess k₂ k₃) : keyLess k₁ k₃ := by
  induction k₁ generalizing k₂ k₃ with
  | nil =>
    cases k₃ with
    | nil => cases k₂ <;> cases h₂
    | cons _ _ => rfl
  | cons a k₁ ih =>
    cases k₂ with
    | nil => cases h₁
    | cons b k₂ =>
      cases k₃ with
      | nil => cases h₂
      | cons c k₃ =>
        rw [keyLess_cons] at *
        rcases h₁ with hab | ⟨rfl, h₁⟩ <;> rcases h₂ with hbc | ⟨rfl, h₂⟩
        · exact .inl (UInt8.lt_trans hab hbc)
        · exact .inl hab
        · exact .inl hbc
        · exact .inr ⟨rfl, ih h₁ h₂⟩

/-- Of two different keys one is less. -/
theorem keyLess_total {k k' : Bytes} (h : keyLess k k' = false) (h' : keyLess k' k = false) : k = k' := by
  induction k generalizing k' with
  | nil =>
    cases k' with
    | nil => rfl
    | cons _ _ => cases h
  | cons a k ih =>
    cases k' with
    | nil => cases h'
    | cons b k' =>
      rw [← Bool.not_eq_true, keyLess_cons, not_or] at h h'
      have hab : a = b := UInt8.le_antisymm (UInt8.not_lt.1 h'.1) (UInt8.not_lt.1 h.1)
      subst hab
      rw [ih (by simpa using h.2) (by simpa using h'.2)]

theorem mem_assign {key : Bytes} {v : Value F} {members : List (Bytes × Value F)} {m : Bytes × Value F}
    (h : m ∈ assign key v members) : m = (key, v) ∨ m ∈ members := by
  induction members with
  | nil => exact .inl (List.mem_singleton.1 h)
  | cons m' members ih =>
    rw [assign] at h
    split_ifs at h with hlt hgt
    · exact List.mem_cons.1 h
    · rcases List.mem_cons.1 h with rfl | h
      · exact .inr List.mem_cons_self
      · exact (ih h).imp id (List.mem_cons_of_mem _)
    · have heq : key = m'.1 := keyLess_total (by simpa using hlt) (by simpa using hgt)
      rw [heq]
      exact (List.mem_cons.1 h).imp id (List.mem_cons_of_mem _)

theorem ascending_assign {key : Bytes} {v : Value F} {members : List (Bytes × Value F)}
    (h : Ascending members) : Ascending (assign key v members) := by
  induction members with
  | nil => exact List.pairwise_singleton _ _
  | cons m members ih =>
    obtain ⟨hfirst, hrest⟩ := List.pairwise_cons.1 h
    rw [assign]
    split_ifs with hlt hgt
    · refine List.pairwise_cons.2 ⟨fun m' hm' => ?_, h⟩
      rcases List.mem_cons.1 hm' with rfl | hm'
      · exact hlt
      · exact keyLess_trans hlt (hfirst m' hm')
    · refine List.pairwise_cons.2 ⟨fun m' hm' => ?_, ih hrest⟩
      rcases mem_assign hm' with rfl | hm'
      · exact hgt
      · exact hfirst m' hm'
    · exact List.pairwise_cons.2 ⟨hfirst, hrest⟩

theorem mem_touch {key : Bytes} {members : List (Bytes × Value F)} {m : Bytes × Value F}
    (h : m ∈ touch key members) : m = (key, .null) ∨ m ∈ members := by
  unfold touch at h
  split_ifs at h
  · exact .inr h
  · exact mem_assign h

theorem ascending_touch {key : Bytes} {members : List (Bytes × Value F)} (h : Ascending members) :
    Ascending (touch key members) := by
  unfold touch
  split_ifs
  · exact h
  · exact ascending_assign h

/-! ### Tokens -/

def Token.WellFormed : Token F → Prop
  | .valueString s => Valid s
  | .valueUnsigned n => n < 2 ^ 64
  | .valueInteger n => -2 ^ 63 ≤ n ∧ n ≤ 0
  | _ => True

variable {fl : Floats F}

theorem wellFormed_convertNumber (type : NumberType) (text : Bytes) :
    (convertNumber fl.strtof type text).WellFormed := by
  unfold convertNumber
  split
  · split_ifs with h
    · exact h
    · trivial
  · split_ifs with h
    · exact ⟨by omega, by omega⟩
    · trivial
  · trivial

theorem wellFormed_scanNumber (c : UInt8) (input : Bytes) :
    (scanNumber fl.strtof c input).1.WellFormed := by
  unfold scanNumber
  dsimp only
  split
  · trivial
  · exact wellFormed_convertNumber _ _

theorem wellFormed_scanLiteral {literal input : Bytes} {token : Token F} (h : token.WellFormed) :
    (scanLiteral literal token input).1.WellFormed := by
  unfold scanLiteral
  split
  · exact h
  · trivial

theorem wellFormed_scanToken (input : Bytes) : (scanToken fl.strtof input).1.WellFormed := by
  have hif : ∀ {p : Prop} [Decidable p] {t t' : Token F × Bytes}, t.1.WellFormed → t'.1.WellFormed →
      (if p then t else t').1.WellFormed := by
    intro p _ t t' ht ht'
    split
    · exact ht
    · exact ht'
  unfold scanToken
  split
  · trivial
  next c rest _ =>
    refine hif trivial (hif trivial (hif trivial (hif trivial (hif trivial (hif trivial
      (hif (wellFormed_scanLiteral trivial) (hif (wellFormed_scanLiteral trivial)
      (hif (wellFormed_scanLiteral trivial) (hif ?_ (hif (wellFormed_scanNumber ..)
      (hif trivial trivial)))))))))))
    split
    · trivial
    next h => exact valid_of_scanString h

theorem wellFormed_scanFirst (input : Bytes) : (scanFirst fl.strtof input).1.WellFormed := by
  unfold scanFirst
  split
  · trivial
  · exact wellFormed_scanToken _

/-! ### The invariant of the loop -/

def Frame.isArray : Frame F → Bool
  | .array _ => true
  | .object _ _ => false

/-- A container that is being filled: once an object has a key, the next value has its place. -/
inductive Frame.WellFormed (fl : Floats F) : Frame F → Prop where
  | array {elements : List (Value F)} : (∀ v ∈ elements, v.WellFormed fl) → WellFormed fl (.array elements)
  | object {members : List (Bytes × Value F)} {key : Bytes} : Ascending members →
      (∀ m ∈ members, Valid m.1) → (∀ m ∈ members, m.2.WellFormed fl) → Valid key →
      WellFormed fl (.object members (some key))

theorem Frame.WellFormed.value {frame : Frame F} (h : frame.WellFormed fl) : frame.value.WellFormed fl := by
  cases h with
  | array h => exact .array h
  | object h₁ h₂ h₃ => exact .object h₁ h₂ h₃

/-- The stack of the parser and that of the DOM parser agree. -/
structure Consistent (fl : Floats F) (states : List Bool) (dom : Dom F) : Prop where
  states : states = dom.refStack.map Frame.isArray
  frames : ∀ frame ∈ dom.refStack, frame.WellFormed fl

/-- After a value, which is the root if nothing is open. -/
def Valued (fl : Floats F) (dom : Dom F) : Prop := dom.refStack = [] → dom.root.WellFormed fl

theorem Consistent.handleValue {states : List Bool} {dom : Dom F} (h : Consistent fl states dom)
    {v : Value F} (hv : v.WellFormed fl) :
    ∃ dom', dom.handleValue v = .ok dom' ∧ Consistent fl states dom' ∧ Valued fl dom' := by
  obtain ⟨root, refStack⟩ := dom
  obtain ⟨rfl, hframes⟩ := h
  cases refStack with
  | nil => exact ⟨⟨v, []⟩, rfl, ⟨rfl, fun f hf => absurd hf List.not_mem_nil⟩, fun _ => hv⟩
  | cons frame stack =>
    have hframe := hframes frame List.mem_cons_self
    have hstack : ∀ {frame' : Frame F}, frame'.WellFormed fl → ∀ f ∈ frame' :: stack, f.WellFormed fl := by
      intro frame' hframe' f hf
      rcases List.mem_cons.1 hf with rfl | hf
      · exact hframe'
      · exact hframes f (List.mem_cons_of_mem _ hf)
    cases hframe with
    | @array elements helements =>
      refine ⟨⟨root, .array (elements ++ [v]) :: stack⟩, rfl, ⟨rfl, hstack (.array fun v' hv' => ?_)⟩, nofun⟩
      rcases List.mem_append.1 hv' with hv' | hv'
      · exact helements v' hv'
      · rw [List.mem_singleton.1 hv']
        exact hv
    | @object members key h₁ h₂ h₃ hkey =>
      refine ⟨⟨root, .object (assign key v members) (some key) :: stack⟩, rfl,
        ⟨rfl, hstack (.object (ascending_assign h₁) (fun m hm => ?_) (fun m hm => ?_) hkey)⟩, nofun⟩
      · rcases mem_assign hm with rfl | hm
        · exact hkey
        · exact h₂ m hm
      · rcases mem_assign hm with rfl | hm
        · exact hv
        · exact h₃ m hm

theorem Consistent.finish {state : Bool} {states : List Bool} {dom : Dom F}
    (h : Consistent fl (state :: states) dom) :
    ∃ dom', dom.finish = .ok dom' ∧ Consistent fl states dom' ∧ Valued fl dom' := by
  obtain ⟨root, refStack⟩ := dom
  obtain ⟨hstates, hframes⟩ := h
  cases refStack with
  | nil => cases hstates
  | cons frame stack =>
    obtain ⟨-, rfl⟩ := List.cons.inj hstates
    have hrest : Consistent fl (stack.map Frame.isArray) ⟨root, stack⟩ :=
      ⟨rfl, fun f hf => hframes f (List.mem_cons_of_mem _ hf)⟩
    exact hrest.handleValue (hframes frame List.mem_cons_self).value

theorem Consistent.key {states : List Bool} {dom : Dom F} {members : List (Bytes × Value F)}
    {oldKey : Option Bytes} {stack : List (Frame F)} {key : Bytes}
    (hdom : dom.refStack = .object members oldKey :: stack)
    (h : Consistent fl states { dom with refStack := stack }) (hkey : Valid key) (h₁ : Ascending members)
    (h₂ : ∀ m ∈ members, Valid m.1) (h₃ : ∀ m ∈ members, m.2.WellFormed fl) :
    ∃ dom', dom.key key = .ok dom' ∧ Consistent fl (false :: states) dom' := by
  refine ⟨{ dom with refStack := .object (touch key members) (some key) :: stack }, by rw [Dom.key, hdom]; rfl,
    ?_, fun f hf => ?_⟩
  · rw [h.states]
    rfl
  · rcases List.mem_cons.1 hf with rfl | hf
    · refine .object (ascending_touch h₁) (fun m hm => ?_) (fun m hm => ?_) hkey
      · rcases mem_touch hm with rfl | hm
        · exact hkey
        · exact h₂ m hm
      · rcases mem_touch hm with rfl | hm
        · exact .null
        · exact h₃ m hm
    · exact h.frames f hf

/-- The invariant of the loop: before a value, and, where `skip` is set, behind one. -/
structure Invariant (fl : Floats F) (st : Parsing F) : Prop where
  consistent : Consistent fl st.states st.dom
  token : st.lastToken.WellFormed
  valued : st.skip = true → Valued fl st.dom

/-- What a turn comes to: the invariant again, a well-formed root, or an error of the input. -/
def Good (fl : Floats F) : Turn F → Prop
  | .next st => Invariant fl st
  | .done st => st.dom.root.WellFormed fl
  | .failed e => e ≠ .undefined

theorem wellFormed_getToken (st : Parsing F) : (st.getToken fl).lastToken.WellFormed :=
  wellFormed_scanToken st.input

theorem good_parseKey (st : Parsing F) {members : List (Bytes × Value F)} {oldKey : Option Bytes}
    {stack : List (Frame F)} {states : List Bool} (hdom : st.dom.refStack = .object members oldKey :: stack)
    (h : Consistent fl states { st.dom with refStack := stack }) (htoken : st.lastToken.WellFormed)
    (h₁ : Ascending members) (h₂ : ∀ m ∈ members, Valid m.1) (h₃ : ∀ m ∈ members, m.2.WellFormed fl) :
    (∃ e, parseKey fl st = .error e ∧ e ≠ .undefined) ∨
      ∃ st', parseKey fl st = .ok st' ∧ Consistent fl (false :: states) st'.dom ∧ st'.lastToken.WellFormed ∧
        st'.states = st.states ∧ st'.skip = st.skip := by
  unfold parseKey
  split
  next key hlast =>
    rw [hlast] at htoken
    obtain ⟨dom', hkey, hconsistent⟩ := Consistent.key hdom h htoken h₁ h₂ h₃
    rw [hkey, ok_bind]
    dsimp only
    split
    · exact .inr ⟨_, rfl, hconsistent, wellFormed_getToken _, rfl, rfl⟩
    · exact .inl ⟨_, rfl, nofun⟩
  · exact .inl ⟨_, rfl, nofun⟩

theorem Consistent.object {states : List Bool} {dom : Dom F} (h : Consistent fl (false :: states) dom) :
    ∃ members key stack, dom.refStack = .object members key :: stack ∧
      Consistent fl states { dom with refStack := stack } ∧ Ascending members ∧ (∀ m ∈ members, Valid m.1) ∧
      ∀ m ∈ members, m.2.WellFormed fl := by
  obtain ⟨root, refStack⟩ := dom
  obtain ⟨hstates, hframes⟩ := h
  cases refStack with
  | nil => cases hstates
  | cons frame stack =>
    obtain ⟨harray, rfl⟩ := List.cons.inj hstates
    have hstack : Consistent fl (stack.map Frame.isArray) ⟨root, stack⟩ :=
      ⟨rfl, fun f hf => hframes f (List.mem_cons_of_mem _ hf)⟩
    cases hframes frame List.mem_cons_self with
    | array _ => cases harray
    | object h₁ h₂ h₃ _ => exact ⟨_, _, _, rfl, hstack, h₁, h₂, h₃⟩

theorem good_evaluate (st : Parsing F) (h : Consistent fl st.states st.dom) (hvalued : Valued fl st.dom)
    (hskip : st.skip = false) : Good fl (evaluate fl st) := by
  unfold evaluate
  split
  next hstates =>
    refine hvalued ?_
    have hmap := h.states
    rw [hstates] at hmap
    exact List.map_eq_nil_iff.1 hmap.symm
  next states hstates =>
    dsimp only
    split
    · refine ⟨h, wellFormed_getToken _, fun hs => ?_⟩
      change st.skip = true at hs
      rw [hskip] at hs
      cases hs
    · rw [hstates] at h
      obtain ⟨dom', hfinish, hconsistent, hvalued'⟩ := h.finish
      change Good fl (.ofExcept (st.dom.finish >>= _))
      rw [hfinish]
      exact ⟨hconsistent, wellFormed_getToken _, fun _ => hvalued'⟩
    · exact nofun
  next states hstates =>
    dsimp only
    split
    · rw [hstates] at h
      obtain ⟨members, key, stack, hdom, hstack, h₁, h₂, h₃⟩ := h.object
      rcases good_parseKey ((st.getToken fl).getToken fl) hdom hstack (wellFormed_getToken _) h₁ h₂ h₃ with
        ⟨e, he, hne⟩ | ⟨st', hst', hconsistent, htoken, hstates', hskip'⟩
      · rw [he]
        exact hne
      · rw [hst']
        refine ⟨?_, htoken, fun hs => ?_⟩
        · have heq : st'.states = false :: states := hstates'.trans hstates
          rw [heq]
          exact hconsistent
        · rw [hskip'] at hs
          exact absurd (hskip.symm.trans hs) (by decide)
    · rw [hstates] at h
      obtain ⟨dom', hfinish, hconsistent, hvalued'⟩ := h.finish
      change Good fl (.ofExcept (st.dom.finish >>= _))
      rw [hfinish]
      exact ⟨hconsistent, wellFormed_getToken _, fun _ => hvalued'⟩
    · exact nofun

theorem good_parseScalar {st : Parsing F} (h : Consistent fl st.states st.dom) (hskip : st.skip = false)
    {v : Value F} (hv : v.WellFormed fl) : Good fl (parseScalar fl v st) := by
  obtain ⟨dom', hdom', hconsistent, hvalued⟩ := h.handleValue hv
  rw [parseScalar, hdom']
  exact good_evaluate { st with dom := dom' } hconsistent hvalued hskip

theorem Consistent.pop {states : List Bool} {dom : Dom F} (h : Consistent fl states dom) (frame : Frame F)
    (hvalue : frame.value.WellFormed fl) :
    ∃ dom', (dom.start frame).finish = .ok dom' ∧ Consistent fl states dom' ∧ Valued fl dom' :=
  h.handleValue hvalue

theorem good_parseArray {st : Parsing F} (h : Consistent fl st.states st.dom) (hskip : st.skip = false) :
    Good fl (parseArray fl st) := by
  have hempty : (Frame.array ([] : List (Value F))).WellFormed fl := .array fun v hv => absurd hv List.not_mem_nil
  unfold parseArray
  dsimp only
  split
  · obtain ⟨dom', hdom', hconsistent, hvalued⟩ := h.pop _ hempty.value
    have hfinish : (Parsing.getToken fl { st with dom := st.dom.start (.array []) }).dom.finish = .ok dom' :=
      hdom'
    rw [hfinish]
    exact good_evaluate { Parsing.getToken fl { st with dom := st.dom.start (.array []) } with dom := dom' }
      hconsistent hvalued hskip
  · refine ⟨⟨?_, fun f hf => ?_⟩, wellFormed_getToken _, fun hs => absurd (hskip.symm.trans hs) (by decide)⟩
    · change true :: st.states = _
      rw [h.states]
      rfl
    · rcases List.mem_cons.1 hf with rfl | hf
      · exact hempty
      · exact h.frames f hf

theorem good_parseObject {st : Parsing F} (h : Consistent fl st.states st.dom) (hskip : st.skip = false) :
    Good fl (parseObject fl st) := by
  have hnil : Ascending ([] : List (Bytes × Value F)) := List.Pairwise.nil
  unfold parseObject
  dsimp only
  split
  · obtain ⟨dom', hdom', hconsistent, hvalued⟩ := h.pop (.object [] none)
      (.object hnil (fun m hm => absurd hm List.not_mem_nil) fun m hm => absurd hm List.not_mem_nil)
    have hfinish : (Parsing.getToken fl { st with dom := st.dom.start (.object [] none) }).dom.finish =
        .ok dom' := hdom'
    rw [hfinish]
    exact good_evaluate
      { Parsing.getToken fl { st with dom := st.dom.start (.object [] none) } with dom := dom' }
      hconsistent hvalued hskip
  · rcases good_parseKey (Parsing.getToken fl { st with dom := st.dom.start (.object [] none) }) rfl h
      (wellFormed_getToken _) hnil (fun m hm => absurd hm List.not_mem_nil)
      (fun m hm => absurd hm List.not_mem_nil) with ⟨e, he, hne⟩ | ⟨st', hst', hconsistent, htoken, hstates, hskip'⟩
    · rw [he]
      exact hne
    · rw [hst']
      refine ⟨?_, htoken, fun hs => ?_⟩
      · change Consistent fl (false :: st'.states) st'.dom
        rw [hstates]
        exact hconsistent
      · change st'.skip = true at hs
        rw [hskip'] at hs
        exact absurd (hskip.symm.trans hs) (by decide)

/-- One turn of the loop keeps the invariant. -/
theorem good_saxTurn {st : Parsing F} (h : Invariant fl st) : Good fl (saxTurn fl st) := by
  have htoken := h.token
  unfold saxTurn
  split
  next hskip => exact good_evaluate { st with skip := false } h.consistent (h.valued hskip) rfl
  next hskip =>
    have hskip : st.skip = false := by simpa using hskip
    split
    · exact good_parseObject h.consistent hskip
    · exact good_parseArray h.consistent hskip
    · split
      next hfinite => exact good_parseScalar h.consistent hskip (.numberFloat hfinite)
      · exact nofun
    · exact good_parseScalar h.consistent hskip (.boolean _)
    · exact good_parseScalar h.consistent hskip .null
    · exact good_parseScalar h.consistent hskip (.boolean _)
    next heq =>
      rw [heq] at htoken
      exact good_parseScalar h.consistent hskip (.numberInteger htoken.1 htoken.2)
    next heq =>
      rw [heq] at htoken
      exact good_parseScalar h.consistent hskip (.string htoken)
    next heq =>
      rw [heq] at htoken
      exact good_parseScalar h.consistent hskip (.numberUnsigned htoken)
    · exact nofun
    · exact nofun

theorem good_saxParse {st : Parsing F} (h : Invariant fl st) :
    (∃ st', saxParse fl st = .ok st' ∧ st'.dom.root.WellFormed fl) ∨
      ∃ e, saxParse fl st = .error e ∧ e ≠ .undefined := by
  induction hn : st.measure using Nat.strong_induction_on generalizing st with
  | _ n ih =>
    have hgood := good_saxTurn h
    rw [saxParse]
    split
    next st' hturn =>
      rw [hturn] at hgood
      exact ih _ (by rw [← hn]; exact measure_of_saxTurn hturn) hgood rfl
    next st' hturn =>
      rw [hturn] at hgood
      exact .inl ⟨st', rfl, hgood⟩
    next e hturn =>
      rw [hturn] at hgood
      exact .inr ⟨e, rfl, hgood⟩

/-- Whatever the input, the parser returns a well-formed value or reports an error of the input. -/
theorem parse_spec (fl : Floats F) (input : Bytes) :
    (∃ v, parse fl input = .ok v ∧ v.WellFormed fl) ∨ ∃ e, parse fl input = .error e ∧ e ≠ .undefined := by
  have hstart : Invariant fl
      ⟨(scanFirst fl.strtof input).2, (scanFirst fl.strtof input).1, [], false, ⟨.null, []⟩⟩ :=
    ⟨⟨rfl, fun f hf => absurd hf List.not_mem_nil⟩, wellFormed_scanFirst input, nofun⟩
  unfold parse
  dsimp only
  rcases good_saxParse hstart with ⟨st', hst', hroot⟩ | ⟨e, he, hne⟩
  · rw [hst']
    dsimp only
    split
    · exact .inl ⟨_, rfl, hroot⟩
    · exact .inr ⟨_, rfl, nofun⟩
  · rw [he]
    exact .inr ⟨e, rfl, hne⟩

end CoffeeChat.Json
