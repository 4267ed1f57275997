import CoffeeChat.Lib.CText
import CoffeeChat.Lib.Lts
import CoffeeChat.Lib.Stream

/-!
# The robot's connection

The loop of the client, which sends a word and waits for the answer, and the inner loop of
`TcpServer::run`, joined by two byte streams. The words come from the user, the answers from a
function that stands for `getAnswer`. Neither side marks where a message ends.

In every run the texts given to `onHandle` are the words cut anywhere (`Flow`); they pair up with the
words exactly in the runs in which every `recv` takes all there is (`robot_pairing`). The client is
answered for sure where no text has the empty answer (`never_stuck_iff`).
-/

namespace CoffeeChat.Robot
open Cpp

/-- `sizeof(recvBuffer)` of the client and `sizeof(buffer)` of the server. -/
def bufferLen : Nat := 1024

/-- What `std::cin >> input` extracts. -/
def IsWord (w : Bytes) : Prop := w ≠ [] ∧ ∀ b ∈ w, isspace b = false

inductive ClientAt where
  | reading
  | receiving
  | closed
  deriving DecidableEq, Repr

inductive ServerAt where
  | receiving
  /-- In `onHandle`, before its `send`. -/
  | replying (text : Bytes)
  | closed
  deriving DecidableEq, Repr

structure State where
  client : ClientAt
  server : ServerAt
  /-- Bytes sent by the client and not yet received. -/
  c2s : Bytes
  s2c : Bytes
  /-- The words the client sent, the texts given to `onHandle` and the texts printed behind `AI:`. -/
  typed : List Bytes
  handled : List Bytes
  printed : List Bytes

inductive Action where
  | type (w : Bytes)
  | exit
  | print (chunk : Bytes)
  | eof
  | take (chunk : Bytes)
  | reply (text : Bytes)
  | hangUp

/-- A step of the client (`type`, `exit`, `print`, `eof`) or of the server. What the server prints of a text
is left out, also where the text fills `buffer` without a zero and the print reads on behind it
(`TcpServer.run` has this case). -/
inductive Step (answer : Bytes → Bytes) : State → Action → State → Prop where
  | type {server c2s s2c typed handled printed w} (hw : IsWord w) (hexit : w ≠ literal "exit") :
      Step answer ⟨.reading, server, c2s, s2c, typed, handled, printed⟩ (.type w)
        ⟨.receiving, server, c2s ++ w, s2c, typed ++ [w], handled, printed⟩
  | exit {server c2s s2c typed handled printed} :
      Step answer ⟨.reading, server, c2s, s2c, typed, handled, printed⟩ .exit
        ⟨.closed, server, c2s, s2c, typed, handled, printed⟩
  | print {server c2s s2c typed handled printed chunk rest} (h : Recv bufferLen s2c chunk rest) :
      Step answer ⟨.receiving, server, c2s, s2c, typed, handled, printed⟩ (.print chunk)
        ⟨.reading, server, c2s, rest, typed, handled, printed ++ [chunk]⟩
  -- the client prints the empty string when `recv` returns 0
  | eof {c2s typed handled printed} :
      Step answer ⟨.receiving, .closed, c2s, [], typed, handled, printed⟩ .eof
        ⟨.reading, .closed, c2s, [], typed, handled, printed ++ [[]]⟩
  | take {client c2s s2c typed handled printed chunk rest} (h : Recv bufferLen c2s chunk rest) :
      Step answer ⟨client, .receiving, c2s, s2c, typed, handled, printed⟩ (.take chunk)
        ⟨client, .replying chunk, rest, s2c, typed, handled ++ [chunk], printed⟩
  | reply {client c2s s2c typed handled printed text} :
      Step answer ⟨client, .replying text, c2s, s2c, typed, handled, printed⟩ (.reply text)
        ⟨client, .receiving, c2s, s2c ++ answer text, typed, handled, printed⟩
  | hangUp {s2c typed handled printed} :
      Step answer ⟨.closed, .receiving, [], s2c, typed, handled, printed⟩ .hangUp
        ⟨.closed, .closed, [], s2c, typed, handled, printed⟩

def State.initial : State := ⟨.reading, .receiving, [], [], [], [], []⟩

def robot (answer : Bytes → Bytes) : Lts State Action := ⟨(· = .initial), Step answer⟩

section Snoc

variable {answer : Bytes → Bytes} {as : List Action} {s s' : State} {a : Action}

variable (answer) in
theorem run_initial : (robot answer).Run [] .initial := .nil rfl

theorem run_snoc (h : (robot answer).Run as s) (hstep : Step answer s a s') :
    (robot answer).Run (as ++ [a]) s' := h.snoc hstep

end Snoc

theorem isWord_hi : IsWord [104, 105] := ⟨by simp, by simp [isspace]⟩

theorem hi_ne_exit : ([104, 105] : Bytes) ≠ literal "exit" := by decide +kernel

theorem recv_hi : Recv bufferLen ([104, 105] : Bytes) [104, 105] [] := .whole (by simp) (by simp [bufferLen])

/-! ### Every run -/

def ServerAt.pending (answer : Bytes → Bytes) : ServerAt → Bytes
  | .replying text => answer text
  | _ => []

/-- What a connection does with the bytes: none is lost, doubled or moved. The client has read
something for every word but the one it waits for. -/
structure Flow (answer : Bytes → Bytes) (s : State) : Prop where
  toServer : s.handled.flatten ++ s.c2s = s.typed.flatten
  toClient : s.printed.flatten ++ s.s2c ++ s.server.pending answer = (s.handled.map answer).flatten
  turns : s.printed.length + (if s.client = .receiving then 1 else 0) = s.typed.length

theorem Flow.initial (answer : Bytes → Bytes) : Flow answer .initial := ⟨rfl, rfl, rfl⟩

theorem Flow.step {answer : Bytes → Bytes} {s s' : State} {a : Action} (h : Flow answer s)
    (hstep : Step answer s a s') : Flow answer s' := by
  obtain ⟨hs, hc, ht⟩ := h
  cases hstep with
  | type => exact ⟨by simp [← hs], hc, by simpa using ht⟩
  | exit => exact ⟨hs, hc, by simpa using ht⟩
  | print hrecv => exact ⟨hs, by simpa [← hrecv.append_eq] using hc, by simpa using ht⟩
  | eof => exact ⟨hs, by simpa using hc, by simpa using ht⟩
  | take hrecv =>
    refine ⟨by simpa [← hrecv.append_eq] using hs, ?_, ht⟩
    simp only [ServerAt.pending, List.append_nil] at hc
    simp [ServerAt.pending, ← hc]
  | reply => exact ⟨hs, by simpa [ServerAt.pending] using hc, ht⟩
  | hangUp => exact ⟨hs, hc, ht⟩

theorem flow_of_run {answer : Bytes → Bytes} {as : List Action} {s : State}
    (h : (robot answer).Run as s) : Flow answer s :=
  h.invariant (fun _ hs => hs ▸ .initial answer) fun _ _ _ h => h.step

/-! ### Runs whose `recv` takes all there is -/

def Full (s : State) : Action → Prop
  | .take chunk => chunk = s.c2s
  | .print chunk => chunk = s.s2c
  | _ => True

/-- Every text given to `onHandle` is the word typed in its place, and every text printed is the
answer to the word in its place. -/
def Paired (answer : Bytes → Bytes) (s : State) : Prop :=
  s.handled <+: s.typed ∧ s.printed <+: s.typed.map answer

/-- Client and server in lock-step, one word at a time. -/
inductive Lockstep (answer : Bytes → Bytes) : State → Prop where
  | idle (ws) : Lockstep answer ⟨.reading, .receiving, [], [], ws, ws, ws.map answer⟩
  | asked (ws w) : Lockstep answer ⟨.receiving, .receiving, w, [], ws ++ [w], ws, ws.map answer⟩
  | thinking (ws w) :
    Lockstep answer ⟨.receiving, .replying w, [], [], ws ++ [w], ws ++ [w], ws.map answer⟩
  | answered (ws w) :
    Lockstep answer ⟨.receiving, .receiving, [], answer w, ws ++ [w], ws ++ [w], ws.map answer⟩
  | exited (ws) : Lockstep answer ⟨.closed, .receiving, [], [], ws, ws, ws.map answer⟩
  | hungUp (ws) : Lockstep answer ⟨.closed, .closed, [], [], ws, ws, ws.map answer⟩

namespace Lockstep
variable {answer : Bytes → Bytes} {s s' : State} {a : Action}

theorem paired (h : Lockstep answer s) : Paired answer s := by
  cases h <;> exact ⟨by simp, by simp⟩

theorem step (h : Lockstep answer s) (hstep : Step answer s a s') (hfull : Full s a) :
    Lockstep answer s' := by
  cases h with
  | idle ws =>
    cases hstep with
    | type => exact .asked ws _
    | exit => exact .exited ws
    | take hrecv => exact hrecv.not_nil.elim
  | asked ws w =>
    cases hstep with
    | print hrecv => exact hrecv.not_nil.elim
    | take hrecv =>
      cases hfull
      cases hrecv.rest_eq_nil
      exact .thinking ws w
  | thinking ws w =>
    cases hstep with
    | print hrecv => exact hrecv.not_nil.elim
    | reply => exact .answered ws w
  | answered ws w =>
    cases hstep with
    | print hrecv =>
      cases hfull
      cases hrecv.rest_eq_nil
      simpa using (Lockstep.idle (ws ++ [w]) : Lockstep answer _)
    | take hrecv => exact hrecv.not_nil.elim
  | exited ws =>
    cases hstep with
    | take hrecv => exact hrecv.not_nil.elim
    | hangUp => exact .hungUp ws
  | hungUp ws => cases hstep

theorem full_of_paired (h : Lockstep answer s) (hstep : Step answer s a s') (hp : Paired answer s') :
    Full s a := by
  obtain ⟨hh, hpr⟩ := hp
  cases hstep with
  | take hrecv =>
    cases h with
    | asked ws w => simpa [Full] using hh
    | _ => exact hrecv.not_nil.elim
  | print hrecv =>
    cases h with
    | answered ws w => simpa [Full] using hpr
    | _ => exact hrecv.not_nil.elim
  | _ => trivial

end Lockstep

/-- What is not paired is never paired again: the histories only grow. -/
theorem paired_of_step {answer : Bytes → Bytes} {s s' : State} {a : Action} (hflow : Flow answer s)
    (hstep : Step answer s a s') (hp : Paired answer s') : Paired answer s := by
  obtain ⟨hh, hpr⟩ := hp
  obtain ⟨hs, -, ht⟩ := hflow
  cases hstep with
  | type hw =>
    refine ⟨(List.prefix_concat_iff.1 hh).resolve_left ?_, ?_⟩
    · rintro rfl
      simp [hw.1] at hs
    · rw [List.map_append] at hpr
      refine (List.prefix_concat_iff.1 hpr).resolve_left ?_
      rintro rfl
      simp at ht
  | print | eof => exact ⟨hh, (List.prefix_append _ _).trans hpr⟩
  | take => exact ⟨(List.prefix_append _ _).trans hh, hpr⟩
  | exit | reply | hangUp => exact ⟨hh, hpr⟩

/-- In every run the texts given to `onHandle`, with what is under way, make up the words that were
typed, and what is printed makes up the answers to these texts. Texts and answers pair up with the
words at the end of a run exactly when every `recv` of the run took all there was. -/
theorem robot_pairing (answer : Bytes → Bytes) {as : List Action} {s : State}
    (h : (robot answer).Run as s) :
    s.handled.flatten ++ s.c2s = s.typed.flatten ∧
      s.printed.flatten ++ s.s2c ++ s.server.pending answer = (s.handled.map answer).flatten ∧
        (Paired answer s ↔ ((robot answer).restrict Full).Run as s) := by
  have hflow := flow_of_run h
  refine ⟨hflow.toServer, hflow.toClient, fun hp => ?_, fun hfull => ?_⟩
  · suffices Lockstep answer s ∧ ((robot answer).restrict Full).Run as s from this.2
    clear hflow
    induction h with
    | nil h => exact ⟨h ▸ .idle [], .nil h⟩
    | snoc h hstep ih =>
      obtain ⟨hlock, hrun⟩ := ih (paired_of_step (flow_of_run h) hstep hp)
      have hfull := hlock.full_of_paired hstep hp
      exact ⟨hlock.step hstep hfull, hrun.snoc ⟨hstep, hfull⟩⟩
  · refine (hfull.invariant (I := Lockstep answer) ?_ ?_).paired
    · rintro _ rfl; exact .idle []
    · exact fun _ _ _ h hs => h.step hs.1 hs.2

theorem robot_pairing_hi : ((robot id).restrict Full).Run
    [.type [104, 105], .take [104, 105], .reply [104, 105], .print [104, 105]]
    ⟨.reading, .receiving, [], [], [[104, 105]], [[104, 105]], [[104, 105]]⟩ := by
  have htyped := run_snoc (run_initial id) (.type isWord_hi hi_ne_exit)
  have hrun := run_snoc (run_snoc (run_snoc htyped (.take recv_hi)) .reply) (.print recv_hi)
  exact (robot_pairing id hrun).2.2.1 ⟨by simp, by simp⟩

/-- One `recv` of the server that returns the first byte of `hi` gives `onHandle` a text that is no
word. -/
theorem not_paired_split : ¬ ∀ (answer : Bytes → Bytes) (as : List Action) (s : State),
    (robot answer).Run as s → Paired answer s := by
  intro h
  have hcut : Recv bufferLen ([104, 105] : Bytes) [104] [105] := ⟨rfl, by simp, by simp [bufferLen]⟩
  have hrun := run_snoc (run_snoc (run_initial id) (.type isWord_hi hi_ne_exit)) (.take hcut)
  exact absurd (h id _ _ hrun).1 (by decide)

/-! ### Waiting for each other -/

def Stuck (s : State) : Prop :=
  s.client = .receiving ∧ s.server = .receiving ∧ s.c2s = [] ∧ s.s2c = []

/-- What the server can be given: bytes of words, as many as its buffer holds. -/
def Receivable (text : Bytes) : Prop :=
  text ≠ [] ∧ text.length ≤ bufferLen ∧ ∀ b ∈ text, isspace b = false

structure Fed (s : State) : Prop where
  c2s : ∀ b ∈ s.c2s, isspace b = false
  text : ∀ text, s.server = .replying text → Receivable text

theorem Fed.initial : Fed .initial := ⟨nofun, nofun⟩

theorem Fed.step {answer : Bytes → Bytes} {s s' : State} {a : Action} (h : Fed s)
    (hstep : Step answer s a s') : Fed s' := by
  obtain ⟨hc, ht⟩ := h
  cases hstep with
  | type hw => exact ⟨fun b hb => (List.mem_append.1 hb).elim (hc b) (hw.2 b), ht⟩
  | take hrecv =>
    refine ⟨fun b hb => hc b (hrecv.mem_rest hb), ?_⟩
    rintro _ ⟨⟩
    exact ⟨hrecv.ne_nil, hrecv.length_le, fun b hb => hc b (hrecv.mem hb)⟩
  | exit | print | eof => exact ⟨hc, ht⟩
  | reply | hangUp => exact ⟨hc, nofun⟩

theorem receivable_of_reply {answer : Bytes → Bytes} {as : List Action} {s : State}
    (h : (robot answer).Run as s) {text : Bytes} (hmem : .reply text ∈ as) : Receivable text := by
  induction h with
  | nil => cases hmem
  | snoc h hstep ih =>
    rcases List.mem_append.1 hmem with hmem | hmem
    · exact ih hmem
    · have hfed : Fed _ := h.invariant (fun _ hs => hs ▸ .initial) fun _ _ _ h hs => h.step hs
      cases List.mem_singleton.1 hmem
      cases hstep
      exact hfed.text text rfl

structure Served (s : State) : Prop where
  waiting : s.client = .receiving → s.c2s ≠ [] ∨ s.s2c ≠ [] ∨ ∃ text, s.server = .replying text
  closed : s.server = .closed → s.client = .closed

theorem Served.step {answer : Bytes → Bytes} {s s' : State} {a : Action} (h : Served s)
    (hstep : Step answer s a s') (hreply : ∀ text, a = .reply text → answer text ≠ []) : Served s' := by
  obtain ⟨hw, hc⟩ := h
  cases hstep with
  | type hword => exact ⟨fun _ => .inl (by simp [hword.1]), fun h => nomatch hc h⟩
  | exit => exact ⟨nofun, fun _ => rfl⟩
  | print => exact ⟨nofun, fun h => nomatch hc h⟩
  | eof => exact nomatch hc rfl
  | take => exact ⟨fun _ => .inr (.inr ⟨_, rfl⟩), nofun⟩
  | reply => exact ⟨fun _ => .inr (.inl (by simp [hreply _ rfl])), nofun⟩
  | hangUp => exact ⟨nofun, fun _ => rfl⟩

theorem Served.not_stuck {s : State} (h : Served s) : ¬ Stuck s := by
  rintro ⟨hclient, hserver, hc, hs⟩
  rcases h.waiting hclient with h | h | ⟨text, h⟩
  · exact h hc
  · exact h hs
  · rw [hserver] at h; cases h

theorem append_self_ne_exit (text : Bytes) : text ++ text ≠ literal "exit" := by
  intro h
  have hexit : literal "exit" = [101, 120, 105, 116] := by decide +kernel
  rw [hexit] at h
  have hlen : text.length = 2 := by
    have := congrArg List.length h
    simp only [List.length_append, List.length_cons, List.length_nil] at this
    omega
  obtain ⟨a, b, rfl⟩ := List.length_eq_two.1 hlen
  simp only [List.cons_append, List.nil_append, List.cons.injEq] at h
  exact absurd (h.1.symm.trans h.2.2.1) (by decide)

/-- A text with the empty answer, sent twice in one word and received in two parts, leaves client and
server waiting for each other. -/
theorem stuck_of_empty_answer (answer : Bytes → Bytes) {text : Bytes} (ht : Receivable text)
    (hempty : answer text = []) : ∃ as s, (robot answer).Run as s ∧ Stuck s := by
  obtain ⟨hne, hlen, hspace⟩ := ht
  have hword : IsWord (text ++ text) := by
    refine ⟨by simp [hne], fun b hb => ?_⟩
    rcases List.mem_append.1 hb with hb | hb <;> exact hspace b hb
  have hfirst : Recv bufferLen (text ++ text) text text := ⟨rfl, hne, hlen⟩
  have hrest : Recv bufferLen text text [] := .whole hne hlen
  -- twice, since the client does not send the word `exit`
  have htyped := run_snoc (run_initial answer) (.type hword (append_self_ne_exit text))
  have hreplied := run_snoc (run_snoc htyped (.take hfirst)) .reply
  have hend := run_snoc (run_snoc hreplied (.take hrest)) .reply
  exact ⟨_, _, hend, rfl, rfl, rfl, by simp [hempty]⟩

theorem not_stuck_of_replies {answer : Bytes → Bytes} {as : List Action} {s : State}
    (h : (robot answer).Run as s) (hreply : ∀ text, .reply text ∈ as → answer text ≠ []) :
    ¬ Stuck s := by
  have hrun := h.restrict (P := fun a => ∀ text, a = .reply text → answer text ≠ [])
    fun a ha text heq => hreply text (heq ▸ ha)
  refine (hrun.invariant (I := Served) ?_ ?_).not_stuck
  · rintro _ rfl; exact ⟨nofun, nofun⟩
  · exact fun _ _ _ h hs => h.step hs.1 hs.2

/-- Client and server wait for each other in no run whose answers are all nonempty; and in no run at
all exactly when no text the server can be given has the empty answer. -/
theorem never_stuck_iff (answer : Bytes → Bytes) :
    (∀ as s, (robot answer).Run as s → (∀ text, .reply text ∈ as → answer text ≠ []) → ¬ Stuck s) ∧
      ((∀ as s, (robot answer).Run as s → ¬ Stuck s) ↔ ∀ text, Receivable text → answer text ≠ []) := by
  refine ⟨fun as s hrun hreply => not_stuck_of_replies hrun hreply, fun h text ht hempty => ?_,
    fun h as s hrun => ?_⟩
  · obtain ⟨as, s, hrun, hstuck⟩ := stuck_of_empty_answer answer ht hempty
    exact h as s hrun hstuck
  · exact not_stuck_of_replies hrun fun text hmem => h text (receivable_of_reply hrun hmem)

/-- A service that answers with the empty string leaves the word `hi` unanswered. -/
theorem not_never_stuck : ¬ ∀ (answer : Bytes → Bytes) (as : List Action) (s : State),
    (robot answer).Run as s → ¬ Stuck s := by
  intro h
  have htyped := run_snoc (run_initial fun _ => []) (.type isWord_hi hi_ne_exit)
  have hrun := run_snoc (run_snoc htyped (.take recv_hi)) .reply
  exact h _ _ _ hrun ⟨rfl, rfl, rfl, rfl⟩

end CoffeeChat.Robot
