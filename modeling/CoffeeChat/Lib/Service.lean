import CoffeeChat.Lib.Session

/-!
# Programs that serve connections

A program keeps to the discipline if it can say, in each of its states, which descriptors it holds and
what it has taken from them. Then, in every run, whatever the clients do, it holds the descriptors that
are open, and each connection goes through a session (`Disciplined.run`).
-/

universe u

namespace Sockets
open Relation

/-! ### The discipline -/

/-- What a program is doing with a descriptor that it holds. -/
inductive Task where
  /-- Nothing is taken. It may be closed once a call has failed or has found the end. -/
  | idle (closing : Bool)
  | sending (data : List UInt8)
  deriving DecidableEq, Repr

def Task.data : Task → List UInt8
  | .idle _ => []
  | .sending data => data

/-- By descriptor. -/
abbrev Tasks := Nat → Option Task

def Permitted (tasks : Tasks) : Call → Prop
  | .getpeername fd => ∃ closing, tasks fd = some (.idle closing)
  | .recv fd size => 0 < size ∧ ∃ closing, tasks fd = some (.idle closing)
  | .send fd data => tasks fd = some (.sending data)
  | .close fd => tasks fd = some (.idle true)
  | _ => True

/-- What a permitted call may return. -/
inductive Possible (tasks : Tasks) : Call → Ret → Prop where
  | acceptError : Possible tasks .accept .error
  | accept {fd : Nat} (hfree : tasks fd = none) : Possible tasks .accept (.descriptor fd)
  | selectError (fds : List Nat) : Possible tasks (.select fds) .error
  | select {fds ready : List Nat} (listen : Bool) (hready : ready ⊆ fds) :
    Possible tasks (.select fds) (.ready listen ready)
  | getpeernameError (fd : Nat) : Possible tasks (.getpeername fd) .error
  | getpeername (fd : Nat) : Possible tasks (.getpeername fd) .done
  | recvError (fd size : Nat) : Possible tasks (.recv fd size) .error
  | recvEof (fd size : Nat) : Possible tasks (.recv fd size) .eof
  | recv (fd : Nat) {size : Nat} {data : List UInt8} (hne : data ≠ []) (hsize : data.length ≤ size) :
    Possible tasks (.recv fd size) (.data data)
  | sendError (fd : Nat) (data : List UInt8) : Possible tasks (.send fd data) .error
  | send (fd n : Nat) (data : List UInt8) : Possible tasks (.send fd data) (.sent n)
  | close (fd : Nat) : Possible tasks (.close fd) .done
  | exit : Possible tasks .exit .done

def after (tasks : Tasks) : Call → Ret → Tasks
  | .accept, .descriptor fd => Function.update tasks fd (some (.idle false))
  | .getpeername fd, .error => Function.update tasks fd (some (.idle true))
  | .recv fd _, .data data => Function.update tasks fd (some (.sending data))
  | .recv fd _, _ => Function.update tasks fd (some (.idle true))
  | .send fd _, .sent _ => Function.update tasks fd (some (.idle false))
  | .send fd _, _ => Function.update tasks fd (some (.idle true))
  | .close fd, _ => Function.update tasks fd none
  | .exit, _ => fun _ => none
  | _, _ => tasks

/-- The program may forget that a descriptor may be closed. -/
def Forgets (tasks tasks' : Tasks) : Prop :=
  ∀ fd, tasks' fd = tasks fd ∨ tasks fd = some (.idle true) ∧ tasks' fd = some (.idle false)

theorem Forgets.refl (tasks : Tasks) : Forgets tasks tasks := fun _ => .inl rfl

/-- A program whose calls are permitted, `tasks` being what it holds and `I` an invariant of its own. -/
structure Disciplined {P : Type u} (prog : Program P) (tasks : P → Tasks) (I : P → Prop) : Prop where
  init : I prog.init
  tasks_init : tasks prog.init = fun _ => none
  permitted : ∀ {p call next}, I p → (call, next) ∈ prog.offers p → Permitted (tasks p) call
  step : ∀ {p call next ret}, I p → (call, next) ∈ prog.offers p → Possible (tasks p) call ret →
    I (next ret) ∧ Forgets (after (tasks p) call ret) (tasks (next ret))

/-! ### The kernel under a disciplined program -/

/-- The connections before `a` have been accepted, the others are in the backlog. -/
structure Ordered (k : Kernel) (a : Nat) : Prop where
  le : a ≤ k.count
  backlog : k.backlog = List.range' a (k.count - a)
  absent : ∀ c, k.count ≤ c → k.socket c = .absent
  queued : ∀ c, a ≤ c → c < k.count → (k.socket c).phase = .queued
  served : ∀ c, c < a → (k.socket c).phase = .accepted ∨ (k.socket c).phase = .closed

/-- The program holds the descriptors that are open, one for each accepted connection. -/
structure Sound (k : Kernel) (tasks : Tasks) : Prop where
  owned : ∀ fd, (k.owner fd).isSome = (tasks fd).isSome
  inj : ∀ fd fd' c, k.owner fd = some c → k.owner fd' = some c → fd = fd'
  accepted : ∀ c, (k.socket c).phase = .accepted ↔ ∃ fd, k.owner fd = some c
  ordered : ∃ a, Ordered k a
  closing : ∀ fd c, k.owner fd = some c → tasks fd = some (.idle true) →
    (k.socket c).failed = true ∨ (k.socket c).ended = true ∧ (k.socket c).unread = []

/-- The session that the connection `c` is going through. -/
structure Views (k : Kernel) (tasks : Tasks) (c : Nat) (s : Session) : Prop where
  socket : s.socket = k.socket c
  taken : ∀ fd task, k.owner fd = some c → tasks fd = some task → s.taken = task.data
  free : (∀ fd, k.owner fd ≠ some c) → s.taken = []

/-- Changing a socket's contents. -/
theorem Ordered.modify {k : Kernel} {a c : Nat} (h : Ordered k a) (hc : (k.socket c).phase ≠ .absent)
    {f : Socket → Socket} (hphase : ∀ s, (f s).phase = s.phase) : Ordered (k.modify c f) a := by
  have hphases : ∀ c', ((k.modify c f).socket c').phase = (k.socket c').phase := by
    intro c'
    by_cases heq : c' = c
    · subst heq
      rw [modify_socket_self, hphase]
    · rw [modify_socket_of_ne heq]
  refine ⟨h.le, h.backlog, fun c' hc' => ?_, fun c' h₁ h₂ => ?_, fun c' hc' => ?_⟩
  · have hne : c' ≠ c := by
      rintro rfl
      rw [h.absent c' hc'] at hc
      exact hc rfl
    rw [modify_socket_of_ne hne]
    exact h.absent c' hc'
  · rw [hphases]
    exact h.queued c' h₁ h₂
  · rw [hphases]
    exact h.served c' hc'

theorem Sound.task {k : Kernel} {tasks : Tasks} (h : Sound k tasks) {fd c : Nat} (hfd : k.owner fd = some c) :
    ∃ task, tasks fd = some task := by
  have howned := h.owned fd
  rw [hfd] at howned
  exact Option.isSome_iff_exists.1 howned.symm

theorem Sound.phase {k : Kernel} {tasks : Tasks} (h : Sound k tasks) {fd c : Nat} (hfd : k.owner fd = some c) :
    (k.socket c).phase = .accepted := (h.accepted c).2 ⟨fd, hfd⟩

theorem ne_absent {s : Socket} (h : s.Alive) : s.phase ≠ .absent := by
  rcases h with h | h <;> rw [h] <;> decide

/-! ### Clients -/

/-- What may be closed stays so. -/
def Socket.Done (s : Socket) : Prop := s.failed = true ∨ s.ended = true ∧ s.unread = []

theorem Sound.modify_client {k : Kernel} {tasks : Tasks} (h : Sound k tasks) {c : Nat} (halive : (k.socket c).Alive)
    {f : Socket → Socket} (hphase : ∀ s, (f s).phase = s.phase) (hdone : (k.socket c).Done → (f (k.socket c)).Done) :
    Sound (k.modify c f) tasks := by
  obtain ⟨a, hordered⟩ := h.ordered
  refine ⟨h.owned, h.inj, fun c' => ?_, ⟨a, hordered.modify (ne_absent halive) hphase⟩, fun fd c' hfd htask => ?_⟩
  · by_cases heq : c' = c
    · subst heq
      rw [modify_socket_self, hphase]
      exact h.accepted c'
    · rw [modify_socket_of_ne heq]
      exact h.accepted c'
  · by_cases heq : c' = c
    · subst heq
      rw [modify_socket_self]
      exact hdone (h.closing fd c' hfd htask)
    · rw [modify_socket_of_ne heq]
      exact h.closing fd c' hfd htask

theorem Views.modify_client {k : Kernel} {tasks : Tasks} {c c' : Nat} {s : Session} (hviews : Views k tasks c' s)
    {f : Socket → Socket} (hstep : ∀ taken, Session.Step ⟨k.socket c, taken⟩ ⟨f (k.socket c), taken⟩) :
    ∃ s', ReflTransGen Session.Step s s' ∧ Views (k.modify c f) tasks c' s' := by
  obtain ⟨socket, taken⟩ := s
  obtain ⟨rfl, htaken, hfree⟩ := hviews
  by_cases heq : c' = c
  · subst heq
    exact ⟨⟨f (k.socket c'), taken⟩, .single (hstep taken), modify_socket_self.symm, htaken, hfree⟩
  · exact ⟨⟨k.socket c', taken⟩, .refl, (modify_socket_of_ne heq).symm, htaken, hfree⟩

theorem Ordered.connect {k : Kernel} {a : Nat} (h : Ordered k a) : Ordered
    { k with
      count := k.count + 1
      backlog := k.backlog ++ [k.count]
      socket := Function.update k.socket k.count { Socket.absent with phase := .queued } } a := by
  have hle := h.le
  refine ⟨Nat.le_succ_of_le hle, ?_, fun c hc => ?_, fun c h₁ h₂ => ?_, fun c hc => ?_⟩
  · have hlen : k.count + 1 - a = k.count - a + 1 := by omega
    have hlast : a + (k.count - a) = k.count := by omega
    dsimp only
    rw [hlen, List.range'_concat, Nat.one_mul, hlast, h.backlog]
  · dsimp only at hc ⊢
    rw [Function.update_of_ne (by omega)]
    exact h.absent c (by omega)
  · dsimp only at h₂ ⊢
    by_cases heq : c = k.count
    · subst heq
      rw [Function.update_self]
    · rw [Function.update_of_ne heq]
      exact h.queued c h₁ (by omega)
  · dsimp only
    rw [Function.update_of_ne (by omega)]
    exact h.served c hc

theorem Sound.not_owned {k : Kernel} {tasks : Tasks} (h : Sound k tasks) {c : Nat}
    (hphase : (k.socket c).phase ≠ .accepted) (fd : Nat) : k.owner fd ≠ some c :=
  fun hfd => hphase (h.phase hfd)

theorem Sound.event {k k' : Kernel} {tasks : Tasks} {e : Event} (h : Sound k tasks) (he : k.Happens e k') :
    Sound k' tasks := by
  cases he with
  | connect hlisten =>
    obtain ⟨a, hordered⟩ := h.ordered
    have habsent := hordered.absent k.count (Nat.le_refl _)
    have hnew : ∀ fd, k.owner fd ≠ some k.count := h.not_owned (by rw [habsent]; decide)
    refine ⟨h.owned, h.inj, fun c => ?_, ⟨a, hordered.connect⟩, fun fd c hfd htask => ?_⟩
    · by_cases heq : c = k.count
      · subst heq
        dsimp only
        rw [Function.update_self]
        exact iff_of_false nofun fun ⟨fd, hfd⟩ => hnew fd hfd
      · dsimp only
        rw [Function.update_of_ne heq]
        exact h.accepted c
    · have hne : c ≠ k.count := by
        rintro rfl
        exact hnew fd hfd
      dsimp only
      rw [Function.update_of_ne hne]
      exact h.closing fd c hfd htask
  | deliver data halive hended =>
    refine h.modify_client halive (fun _ => rfl) fun hdone => ?_
    rcases hdone with hdone | ⟨hdone, -⟩
    · exact .inl hdone
    · rw [hended] at hdone
      cases hdone
  | finish halive => exact h.modify_client halive (fun _ => rfl) fun hdone => hdone.imp id fun hdone => ⟨rfl, hdone.2⟩
  | room b halive => exact h.modify_client halive (fun _ => rfl) id

theorem Views.event {k k' : Kernel} {tasks : Tasks} {e : Event} (h : Sound k tasks) (he : k.Happens e k')
    {c : Nat} {s : Session} (hviews : Views k tasks c s) :
    ∃ s', ReflTransGen Session.Step s s' ∧ Views k' tasks c s' := by
  cases he with
  | connect hlisten =>
    obtain ⟨a, hordered⟩ := h.ordered
    have habsent := hordered.absent k.count (Nat.le_refl _)
    obtain ⟨socket, taken⟩ := s
    obtain ⟨rfl, htaken, hfree⟩ := hviews
    by_cases heq : c = k.count
    · subst heq
      refine ⟨_, .single (.connect (by dsimp only; rw [habsent]; rfl)), ?_, htaken, hfree⟩
      dsimp only
      rw [Function.update_self, habsent]
    · exact ⟨⟨k.socket c, taken⟩, .refl, (Function.update_of_ne heq ..).symm, htaken, hfree⟩
  | deliver data halive hended => exact hviews.modify_client fun taken => .deliver data halive hended
  | finish halive => exact hviews.modify_client fun taken => .finish halive
  | room b halive => exact hviews.modify_client fun taken => .room b halive

/-! ### Calls -/

theorem Sound.modify {k : Kernel} {tasks : Tasks} (h : Sound k tasks) {fd c : Nat} (hfd : k.owner fd = some c)
    (f : Socket → Socket) (task : Task) (hphase : ∀ s, (f s).phase = s.phase)
    (hclosing : task = .idle true → (f (k.socket c)).Done) :
    Sound (k.modify c f) (Function.update tasks fd (some task)) := by
  obtain ⟨a, hordered⟩ := h.ordered
  have hne : (k.socket c).phase ≠ .absent := by
    rw [h.phase hfd]
    decide
  refine ⟨fun fd' => ?_, h.inj, fun c' => ?_, ⟨a, hordered.modify hne hphase⟩, fun fd' c' hfd' htask => ?_⟩
  · by_cases heq : fd' = fd
    · subst heq
      rw [Function.update_self, modify_owner, hfd]
      rfl
    · rw [Function.update_of_ne heq]
      exact h.owned fd'
  · by_cases heq : c' = c
    · subst heq
      rw [modify_socket_self, hphase]
      exact h.accepted c'
    · rw [modify_socket_of_ne heq]
      exact h.accepted c'
  · by_cases heq : fd' = fd
    · subst heq
      rw [Function.update_self] at htask
      have hc : c = c' := Option.some.inj (hfd.symm.trans hfd')
      subst hc
      rw [modify_socket_self]
      exact hclosing (Option.some.inj htask)
    · rw [Function.update_of_ne heq] at htask
      have hc : c' ≠ c := by
        rintro rfl
        exact heq (h.inj _ _ _ hfd' hfd)
      rw [modify_socket_of_ne hc]
      exact h.closing fd' c' hfd' htask

theorem Views.modify {k : Kernel} {tasks : Tasks} (h : Sound k tasks) {fd c : Nat} (hfd : k.owner fd = some c)
    {old : Task} (hold : tasks fd = some old) (f : Socket → Socket) (task : Task)
    (hstep : Session.Step ⟨k.socket c, old.data⟩ ⟨f (k.socket c), task.data⟩) {c' : Nat} {s : Session}
    (hviews : Views k tasks c' s) :
    ∃ s', ReflTransGen Session.Step s s' ∧ Views (k.modify c f) (Function.update tasks fd (some task)) c' s' := by
  obtain ⟨socket, taken⟩ := s
  obtain ⟨rfl, htaken, hfree⟩ := hviews
  by_cases heq : c' = c
  · subst heq
    have hdata : taken = old.data := htaken fd old hfd hold
    subst hdata
    refine ⟨_, .single hstep, modify_socket_self.symm, fun fd' task' hfd' htask' => ?_, fun hnone => ?_⟩
    · have hsame : fd' = fd := h.inj _ _ _ hfd' hfd
      subst hsame
      rw [Function.update_self] at htask'
      cases htask'
      rfl
    · exact absurd hfd (hnone fd)
  · refine ⟨⟨k.socket c', taken⟩, .refl, (modify_socket_of_ne heq).symm, fun fd' task' hfd' htask' => ?_, hfree⟩
    have hne : fd' ≠ fd := by
      rintro rfl
      exact heq (Option.some.inj (hfd'.symm.trans hfd))
    rw [Function.update_of_ne hne] at htask'
    exact htaken fd' task' hfd' htask'

theorem Sound.not_closed {k : Kernel} {tasks : Tasks} (h : Sound k tasks) {call : Call} {fd : Nat}
    (hperm : Permitted tasks call) (hfd : call = .getpeername fd ∨ (∃ size, call = .recv fd size) ∨
      (∃ data, call = .send fd data) ∨ call = .close fd) : k.owner fd ≠ none := by
  have hsome : (tasks fd).isSome := by
    rcases hfd with rfl | ⟨size, rfl⟩ | ⟨data, rfl⟩ | rfl
    · obtain ⟨closing, htask⟩ := hperm
      rw [htask]
      rfl
    · obtain ⟨-, closing, htask⟩ := hperm
      rw [htask]
      rfl
    · rw [show tasks fd = _ from hperm]
      rfl
    · rw [show tasks fd = _ from hperm]
      rfl
  intro hnone
  rw [← h.owned fd, hnone] at hsome
  cases hsome

theorem Sound.possible {k k' : Kernel} {tasks : Tasks} {call : Call} {ret : Ret} (h : Sound k tasks)
    (hperm : Permitted tasks call) (hret : k.Returns call ret k') : Possible tasks call ret := by
  cases hret with
  | acceptError => exact .acceptError
  | @accept c cs fd hbacklog hfree =>
    refine .accept ?_
    rw [← Option.not_isSome_iff_eq_none, ← h.owned fd, hfree]
    exact Bool.false_ne_true
  | selectError fds => exact .selectError fds
  | select hready => exact .select _ (List.filter_subset_self _)
  | badDescriptor hfd hclosed => exact absurd hclosed (h.not_closed hperm hfd)
  | getpeernameError hfd => exact .getpeernameError _
  | getpeername hfd => exact .getpeername _
  | recvError hfd => exact .recvError _ _
  | recvEof hfd hempty hended => exact .recvEof _ _
  | recv hfd hunread hne hsize => exact .recv _ hne hsize
  | sendError hfd => exact .sendError _ _
  | send hfd hwritable hn => exact .send _ _ _
  | close hfd => exact .close _
  | exit => exact .exit

theorem Ordered.grant {k : Kernel} {a c : Nat} {cs : List Nat} (h : Ordered k a) (fd : Nat) (hbacklog : k.backlog = c :: cs) :
    a = c ∧ c < k.count ∧ Ordered (k.grant fd c cs) (c + 1) := by
  have hrange := h.backlog
  rw [hbacklog] at hrange
  have hlt : a < k.count := by
    by_contra hge
    rw [Nat.sub_eq_zero_of_le (by omega)] at hrange
    cases hrange
  obtain ⟨n, hn⟩ : ∃ n, k.count - a = n + 1 := ⟨k.count - a - 1, by omega⟩
  rw [hn, List.range'_succ] at hrange
  obtain ⟨rfl, rfl⟩ := List.cons.inj hrange
  refine ⟨rfl, hlt, hlt, ?_, fun c' hc' => ?_, fun c' h₁ h₂ => ?_, fun c' hc' => ?_⟩
  · rw [grant_backlog, grant_count, show k.count - (c + 1) = n by omega]
  · rw [grant_count] at hc'
    rw [grant_socket_of_ne (by omega)]
    exact h.absent c' hc'
  · rw [grant_socket_of_ne (by omega)]
    exact h.queued c' (by omega) h₂
  · by_cases heq : c' = c
    · subst heq
      rw [grant_socket_self]
      exact .inl rfl
    · rw [grant_socket_of_ne heq]
      exact h.served c' (by omega)

theorem Sound.accept {k : Kernel} {tasks : Tasks} (h : Sound k tasks) {c : Nat} {cs : List Nat} {fd : Nat}
    (hbacklog : k.backlog = c :: cs) (hfree : k.owner fd = none) :
    Sound (k.grant fd c cs) (Function.update tasks fd (some (.idle false))) := by
  obtain ⟨a, hordered⟩ := h.ordered
  obtain ⟨rfl, hlt, hordered'⟩ := hordered.grant fd hbacklog
  have hqueued := hordered.queued a (Nat.le_refl a) hlt
  have hnew : ∀ fd, k.owner fd ≠ some a := h.not_owned (by rw [hqueued]; decide)
  have hother : ∀ {fd' c'}, fd' ≠ fd → (k.grant fd a cs).owner fd' = some c' → k.owner fd' = some c' := by
    intro fd' c' hne hfd'
    rwa [grant_owner, Function.update_of_ne hne] at hfd'
  have hself : (k.grant fd a cs).owner fd = some a := by
    rw [grant_owner, Function.update_self]
  refine ⟨fun fd' => ?_, fun fd₁ fd₂ c' h₁ h₂ => ?_, fun c' => ?_, ⟨a + 1, hordered'⟩, fun fd' c' hfd' htask => ?_⟩
  · by_cases heq : fd' = fd
    · rw [heq, hself, Function.update_self]
      rfl
    · rw [grant_owner, Function.update_of_ne heq, Function.update_of_ne heq]
      exact h.owned fd'
  · by_cases heq₁ : fd₁ = fd <;> by_cases heq₂ : fd₂ = fd
    · rw [heq₁, heq₂]
    · rw [heq₁, hself] at h₁
      cases h₁
      exact absurd (hother heq₂ h₂) (hnew fd₂)
    · rw [heq₂, hself] at h₂
      cases h₂
      exact absurd (hother heq₁ h₁) (hnew fd₁)
    · exact h.inj _ _ _ (hother heq₁ h₁) (hother heq₂ h₂)
  · by_cases heq : c' = a
    · subst heq
      rw [grant_socket_self]
      exact iff_of_true rfl ⟨fd, hself⟩
    · rw [grant_socket_of_ne heq]
      refine (h.accepted c').trans ⟨fun ⟨fd', hfd'⟩ => ⟨fd', ?_⟩, fun ⟨fd', hfd'⟩ => ⟨fd', hother ?_ hfd'⟩⟩
      · rwa [grant_owner, Function.update_of_ne]
        rintro rfl
        rw [hfree] at hfd'
        cases hfd'
      · rintro rfl
        rw [hself] at hfd'
        exact heq (Option.some.inj hfd').symm
  · by_cases heq : fd' = fd
    · rw [heq, Function.update_self] at htask
      cases htask
    · rw [Function.update_of_ne heq] at htask
      have hne : c' ≠ a := by
        rintro rfl
        exact hnew fd' (hother heq hfd')
      rw [grant_socket_of_ne hne]
      exact h.closing fd' c' (hother heq hfd') htask

theorem of_release {k : Kernel} {fd c fd' c' : Nat} (h : (k.release fd c).owner fd' = some c') :
    fd' ≠ fd ∧ k.owner fd' = some c' := by
  rw [release_owner] at h
  have hne : fd' ≠ fd := by
    rintro rfl
    rw [Function.update_self] at h
    cases h
  rw [Function.update_of_ne hne] at h
  exact ⟨hne, h⟩

theorem Ordered.release {k : Kernel} {a c fd : Nat} (h : Ordered k a) (hphase : (k.socket c).phase = .accepted) :
    Ordered (k.release fd c) a := by
  have hlt : c < a := by
    by_contra hge
    by_cases hc : c < k.count
    · rw [h.queued c (by omega) hc] at hphase
      cases hphase
    · rw [h.absent c (by omega)] at hphase
      cases hphase
  have hle := h.le
  refine ⟨hle, h.backlog, fun c' hc' => ?_, fun c' h₁ h₂ => ?_, fun c' hc' => ?_⟩
  · rw [release_count] at hc'
    rw [release_socket_of_ne (by omega)]
    exact h.absent c' hc'
  · rw [release_socket_of_ne (by omega)]
    exact h.queued c' h₁ h₂
  · by_cases heq : c' = c
    · subst heq
      rw [release_socket_self]
      exact .inr rfl
    · rw [release_socket_of_ne heq]
      exact h.served c' hc'

theorem Sound.close {k : Kernel} {tasks : Tasks} (h : Sound k tasks) {fd c : Nat} (hfd : k.owner fd = some c) :
    Sound (k.release fd c) (Function.update tasks fd none) := by
  obtain ⟨a, hordered⟩ := h.ordered
  refine ⟨fun fd' => ?_, fun fd₁ fd₂ c' h₁ h₂ => h.inj _ _ _ (of_release h₁).2 (of_release h₂).2, fun c' => ?_,
    ⟨a, hordered.release (h.phase hfd)⟩, fun fd' c' hfd' htask => ?_⟩
  · rw [release_owner]
    by_cases heq : fd' = fd
    · rw [heq, Function.update_self, Function.update_self]
      rfl
    · rw [Function.update_of_ne heq, Function.update_of_ne heq]
      exact h.owned fd'
  · by_cases heq : c' = c
    · subst heq
      rw [release_socket_self]
      exact iff_of_false nofun fun ⟨fd', hfd'⟩ => (of_release hfd').1 (h.inj _ _ _ (of_release hfd').2 hfd)
    · rw [release_socket_of_ne heq]
      refine (h.accepted c').trans ⟨fun ⟨fd', hfd'⟩ => ⟨fd', ?_⟩, fun ⟨fd', hfd'⟩ => ⟨fd', (of_release hfd').2⟩⟩
      rwa [release_owner, Function.update_of_ne]
      rintro rfl
      exact heq (Option.some.inj (hfd'.symm.trans hfd))
  · obtain ⟨hne, hfd''⟩ := of_release hfd'
    rw [Function.update_of_ne hne] at htask
    have hc : c' ≠ c := by
      rintro rfl
      exact hne (h.inj _ _ _ hfd'' hfd)
    rw [release_socket_of_ne hc]
    exact h.closing fd' c' hfd'' htask

theorem Socket.abort_phase {s : Socket} (h : s.phase ≠ .absent) : s.abort.phase = .closed := by
  rw [Socket.abort, if_neg h]

theorem Sound.exit {k : Kernel} {tasks : Tasks} (h : Sound k tasks) : Sound k.exit fun _ => none := by
  obtain ⟨a, hordered⟩ := h.ordered
  have habsent : ∀ c, k.count ≤ c → k.exit.socket c = .absent := by
    intro c hc
    change (k.socket c).abort = .absent
    rw [hordered.absent c hc]
    rfl
  have hclosed : ∀ c, c < k.count → (k.exit.socket c).phase = .closed := by
    intro c hc
    refine Socket.abort_phase ?_
    by_cases hlt : c < a
    · rcases hordered.served c hlt with hphase | hphase <;> rw [hphase] <;> decide
    · rw [hordered.queued c (by omega) hc]
      decide
  refine ⟨fun _ => rfl, nofun, fun c => iff_of_false ?_ nofun, ⟨k.count, ⟨Nat.le_refl _, ?_, habsent,
    fun c h₁ h₂ => absurd h₂ (Nat.not_lt.2 h₁), fun c hc => .inr (hclosed c hc)⟩⟩, nofun⟩
  · by_cases hc : c < k.count
    · rw [hclosed c hc]
      decide
    · rw [habsent c (by omega)]
      decide
  · change [] = List.range' k.count (k.count - k.count)
    rw [Nat.sub_self]
    rfl

theorem Sound.call {k k' : Kernel} {tasks : Tasks} {call : Call} {ret : Ret} (h : Sound k tasks)
    (hperm : Permitted tasks call) (hret : k.Returns call ret k') : Sound k' (after tasks call ret) := by
  cases hret with
  | acceptError => exact h
  | accept hbacklog hfree => exact h.accept hbacklog hfree
  | selectError fds => exact h
  | select hready => exact h
  | badDescriptor hfd hclosed => exact absurd hclosed (h.not_closed hperm hfd)
  | getpeernameError hfd => exact h.modify hfd .fail (.idle true) (fun _ => rfl) fun _ => .inl rfl
  | getpeername hfd => exact h
  | recvError hfd => exact h.modify hfd .fail (.idle true) (fun _ => rfl) fun _ => .inl rfl
  | recvEof hfd hempty hended =>
    have hmodify := h.modify hfd id (.idle true) (fun _ => rfl) fun _ => .inr ⟨hended, hempty⟩
    rwa [Kernel.modify, id, Function.update_eq_self] at hmodify
  | @recv fd c size data rest hfd hunread hne hsize =>
    exact h.modify hfd _ (.sending data) (fun _ => rfl) nofun
  | sendError hfd => exact h.modify hfd .fail (.idle true) (fun _ => rfl) fun _ => .inl rfl
  | @send fd c n data hfd hwritable hn => exact h.modify hfd (.give data n) (.idle false) (fun _ => rfl) nofun
  | close hfd => exact h.close hfd
  | exit => exact h.exit

theorem Views.accept {k : Kernel} {tasks : Tasks} (h : Sound k tasks) {c c' : Nat} {cs : List Nat} {fd : Nat}
    (hbacklog : k.backlog = c :: cs) (hfree : k.owner fd = none) {s : Session} (hviews : Views k tasks c' s) :
    ∃ s', ReflTransGen Session.Step s s' ∧
      Views (k.grant fd c cs) (Function.update tasks fd (some (.idle false))) c' s' := by
  obtain ⟨a, hordered⟩ := h.ordered
  obtain ⟨rfl, hlt, -⟩ := hordered.grant fd hbacklog
  have hqueued := hordered.queued a (Nat.le_refl a) hlt
  have hnew : ∀ fd, k.owner fd ≠ some a := h.not_owned (by rw [hqueued]; decide)
  obtain ⟨socket, taken⟩ := s
  obtain ⟨rfl, htaken, hnone⟩ := hviews
  by_cases heq : c' = a
  · subst heq
    have hempty : taken = [] := hnone hnew
    subst hempty
    refine ⟨_, .single (.accept hqueued), grant_socket_self.symm, fun fd' task hfd' htask => ?_, fun _ => rfl⟩
    have hsame : fd' = fd := by
      by_contra hne
      rw [grant_owner, Function.update_of_ne hne] at hfd'
      exact hnew fd' hfd'
    rw [hsame, Function.update_self] at htask
    cases htask
    rfl
  · refine ⟨_, .refl, (grant_socket_of_ne heq).symm, fun fd' task hfd' htask => ?_, fun hnone' => hnone fun fd' => ?_⟩
    · have hne : fd' ≠ fd := by
        rintro rfl
        rw [grant_owner, Function.update_self] at hfd'
        exact heq (Option.some.inj hfd').symm
      rw [grant_owner, Function.update_of_ne hne] at hfd'
      rw [Function.update_of_ne hne] at htask
      exact htaken fd' task hfd' htask
    · intro hfd'
      have hne : fd' ≠ fd := by
        rintro rfl
        rw [hfree] at hfd'
        cases hfd'
      exact hnone' fd' (by rwa [grant_owner, Function.update_of_ne hne])

theorem Views.close {k : Kernel} {tasks : Tasks} (h : Sound k tasks) {fd c c' : Nat} (hfd : k.owner fd = some c)
    (htask : tasks fd = some (.idle true)) {s : Session} (hviews : Views k tasks c' s) :
    ∃ s', ReflTransGen Session.Step s s' ∧ Views (k.release fd c) (Function.update tasks fd none) c' s' := by
  obtain ⟨socket, taken⟩ := s
  obtain ⟨rfl, htaken, hnone⟩ := hviews
  by_cases heq : c' = c
  · subst heq
    have hempty : taken = [] := htaken fd _ hfd htask
    subst hempty
    refine ⟨_, .single (.close (h.phase hfd) rfl (h.closing fd c' hfd htask)), release_socket_self.symm,
      fun fd' task hfd' _ => ?_, fun _ => rfl⟩
    exact absurd (h.inj _ _ _ (of_release hfd').2 hfd) (of_release hfd').1
  · refine ⟨_, .refl, (release_socket_of_ne heq).symm, fun fd' task hfd' htask' => ?_, fun hnone' => hnone fun fd' => ?_⟩
    · obtain ⟨hne, hfd''⟩ := of_release hfd'
      rw [Function.update_of_ne hne] at htask'
      exact htaken fd' task hfd'' htask'
    · intro hfd'
      have hne : fd' ≠ fd := by
        rintro rfl
        exact heq (Option.some.inj (hfd'.symm.trans hfd))
      exact hnone' fd' (by rwa [release_owner, Function.update_of_ne hne])

theorem Views.exit {k : Kernel} {tasks : Tasks} {c : Nat} {s : Session} (hviews : Views k tasks c s)
    (hinv : s.Inv) : ∃ s', ReflTransGen Session.Step s s' ∧ Views k.exit (fun _ => none) c s' := by
  obtain ⟨socket, taken⟩ := s
  obtain ⟨rfl, -, -⟩ := hviews
  by_cases habsent : (k.socket c).phase = .absent
  · have hempty := (hinv.early (.inl habsent)).2
    refine ⟨_, .refl, ?_, nofun, fun _ => hempty⟩
    change k.socket c = (k.socket c).abort
    rw [Socket.abort, if_pos habsent]
  · exact ⟨_, .single (.abort habsent), rfl, nofun, fun _ => rfl⟩

theorem Views.call {k k' : Kernel} {tasks : Tasks} {call : Call} {ret : Ret} (h : Sound k tasks)
    (hperm : Permitted tasks call) (hret : k.Returns call ret k') {c' : Nat} {s : Session} (hinv : s.Inv)
    (hviews : Views k tasks c' s) :
    ∃ s', ReflTransGen Session.Step s s' ∧ Views k' (after tasks call ret) c' s' := by
  cases hret with
  | acceptError => exact ⟨s, .refl, hviews⟩
  | accept hbacklog hfree => exact hviews.accept h hbacklog hfree
  | selectError fds => exact ⟨s, .refl, hviews⟩
  | select hready => exact ⟨s, .refl, hviews⟩
  | badDescriptor hfd hclosed => exact absurd hclosed (h.not_closed hperm hfd)
  | getpeernameError hfd =>
    obtain ⟨closing, htask⟩ := hperm
    exact hviews.modify h hfd htask .fail (.idle true) (.fail (h.phase hfd))
  | getpeername hfd => exact ⟨s, .refl, hviews⟩
  | recvError hfd =>
    obtain ⟨-, closing, htask⟩ := hperm
    exact hviews.modify h hfd htask .fail (.idle true) (.fail (h.phase hfd))
  | @recvEof fd c size hfd hempty hended =>
    obtain ⟨-, closing, htask⟩ := hperm
    refine ⟨s, .refl, hviews.socket, fun fd' task hfd' htask' => ?_, hviews.free⟩
    by_cases heq : fd' = fd
    · subst heq
      rw [show after tasks (.recv fd' size) .eof fd' = some (.idle true) from Function.update_self ..] at htask'
      cases htask'
      exact hviews.taken fd' (.idle closing) hfd' htask
    · rw [show after tasks (.recv fd size) .eof fd' = tasks fd' from Function.update_of_ne heq ..] at htask'
      exact hviews.taken fd' task hfd' htask'
  | @recv fd c size data rest hfd hunread hne hsize =>
    obtain ⟨-, closing, htask⟩ := hperm
    exact hviews.modify h hfd htask _ (.sending data) (.take (h.phase hfd) rfl hunread)
  | @sendError fd c data hfd => exact hviews.modify h hfd hperm .fail (.idle true) (.fail (h.phase hfd))
  | @send fd c n data hfd hwritable hn =>
    exact hviews.modify h hfd hperm (.give data n) (.idle false) (.give (h.phase hfd) hn)
  | @close fd c hfd => exact hviews.close h hfd hperm
  | exit => exact hviews.exit hinv

theorem Sound.forget {k : Kernel} {tasks tasks' : Tasks} (h : Sound k tasks) (hforgets : Forgets tasks tasks') :
    Sound k tasks' := by
  refine ⟨fun fd => ?_, h.inj, h.accepted, h.ordered, fun fd c hfd htask => ?_⟩
  · rw [h.owned fd]
    rcases hforgets fd with heq | ⟨htask, htask'⟩
    · rw [heq]
    · rw [htask, htask']
      rfl
  · rcases hforgets fd with heq | ⟨-, htask'⟩
    · exact h.closing fd c hfd (by rw [← heq, htask])
    · rw [htask'] at htask
      cases htask

theorem Views.forget {k : Kernel} {tasks tasks' : Tasks} {c : Nat} {s : Session} (h : Views k tasks c s)
    (hforgets : Forgets tasks tasks') : Views k tasks' c s := by
  refine ⟨h.socket, fun fd task hfd htask => ?_, h.free⟩
  rcases hforgets fd with heq | ⟨hold, hnew⟩
  · exact h.taken fd task hfd (by rw [← heq, htask])
  · rw [hnew] at htask
    cases htask
    exact h.taken fd (.idle true) hfd hold

/-! ### Runs -/

section Runs

variable {P : Type u} {prog : Program P} {tasks : P → Tasks} {I : P → Prop}

/-- Each connection goes through a session. -/
def Sessions (k : Kernel) (tasks : Tasks) : Prop :=
  ∀ c, ∃ s, ReflTransGen Session.Step .initial s ∧ Views k tasks c s

theorem sound_initial : Sound .initial fun _ => none :=
  ⟨fun _ => rfl, nofun, fun _ => iff_of_false nofun nofun, ⟨0, ⟨Nat.le_refl 0, rfl, fun _ _ => rfl,
    fun _ _ h => absurd h (Nat.not_lt_zero _), fun _ h => absurd h (Nat.not_lt_zero _)⟩⟩, nofun⟩

theorem sessions_initial : Sessions .initial fun _ => none :=
  fun _ => ⟨.initial, .refl, rfl, nofun, fun _ => rfl⟩

theorem Sessions.step {k k' : Kernel} {t t' : Tasks} (h : Sessions k t)
    (hstep : ∀ c s, s.Inv → Views k t c s → ∃ s', ReflTransGen Session.Step s s' ∧ Views k' t' c s') :
    Sessions k' t' := by
  intro c
  obtain ⟨s, hs, hviews⟩ := h c
  obtain ⟨s', hs', hviews'⟩ := hstep c s (Session.inv_of_steps hs) hviews
  exact ⟨s', hs.trans hs', hviews'⟩

/-- In every run, a disciplined program holds what is open, and each connection goes through a session. -/
theorem Disciplined.run (hd : Disciplined prog tasks I) {as : List Action} {s : Kernel × P}
    (h : prog.system.Run as s) : I s.2 ∧ Sound s.1 (tasks s.2) ∧ Sessions s.1 (tasks s.2) := by
  refine h.invariant (I := fun s => I s.2 ∧ Sound s.1 (tasks s.2) ∧ Sessions s.1 (tasks s.2)) ?_ ?_
  · rintro s rfl
    rw [hd.tasks_init]
    exact ⟨hd.init, sound_initial, sessions_initial⟩
  · rintro s a s' ⟨hI, hsound, hsessions⟩ hstep
    cases hstep with
    | event p he => exact ⟨hI, hsound.event he, hsessions.step fun c s _ hviews => hviews.event hsound he⟩
    | @call k k' p call next ret hoffer hret =>
      have hperm := hd.permitted hI hoffer
      obtain ⟨hI', hforgets⟩ := hd.step hI hoffer (hsound.possible hperm hret)
      refine ⟨hI', (hsound.call hperm hret).forget hforgets, hsessions.step fun c s hinv hviews => ?_⟩
      obtain ⟨s', hsteps, hviews'⟩ := hviews.call hsound hperm hret hinv
      exact ⟨s', hsteps, hviews'.forget hforgets⟩

/-- What every client gets of a disciplined program. -/
theorem Disciplined.echoed (hd : Disciplined prog tasks I) {as : List Action} {s : Kernel × P}
    (h : prog.system.Run as s) (c : Nat) : (s.1.socket c).Echoed := by
  obtain ⟨session, hsteps, hviews⟩ := (hd.run h).2.2 c
  rw [← hviews.socket]
  exact (Session.inv_of_steps hsteps).echoed

end Runs

end Sockets
