import CoffeeChat.Lib.Sockets
import Mathlib.Logic.Relation

/-!
# Echo sessions

What an echo service owes to each of its clients, as a system of its own: it takes bytes off the
connection, gives back what it took, and closes the connection when the client has ended it or a call
has failed. Whatever happens in a session, what was sent is, in order, what was received.
-/

namespace Sockets
open Relation

structure Session where
  socket : Socket
  /-- What is read and not yet passed to `send`. -/
  taken : List UInt8

def Session.initial : Session := ⟨.absent, []⟩

inductive Session.Step (s : Session) : Session → Prop where
  | connect (h : s.socket.phase = .absent) : Step s ⟨{ s.socket with phase := .queued }, s.taken⟩
  | deliver (data : List UInt8) (h : s.socket.Alive) (hended : s.socket.ended = false) :
    Step s ⟨{ s.socket with received := s.socket.received ++ data, unread := s.socket.unread ++ data }, s.taken⟩
  | finish (h : s.socket.Alive) : Step s ⟨{ s.socket with ended := true }, s.taken⟩
  | room (b : Bool) (h : s.socket.Alive) : Step s ⟨{ s.socket with writable := b }, s.taken⟩
  | accept (h : s.socket.phase = .queued) : Step s ⟨{ s.socket with phase := .accepted }, s.taken⟩
  | take {data rest : List UInt8} (h : s.socket.phase = .accepted) (htaken : s.taken = [])
      (hunread : s.socket.unread = data ++ rest) : Step s ⟨{ s.socket with unread := rest }, data⟩
  | give {n : Nat} (h : s.socket.phase = .accepted) (hn : n ≤ s.taken.length) :
    Step s ⟨s.socket.give s.taken n, []⟩
  | fail (h : s.socket.phase = .accepted) : Step s ⟨s.socket.fail, []⟩
  | close (h : s.socket.phase = .accepted) (htaken : s.taken = [])
      (hdone : s.socket.failed = true ∨ s.socket.ended = true ∧ s.socket.unread = []) :
    Step s ⟨{ s.socket with phase := .closed }, s.taken⟩
  | abort (h : s.socket.phase ≠ .absent) : Step s ⟨s.socket.abort, []⟩

/-- What holds all along a session. -/
structure Session.Inv (s : Session) : Prop where
  /-- Nothing is invented, repeated or moved. -/
  sublist : (s.socket.sent ++ s.taken ++ s.socket.unread).Sublist s.socket.received
  /-- Nothing is lost, unless a call did not do all of its work. -/
  whole : s.socket.whole = true → s.socket.sent ++ s.taken ++ s.socket.unread = s.socket.received
  failed : s.socket.failed = true → s.socket.whole = false
  early : s.socket.phase = .absent ∨ s.socket.phase = .queued → s.socket.sent = [] ∧ s.taken = []
  closed : s.socket.phase = .closed →
    s.socket.failed = true ∨ s.socket.ended = true ∧ s.socket.unread = [] ∧ s.taken = []

theorem Session.inv_initial : Session.initial.Inv :=
  ⟨List.Sublist.refl _, fun _ => rfl, nofun, fun _ => ⟨rfl, rfl⟩, nofun⟩

theorem not_early {p : Phase} (h : p = .accepted) : ¬ (p = .absent ∨ p = .queued) := by
  subst h
  simp

/-- Losing what is taken leaves the order of the rest as it was. -/
theorem Session.Inv.fail {s : Session} (h : s.Inv) (hphase : s.socket.phase = .accepted) :
    Session.Inv ⟨s.socket.fail, []⟩ := by
  refine ⟨?_, nofun, fun _ => rfl, ?_, fun _ => .inl rfl⟩
  · refine List.Sublist.trans ?_ h.sublist
    rw [List.append_nil]
    exact (List.sublist_append_left _ _).append_right _
  · exact fun hearly => absurd hearly (not_early hphase)

/-- A step of a session keeps its invariant. -/
theorem Session.Step.inv {s s' : Session} (h : s.Step s') (hinv : s.Inv) : s'.Inv := by
  obtain ⟨socket, taken⟩ := s
  obtain ⟨hsublist, hwhole, hfailed, hearly, hclosed⟩ := hinv
  cases h with
  | connect h => exact ⟨hsublist, hwhole, hfailed, fun _ => hearly (.inl h), nofun⟩
  | deliver data h hended =>
    refine ⟨?_, fun hw => ?_, hfailed, hearly, fun hc => ?_⟩
    · dsimp only at hsublist ⊢
      rw [← List.append_assoc]
      exact hsublist.append_right data
    · dsimp only at hw hwhole ⊢
      rw [← List.append_assoc, hwhole hw]
    · dsimp only at hc
      rcases h with h | h <;> rw [hc] at h <;> cases h
  | finish h =>
    refine ⟨hsublist, hwhole, hfailed, hearly, fun hc => ?_⟩
    dsimp only at hc
    rcases h with h | h <;> rw [hc] at h <;> cases h
  | room b h => exact ⟨hsublist, hwhole, hfailed, hearly, hclosed⟩
  | accept h =>
    exact ⟨hsublist, hwhole, hfailed, fun hq => absurd hq (not_early rfl), nofun⟩
  | @take data rest h htaken hunread =>
    dsimp only at h htaken hunread
    subst htaken
    rw [List.append_nil, hunread] at hsublist
    refine ⟨by rwa [List.append_assoc], fun hw => ?_, hfailed, fun hq => ?_, fun hc => ?_⟩
    · have heq := hwhole hw
      dsimp only at heq
      rw [List.append_nil, hunread] at heq
      rwa [List.append_assoc]
    · exact absurd hq (not_early h)
    · dsimp only at hc
      rw [h] at hc
      cases hc
  | @give n h hn =>
    dsimp only at h hn
    refine ⟨?_, fun hw => ?_, fun hf => ?_, fun hq => ?_, fun hc => ?_⟩
    · refine List.Sublist.trans ?_ hsublist
      rw [Socket.give, List.append_nil]
      exact (List.Sublist.append_left (List.take_sublist n taken) _).append_right _
    · obtain ⟨hw, hlen⟩ := Bool.and_eq_true_iff.1 hw
      have heq := hwhole hw
      rw [Socket.give, List.append_nil, List.take_of_length_le (Nat.le_of_eq (beq_iff_eq.1 hlen).symm)]
      exact heq
    · have hw := hfailed hf
      dsimp only at hw
      rw [Socket.give, hw]
      rfl
    · exact absurd hq (not_early h)
    · change socket.phase = .closed at hc
      rw [h] at hc
      cases hc
  | fail h => exact Session.Inv.fail ⟨hsublist, hwhole, hfailed, hearly, hclosed⟩ h
  | close h htaken hdone =>
    dsimp only at h htaken hdone
    subst htaken
    refine ⟨hsublist, hwhole, hfailed, fun hq => ?_, fun _ => ?_⟩
    · rcases hq with hq | hq <;> cases hq
    · exact hdone.imp id fun hdone => ⟨hdone.1, hdone.2, rfl⟩
  | abort h =>
    rw [Socket.abort, if_neg h]
    refine ⟨?_, nofun, fun _ => rfl, fun hq => ?_, fun _ => .inl rfl⟩
    · refine List.Sublist.trans ?_ hsublist
      rw [List.append_nil]
      exact (List.sublist_append_left _ _).append_right _
    · rcases hq with hq | hq <;> cases hq

theorem Session.inv_of_steps {s : Session} (h : ReflTransGen Session.Step .initial s) : s.Inv := by
  induction h with
  | refl => exact Session.inv_initial
  | tail _ hstep ih => exact hstep.inv ih

/-- What a client gets. -/
structure Socket.Echoed (s : Socket) : Prop where
  queued : s.phase = .queued → s.sent = []
  /-- It is, in order, part of what it sent. -/
  sublist : s.sent.Sublist s.received
  /-- Nothing is left out before the end, if no call failed and all of them sent everything. -/
  isPrefix : s.whole = true → s.sent <+: s.received
  /-- A connection is closed by a failure, or once its client has ended it and has everything. -/
  closed : s.phase = .closed → s.whole = true → s.ended = true ∧ s.sent = s.received

theorem Session.Inv.echoed {s : Session} (h : s.Inv) : s.socket.Echoed := by
  refine ⟨fun hq => (h.early (.inr hq)).1, ?_, fun hw => ?_, fun hc hw => ?_⟩
  · refine List.Sublist.trans ?_ h.sublist
    rw [List.append_assoc]
    exact List.sublist_append_left _ _
  · rw [← h.whole hw, List.append_assoc]
    exact List.prefix_append _ _
  · rcases h.closed hc with hfailed | ⟨hended, hunread, htaken⟩
    · rw [h.failed hfailed] at hw
      cases hw
    · have heq := h.whole hw
      rw [hunread, htaken, List.append_nil, List.append_nil] at heq
      exact ⟨hended, heq⟩

end Sockets
