import CoffeeChat.Lib.Lts
import Mathlib.Logic.Function.Basic

/-!
# Stream sockets

The kernel's side of a process that listens: connections, numbered in the order of their arrival, wait
in the backlog, are accepted under a descriptor that is free, and are closed. What a client sends
stands in `unread` until it is read. Programs are given by the calls they make and what they do with
what a call returns; a program with several threads offers one call for each of them.
-/

universe u

namespace Sockets

inductive Phase where
  | absent
  | queued
  | accepted
  | closed
  deriving DecidableEq, Repr

/-- The server's end of a connection. -/
structure Socket where
  phase : Phase
  /-- All that has arrived. -/
  received : List UInt8
  /-- What has arrived and is not read. -/
  unread : List UInt8
  sent : List UInt8
  /-- The client has closed or reset the connection. -/
  ended : Bool
  /-- There is room for what is sent. -/
  writable : Bool
  /-- A call has returned -1. -/
  failed : Bool
  /-- No call has failed, and all of them have sent everything. -/
  whole : Bool
  deriving DecidableEq, Repr

def Socket.absent : Socket := ⟨.absent, [], [], [], false, true, false, true⟩

/-- A call for it returns -1. -/
def Socket.fail (s : Socket) : Socket := { s with failed := true, whole := false }

/-- `n` bytes of `data` are sent. -/
def Socket.give (data : List UInt8) (n : Nat) (s : Socket) : Socket :=
  { s with sent := s.sent ++ data.take n, whole := s.whole && n == data.length }

/-- The process is gone. -/
def Socket.abort (s : Socket) : Socket :=
  if s.phase = .absent then s else { s.fail with phase := .closed }

def Socket.Alive (s : Socket) : Prop := s.phase = .queued ∨ s.phase = .accepted

/-- A call that reads from it does not block. -/
def Socket.Readable (s : Socket) : Prop := s.unread ≠ [] ∨ s.ended = true

instance (s : Socket) : Decidable s.Readable := inferInstanceAs (Decidable (_ ∨ _))

structure Kernel where
  /-- The listening socket is open. -/
  listening : Bool
  /-- How many connections there have been. -/
  count : Nat
  /-- The connections that are completed and not accepted, oldest first. -/
  backlog : List Nat
  /-- The open descriptors. -/
  owner : Nat → Option Nat
  socket : Nat → Socket

def Kernel.initial : Kernel := ⟨true, 0, [], fun _ => none, fun _ => .absent⟩

def Kernel.modify (c : Nat) (f : Socket → Socket) (k : Kernel) : Kernel :=
  { k with socket := Function.update k.socket c (f (k.socket c)) }

/-- The connection is accepted under the descriptor `fd`. -/
def Kernel.grant (fd c : Nat) (cs : List Nat) (k : Kernel) : Kernel :=
  { k with backlog := cs, owner := Function.update k.owner fd (some c) }.modify c fun s => { s with phase := .accepted }

def Kernel.release (fd c : Nat) (k : Kernel) : Kernel :=
  { k with owner := Function.update k.owner fd none }.modify c fun s => { s with phase := .closed }

/-- The process ends. -/
def Kernel.exit (k : Kernel) : Kernel :=
  { k with listening := false, backlog := [], owner := fun _ => none, socket := fun c => (k.socket c).abort }

section Fields

variable {k : Kernel} {c c' fd : Nat} {cs : List Nat} {f : Socket → Socket}

@[simp] theorem modify_socket_self : (k.modify c f).socket c = f (k.socket c) := Function.update_self ..

theorem modify_socket_of_ne (h : c' ≠ c) : (k.modify c f).socket c' = k.socket c' := Function.update_of_ne h ..

@[simp] theorem modify_owner : (k.modify c f).owner = k.owner := rfl

@[simp] theorem modify_count : (k.modify c f).count = k.count := rfl

@[simp] theorem modify_backlog : (k.modify c f).backlog = k.backlog := rfl

@[simp] theorem grant_owner : (k.grant fd c cs).owner = Function.update k.owner fd (some c) := rfl

@[simp] theorem grant_count : (k.grant fd c cs).count = k.count := rfl

@[simp] theorem grant_backlog : (k.grant fd c cs).backlog = cs := rfl

@[simp] theorem grant_socket_self : (k.grant fd c cs).socket c = { k.socket c with phase := .accepted } :=
  modify_socket_self

theorem grant_socket_of_ne (h : c' ≠ c) : (k.grant fd c cs).socket c' = k.socket c' := modify_socket_of_ne h

@[simp] theorem release_owner : (k.release fd c).owner = Function.update k.owner fd none := rfl

@[simp] theorem release_count : (k.release fd c).count = k.count := rfl

@[simp] theorem release_backlog : (k.release fd c).backlog = k.backlog := rfl

@[simp] theorem release_socket_self : (k.release fd c).socket c = { k.socket c with phase := .closed } :=
  modify_socket_self

theorem release_socket_of_ne (h : c' ≠ c) : (k.release fd c).socket c' = k.socket c' := modify_socket_of_ne h

end Fields

/-! ### Clients -/

inductive Event where
  | connect
  | deliver (c : Nat) (data : List UInt8)
  | finish (c : Nat)
  /-- There is room again, or no more, for what is sent. -/
  | room (c : Nat) (b : Bool)

inductive Kernel.Happens (k : Kernel) : Event → Kernel → Prop where
  | connect (hlisten : k.listening = true) : Happens k .connect
    { k with
      count := k.count + 1
      backlog := k.backlog ++ [k.count]
      socket := Function.update k.socket k.count { Socket.absent with phase := .queued } }
  | deliver {c : Nat} (data : List UInt8) (halive : (k.socket c).Alive)
      (hended : (k.socket c).ended = false) :
    Happens k (.deliver c data)
      (k.modify c fun s => { s with received := s.received ++ data, unread := s.unread ++ data })
  | finish {c : Nat} (halive : (k.socket c).Alive) :
    Happens k (.finish c) (k.modify c fun s => { s with ended := true })
  | room {c : Nat} (b : Bool) (halive : (k.socket c).Alive) :
    Happens k (.room c b) (k.modify c fun s => { s with writable := b })

/-! ### Calls -/

inductive Call where
  | accept
  | select (fds : List Nat)
  | getpeername (fd : Nat)
  | recv (fd size : Nat)
  | send (fd : Nat) (data : List UInt8)
  | close (fd : Nat)
  | exit
  deriving DecidableEq, Repr

inductive Ret where
  | error
  | done
  | descriptor (fd : Nat)
  /-- Whether the listening socket is ready, and which descriptors are. -/
  | ready (listen : Bool) (fds : List Nat)
  | eof
  | data (data : List UInt8)
  | sent (n : Nat)
  deriving DecidableEq, Repr

/-- Reading from the descriptor does not block. -/
def Kernel.Readable (k : Kernel) (fd : Nat) : Prop := ∀ c, k.owner fd = some c → (k.socket c).Readable

instance (k : Kernel) (fd : Nat) : Decidable (k.Readable fd) :=
  match h : k.owner fd with
  | none => isTrue fun _ h' => by rw [h] at h'; cases h'
  | some c => decidable_of_iff (k.socket c).Readable
      ⟨fun hc _ h' => by rw [h] at h'; cases h'; exact hc, fun hc => hc c h⟩

/-- What calls may return. An error is possible at any time; where a call blocks, it does not return. -/
inductive Kernel.Returns (k : Kernel) : Call → Ret → Kernel → Prop where
  | acceptError : Returns k .accept .error k
  | accept {c : Nat} {cs : List Nat} {fd : Nat} (hbacklog : k.backlog = c :: cs) (hfree : k.owner fd = none) :
    Returns k .accept (.descriptor fd) (k.grant fd c cs)
  | selectError (fds : List Nat) : Returns k (.select fds) .error k
  | select {fds : List Nat} (hready : k.backlog ≠ [] ∨ ∃ fd ∈ fds, k.Readable fd) :
    Returns k (.select fds) (.ready (k.backlog ≠ []) (fds.filter k.Readable)) k
  | badDescriptor {call : Call} {fd : Nat} (hfd : call = .getpeername fd ∨ (∃ size, call = .recv fd size) ∨
      (∃ data, call = .send fd data) ∨ call = .close fd) (hclosed : k.owner fd = none) : Returns k call .error k
  | getpeernameError {fd c : Nat} (hfd : k.owner fd = some c) : Returns k (.getpeername fd) .error (k.modify c .fail)
  | getpeername {fd c : Nat} (hfd : k.owner fd = some c) : Returns k (.getpeername fd) .done k
  | recvError {fd c size : Nat} (hfd : k.owner fd = some c) : Returns k (.recv fd size) .error (k.modify c .fail)
  | recvEof {fd c size : Nat} (hfd : k.owner fd = some c) (hempty : (k.socket c).unread = [])
      (hended : (k.socket c).ended = true) : Returns k (.recv fd size) .eof k
  | recv {fd c size : Nat} {data rest : List UInt8} (hfd : k.owner fd = some c)
      (hunread : (k.socket c).unread = data ++ rest) (hne : data ≠ []) (hsize : data.length ≤ size) :
    Returns k (.recv fd size) (.data data) (k.modify c fun s => { s with unread := rest })
  | sendError {fd c : Nat} {data : List UInt8} (hfd : k.owner fd = some c) :
    Returns k (.send fd data) .error (k.modify c .fail)
  | send {fd c n : Nat} {data : List UInt8} (hfd : k.owner fd = some c) (hwritable : (k.socket c).writable = true)
      (hn : n ≤ data.length) : Returns k (.send fd data) (.sent n) (k.modify c (.give data n))
  | close {fd c : Nat} (hfd : k.owner fd = some c) : Returns k (.close fd) .done (k.release fd c)
  | exit : Returns k .exit .done k.exit

/-- Only these calls open and close connections. -/
theorem Kernel.Returns.frame {k k' : Kernel} {call : Call} {ret : Ret} (h : k.Returns call ret k')
    (haccept : call ≠ .accept) (hclose : ∀ fd, call ≠ .close fd) (hexit : call ≠ .exit) :
    k'.owner = k.owner ∧ k'.count = k.count ∧ k'.backlog = k.backlog := by
  cases h with
  | acceptError => exact absurd rfl haccept
  | accept _ _ => exact absurd rfl haccept
  | @close fd _ _ => exact absurd rfl (hclose fd)
  | exit => exact absurd rfl hexit
  | _ => exact ⟨rfl, rfl, rfl⟩

/-- The call blocks. -/
def Kernel.Waits (k : Kernel) : Call → Prop
  | .accept => k.backlog = []
  | .select fds => k.backlog = [] ∧ ∀ fd ∈ fds, ¬ k.Readable fd
  | .recv fd _ => ¬ k.Readable fd
  | .send fd _ => ∃ c, k.owner fd = some c ∧ (k.socket c).writable = false
  | _ => False

/-! ### Programs -/

/-- The calls that the threads of a program are about to make, and how it goes on after them. -/
structure Program (P : Type u) where
  init : P
  offers : P → List (Call × (Ret → P))

inductive Action where
  | event (e : Event)
  | call (call : Call) (ret : Ret)

variable {P : Type u}

inductive Program.Step (prog : Program P) : Kernel × P → Action → Kernel × P → Prop where
  | event {k k' : Kernel} {e : Event} (p : P) (h : k.Happens e k') : Step prog (k, p) (.event e) (k', p)
  | call {k k' : Kernel} {p : P} {call : Call} {next : Ret → P} {ret : Ret}
      (hoffer : (call, next) ∈ prog.offers p) (h : k.Returns call ret k') :
    Step prog (k, p) (.call call ret) (k', next ret)

/-- A program on the kernel, with its clients. -/
def Program.system (prog : Program P) : Lts (Kernel × P) Action :=
  ⟨(· = (.initial, prog.init)), prog.Step⟩

end Sockets
