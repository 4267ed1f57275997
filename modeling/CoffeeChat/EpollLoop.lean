import CoffeeChat.EpollRead
import CoffeeChat.Lib.Lts
import Mathlib.Data.List.Count
import Mathlib.Data.List.Nodup

/-!
# The loop of the epoll server

`main` with its listening socket, which is registered with `EPOLLET`: `epoll_wait` reports it once for
all the connections that have arrived since the last report, and `onNewConnect` accepts one of them.
So each connection that arrives while another one is unreported leaves one behind for good. A server
owes an `accept` for an unreported arrival and for a report that is not handled yet (`owed`); in every
run it has at least as many pending connections as it owes, and no more exactly if each connection
came when none was unreported (`pending_eq_of_apart`, `apart_of_pending_eq`).
-/

namespace CoffeeChat.Epoll

inductive Fd where
  | listen
  | client (id : Nat)
  deriving DecidableEq, Repr

/-- An `epoll_event` with the bits that `main` tests. -/
structure Event where
  fd : Fd
  epollIn : Bool
  epollRdHup : Bool
  /-- `EPOLLHUP | EPOLLERR | EPOLLPRI`. -/
  epollHup : Bool
  deriving DecidableEq, Repr

structure Server where
  /-- The connections that are completed and not accepted, oldest first. -/
  pending : List Nat
  /-- A connection has arrived since the listening socket was last reported. -/
  arrived : Bool
  /-- The events from `i` on; in `epoll_wait` there are none. -/
  events : List Event
  interest : List Fd
  deriving DecidableEq, Repr

/-- The server after `listen` and the first `epoll_ctl`. -/
def Server.initial : Server := ⟨[], false, [], [.listen]⟩

/-- What the calls of a round meet: whether `fcntl` and `epoll_ctl` succeed for a new client, and the
socket of a client that is read from. -/
structure Env where
  fcntl : Bool
  epollAdd : Bool
  conn : Conn

def onNewConnect (env : Env) (server : Server) : Server :=
  match server.pending with
  -- `accept` fails
  | [] => server
  | clientFd :: pending =>
    let server := { server with pending }
    if env.fcntl ∧ env.epollAdd then { server with interest := .client clientFd :: server.interest }
    else server

/-- `epoll_ctl` with `EPOLL_CTL_DEL`, which `close` implies. -/
def Server.forget (fd : Fd) (server : Server) : Server :=
  { server with interest := server.interest.erase fd }

def readEvent (env : Env) (fd : Fd) (server : Server) : Server :=
  match onRead recvBufferSize env.conn with
  | some reading => if .close ∈ reading.calls then server.forget fd else server
  | none => server

def onClose (fd : Fd) (server : Server) : Server := server.forget fd

/-- The body of the loop over the events. -/
def handle (env : Env) (e : Event) (server : Server) : Server :=
  if e.epollIn then
    if e.fd = .listen then onNewConnect env server else readEvent env e.fd server
  else if e.epollRdHup then onClose e.fd server
  else if e.epollHup then onClose e.fd server
  else server

inductive Action where
  /-- A client connects. -/
  | connect (id : Nat)
  /-- `epoll_wait` returns the events. -/
  | report (events : List Event)
  /-- `epoll_wait` returns 0 or -1. -/
  | timeout
  /-- The server handles its next event. -/
  | next (env : Env)

/-- What `epoll_wait` may return: descriptors of the interest list, each at most once, and the
listening socket only after an arrival, with `EPOLLIN`. -/
structure Reportable (server : Server) (events : List Event) : Prop where
  ne_nil : events ≠ []
  nodup : (events.map Event.fd).Nodup
  interest : ∀ e ∈ events, e.fd ∈ server.interest
  listen : ∀ e ∈ events, e.fd = .listen → server.arrived = true ∧ e.epollIn = true

inductive Step : Server → Action → Server → Prop where
  | connect (server : Server) (id : Nat) :
    Step server (.connect id) { server with pending := server.pending ++ [id], arrived := true }
  | report {server : Server} {events : List Event} (hwait : server.events = [])
      (h : Reportable server events) :
    Step server (.report events)
      { server with events, arrived := server.arrived && Fd.listen ∉ events.map Event.fd }
  | timeout {server : Server} (hwait : server.events = []) : Step server .timeout server
  | next {server : Server} {e : Event} {events : List Event} (h : server.events = e :: events)
      (env : Env) :
    Step server (.next env) (handle env e { server with events })

def epollServer : Lts Server Action := ⟨(· = .initial), Step⟩

/-- The server blocks: it is in `epoll_wait`, and nothing that has arrived is unreported. -/
def Server.Blocked (server : Server) : Prop := server.events = [] ∧ server.arrived = false

/-- A connection comes only when no other one is unreported. -/
def Apart (server : Server) : Action → Prop
  | .connect _ => server.arrived = false
  | _ => True

/-! ### What is owed -/

/-- The reports of the listening socket that are not handled yet. -/
def reports (events : List Event) : Nat := events.countP (·.fd = .listen)

def Server.owed (server : Server) : Nat := server.arrived.toNat + reports server.events

structure Server.Inv (server : Server) : Prop where
  epollIn : ∀ e ∈ server.events, e.fd = .listen → e.epollIn = true
  owed_le : server.owed ≤ server.pending.length

/-- What a connection adds to the pending ones over what it adds to the owed ones. -/
def late (server : Server) : Action → Nat
  | .connect _ => server.arrived.toNat
  | _ => 0

theorem late_eq_zero {server : Server} {a : Action} : late server a = 0 ↔ Apart server a := by
  cases a <;> simp [late, Apart]

/-! ### Steps -/

section Handle

variable {env : Env} {e : Event} {server : Server}

theorem onNewConnect_eq : ∃ interest, onNewConnect env server =
    { server with pending := server.pending.tail, interest } := by
  unfold onNewConnect
  split
  next h => exact ⟨server.interest, by rw [h, List.tail_nil, ← h]⟩
  next h =>
    rw [h, List.tail_cons]
    dsimp only
    split
    · exact ⟨_, rfl⟩
    · exact ⟨_, rfl⟩

theorem readEvent_eq {fd : Fd} : ∃ interest, readEvent env fd server = { server with interest } := by
  unfold readEvent
  split
  · split
    · exact ⟨_, rfl⟩
    · exact ⟨server.interest, rfl⟩
  · exact ⟨server.interest, rfl⟩

theorem handle_listen (hin : e.epollIn = true) (hfd : e.fd = .listen) : ∃ interest,
    handle env e server = { server with pending := server.pending.tail, interest } := by
  unfold handle
  rw [if_pos hin, if_pos hfd]
  exact onNewConnect_eq

/-- Any other event leaves the pending connections alone. -/
theorem handle_client (hfd : e.fd ≠ .listen) :
    ∃ interest, handle env e server = { server with interest } := by
  unfold handle
  rw [if_neg hfd]
  split
  · exact readEvent_eq
  · split
    · exact ⟨_, rfl⟩
    · split
      · exact ⟨_, rfl⟩
      · exact ⟨server.interest, rfl⟩

end Handle

theorem reports_cons (e : Event) (events : List Event) :
    reports (e :: events) = reports events + if e.fd = .listen then 1 else 0 := by
  unfold reports
  rw [List.countP_cons]
  simp

/-- A report of the listening socket is one for the arrivals so far. -/
theorem Reportable.arrived_toNat {server : Server} {events : List Event}
    (h : Reportable server events) : server.arrived.toNat =
      (server.arrived && Fd.listen ∉ events.map Event.fd).toNat + reports events := by
  have hcount : reports events = (events.map Event.fd).count .listen := by
    unfold reports
    rw [List.count, List.countP_map]
    rfl
  by_cases hmem : Fd.listen ∈ events.map Event.fd
  · obtain ⟨e, he, hfd⟩ := List.mem_map.1 hmem
    rw [hcount, List.count_eq_one_of_mem h.nodup hmem, (h.listen e he hfd).1]
    simp [hmem]
  · rw [hcount, List.count_eq_zero_of_not_mem hmem]
    simp [hmem]

/-- A step owes as much more as it leaves more pending, late connections apart. -/
theorem Step.owed {s s' : Server} {a : Action} (h : Step s a s') (hinv : s.Inv) :
    s'.pending.length + s.owed = s.pending.length + s'.owed + late s a := by
  cases h with
  | connect id =>
    simp only [Server.owed, late, List.length_append, List.length_singleton, Bool.toNat_true]
    omega
  | report hwait h =>
    have hreport := h.arrived_toNat
    have hnone : reports s.events = 0 := by rw [hwait]; rfl
    simp only [Server.owed, late, hnone]
    omega
  | timeout hwait => rfl
  | @next e events hevents env =>
    have hreports : reports s.events = reports events + if e.fd = .listen then 1 else 0 := by
      rw [hevents, reports_cons]
    by_cases hfd : e.fd = .listen
    · have hin : e.epollIn = true := hinv.epollIn e (by simp [hevents]) hfd
      obtain ⟨interest, heq⟩ := @handle_listen env e { s with events } hin hfd
      have hle := hinv.owed_le
      rw [if_pos hfd] at hreports
      simp only [heq, Server.owed, late, List.length_tail, hreports] at hle ⊢
      omega
    · obtain ⟨interest, heq⟩ := @handle_client env e { s with events } hfd
      rw [if_neg hfd] at hreports
      simp only [heq, Server.owed, late, hreports, Nat.add_zero]

theorem Step.inv {s s' : Server} {a : Action} (h : Step s a s') (hinv : s.Inv) : s'.Inv := by
  have howed := h.owed hinv
  have hle := hinv.owed_le
  refine ⟨?_, by omega⟩
  cases h with
  | connect id => exact hinv.epollIn
  | report hwait h => exact fun e he hfd => (h.listen e he hfd).2
  | timeout hwait => exact hinv.epollIn
  | @next e events hevents env =>
    have hrest : ∀ e ∈ events, e.fd = .listen → e.epollIn = true := fun e he =>
      hinv.epollIn e (by rw [hevents]; exact List.mem_cons_of_mem _ he)
    by_cases hfd : e.fd = .listen
    · obtain ⟨interest, heq⟩ := @handle_listen env e { s with events }
        (hinv.epollIn e (by simp [hevents]) hfd) hfd
      rwa [heq]
    · obtain ⟨interest, heq⟩ := @handle_client env e { s with events } hfd
      rwa [heq]

/-! ### Runs -/

theorem inv_initial : Server.initial.Inv := ⟨by simp [Server.initial], Nat.le_refl 0⟩

theorem inv_of_run {as : List Action} {s : Server} (h : epollServer.Run as s) : s.Inv :=
  h.invariant (I := Server.Inv) (by rintro s rfl; exact inv_initial) fun _ _ _ hinv hstep => Step.inv hstep hinv

/-- Apart connections leave no more pending than is owed. -/
theorem pending_eq_of_apart {as : List Action} {s : Server} (h : (epollServer.restrict Apart).Run as s) :
    s.pending.length = s.owed := by
  suffices hand : s.Inv ∧ s.pending.length = s.owed from hand.2
  refine h.invariant (I := fun s => s.Inv ∧ s.pending.length = s.owed) ?_ ?_
  · rintro s rfl
    exact ⟨inv_initial, rfl⟩
  · rintro s a s' ⟨hinv, heq⟩ ⟨hstep, hapart⟩
    have howed := Step.owed hstep hinv
    rw [late_eq_zero.2 hapart] at howed
    exact ⟨Step.inv hstep hinv, by omega⟩

/-- One connection that was not apart is owed for good. -/
theorem apart_of_pending_eq {as : List Action} {s : Server} (h : epollServer.Run as s)
    (heq : s.pending.length = s.owed) : (epollServer.restrict Apart).Run as s := by
  induction h with
  | nil h => exact .nil h
  | @snoc as s a s' h hstep ih =>
    have hinv := inv_of_run h
    have howed := Step.owed hstep hinv
    have hle := hinv.owed_le
    exact (ih (by omega)).snoc ⟨hstep, late_eq_zero.1 (by omega)⟩

theorem Server.Blocked.owed {s : Server} (h : s.Blocked) : s.owed = 0 := by
  rw [Server.owed, h.1, h.2]
  rfl

/-- Where the server blocks, no connection is pending exactly if all of them came apart. -/
theorem pending_nil_iff_apart {as : List Action} {s : Server} (h : epollServer.Run as s)
    (hblocked : s.Blocked) : s.pending = [] ↔ (epollServer.restrict Apart).Run as s := by
  rw [← List.length_eq_zero_iff, ← hblocked.owed]
  exact ⟨apart_of_pending_eq h, pending_eq_of_apart⟩

/-- The report of a connection. -/
def accepts : Event := ⟨.listen, true, false, false⟩

def calm : Env := ⟨true, true, ⟨true, false, [], fun _ => 1⟩⟩

/-- However many connections a report is for, one of them is accepted. -/
theorem run_accepts {as : List Action} {id : Nat} {pending : List Nat} {interest : List Fd}
    (h : epollServer.Run as ⟨id :: pending, true, [], interest⟩) (hlisten : .listen ∈ interest) :
    epollServer.Run (as ++ [.report [accepts]] ++ [.next calm])
      ⟨pending, false, [], .client id :: interest⟩ := by
  have hreport : Reportable ⟨id :: pending, true, [], interest⟩ [accepts] :=
    ⟨by simp, by simp, by simpa [accepts] using hlisten, by simp [accepts]⟩
  have hnext : Step ⟨id :: pending, false, [accepts], interest⟩ (.next calm)
      ⟨pending, false, [], .client id :: interest⟩ := Step.next (e := accepts) rfl calm
  exact (h.snoc (Step.report rfl hreport)).snoc hnext

theorem run_connect (id : Nat) : epollServer.Run [.connect id] ⟨[id], true, [], [.listen]⟩ :=
  Lts.Run.snoc (.nil rfl) (Step.connect .initial id)

theorem pending_nil_iff_apart_one : ([] : List Nat) = [] ↔ (epollServer.restrict Apart).Run
    [.connect 7, .report [accepts], .next calm] ⟨[], false, [], [.client 7, .listen]⟩ :=
  pending_nil_iff_apart (run_accepts (run_connect 7) (by simp)) ⟨rfl, rfl⟩

/-- Two connections before the first report: the second is not accepted. -/
theorem not_pending_nil_two : ¬ ∀ (as : List Action) (s : Server), epollServer.Run as s → s.Blocked →
    s.pending = [] := by
  intro h
  have hrun : epollServer.Run [.connect 1, .connect 2] ⟨[1, 2], true, [], [.listen]⟩ :=
    (run_connect 1).snoc (Step.connect _ 2)
  cases h _ _ (run_accepts hrun (by simp)) ⟨rfl, rfl⟩

end CoffeeChat.Epoll
