import CoffeeChat.Lib.Ledger
import CoffeeChat.Lib.Lts
import Mathlib.Data.List.Chain

/-!
# The descriptor of `UdpServer`

`listen`, `stop` and the destructor, in v2 and v3 the same. `listen_fd_` is the only record of the
descriptor that the object owns, and 0 its only value for none: a failed `listen` leaves another value
behind, which the next `stop` closes, and a second `listen` forgets what the first one opened. The
ledger of a run is sound exactly if its calls are disciplined (`ownsDescriptors_iff`).
-/

namespace CoffeeChat
open Ledger

/-- The object, with the ledger of its descriptors: what `socket` returned, what was given to `close`,
and where a `stop` returned. -/
structure UdpServer where
  listen_fd_ : Int
  recv_thread_run_ : Bool
  history : List (Event Int)
  deriving DecidableEq, Repr

namespace UdpServer

def initial : UdpServer := ⟨0, true, []⟩

/-- `UdpServer::listen`; `sock` is the descriptor that `socket` returns, none for -1, and `bound`
whether `bind` succeeds. -/
def listen (sock : Option Nat) (bound : Bool) (server : UdpServer) : UdpServer × Bool :=
  match sock with
  | none => ({ server with listen_fd_ := -1 }, false)
  | some fd =>
    let server := { server with listen_fd_ := fd, history := .acquire fd :: server.history }
    if bound then (server, true)
    else ({ server with history := .release server.listen_fd_ :: server.history }, false)

/-- `UdpServer::stop`, which is the body of the destructor, too. -/
def stop (server : UdpServer) : UdpServer :=
  let server := { server with recv_thread_run_ := false }
  let server :=
    if server.listen_fd_ ≠ 0 then
      { server with listen_fd_ := 0, history := .release server.listen_fd_ :: server.history }
    else server
  { server with history := .settle :: server.history }

inductive Call where
  | listen (sock : Option Nat) (bound : Bool)
  | stop
  deriving DecidableEq, Repr

def call (server : UdpServer) : Call → UdpServer
  | .listen sock bound => (server.listen sock bound).1
  | .stop => server.stop

/-- `socket` returns no descriptor that is open. -/
def Call.Fresh (server : UdpServer) : Call → Prop
  | .listen (some fd) _ => (fd : Int) ∉ held server.history
  | _ => True

def udpServer : Lts UdpServer Call where
  init server := server = .initial
  step server call server' := call.Fresh server ∧ server' = server.call call

/-- Every descriptor is closed at most as often as `socket` returned it, `close` is called on owned
descriptors only, and where `stop` or the destructor has run none is left open. -/
structure OwnsDescriptors (history : List (Event Int)) : Prop where
  sound : Sound history
  once : ∀ fd, history.count (.release fd) ≤ history.count (.acquire fd)

/-- What may follow a call: after a failed `listen` the next one, unless `bind` failed on descriptor
0; after a successful one, whose descriptor is not 0, the `stop` or the destructor. -/
def Call.Follows : Call → Call → Prop
  | .listen none _, next => next ≠ .stop
  | .listen (some fd) false, next => fd = 0 ∨ next ≠ .stop
  | .listen (some fd) true, next => fd ≠ 0 ∧ next = .stop
  | .stop, _ => True

/-- Each call may follow the one before it, the destructor included. -/
def Disciplined (calls : List Call) : Prop := (calls ++ [Call.stop]).IsChain Call.Follows

/-! ### Disciplined calls -/

def fdAfter : Option Call → Int
  | none | some .stop => 0
  | some (.listen none _) => -1
  | some (.listen (some fd) _) => fd

def heldAfter : Option Call → List Int
  | some (.listen (some fd) true) => [(fd : Int)]
  | _ => []

/-- After disciplined calls the last one alone says what the object holds. -/
structure Tidy (last : Option Call) (server : UdpServer) : Prop where
  sound : Sound server.history
  fd : server.listen_fd_ = fdAfter last
  held : held server.history = heldAfter last

variable {server : UdpServer} {call : Call} {last : Option Call}

theorem tidy_initial : Tidy none initial := ⟨trivial, rfl, rfl⟩

theorem stop_of_none (h : server.listen_fd_ = 0) :
    server.stop = ⟨0, false, .settle :: server.history⟩ := by
  simp [stop, h]

theorem stop_of_fd (h : server.listen_fd_ ≠ 0) :
    server.stop = ⟨0, false, .settle :: .release server.listen_fd_ :: server.history⟩ := by
  simp [stop, h]

/-- `stop` is in order when nothing is held, or the descriptor itself. -/
theorem tidy_stop (h : Sound server.history)
    (hheld : (server.listen_fd_ = 0 ∧ held server.history = []) ∨
      (server.listen_fd_ ≠ 0 ∧ held server.history = [server.listen_fd_])) :
    Tidy (some .stop) server.stop := by
  rcases hheld with ⟨hfd, hheld⟩ | ⟨hfd, hheld⟩
  · rw [stop_of_none hfd]
    exact ⟨⟨hheld, h⟩, rfl, hheld⟩
  · have hnone : held (.release server.listen_fd_ :: server.history) = [] := by
      rw [held, hheld]
      simp
    rw [stop_of_fd hfd]
    exact ⟨⟨hnone, by rw [hheld]; simp, h⟩, rfl, hnone⟩

/-- `listen` is in order when nothing is held. -/
theorem tidy_listen (h : Sound server.history) (hheld : held server.history = [])
    (sock : Option Nat) (bound : Bool) :
    Tidy (some (.listen sock bound)) (server.listen sock bound).1 := by
  cases sock with
  | none => exact ⟨h, rfl, hheld⟩
  | some fd =>
    have hacquired : held (.acquire (fd : Int) :: server.history) = [(fd : Int)] := by
      rw [held, hheld]
    cases bound with
    | true => exact ⟨h, rfl, hacquired⟩
    | false =>
      refine ⟨⟨?_, h⟩, rfl, ?_⟩
      · show (fd : Int) ∈ held _
        rw [hacquired]
        exact List.mem_singleton_self _
      · show held (.release (fd : Int) :: .acquire (fd : Int) :: server.history) = []
        rw [held, hacquired]
        simp

theorem tidy_call (h : Tidy last server) (hfollows : ∀ previous ∈ last, Call.Follows previous call) :
    Tidy (some call) (server.call call) := by
  have hheld := h.held
  have hfd := h.fd
  cases call with
  | stop =>
    match last with
    | none | some .stop => exact tidy_stop h.sound (.inl ⟨hfd, hheld⟩)
    | some (.listen none bound) => exact absurd rfl (hfollows _ rfl)
    | some (.listen (some fd) false) =>
      have hzero : fd = 0 := (hfollows _ rfl).resolve_right fun hne => hne rfl
      exact tidy_stop h.sound (.inl ⟨by rw [hfd, fdAfter, hzero]; rfl, hheld⟩)
    | some (.listen (some fd) true) =>
      have hne : fd ≠ 0 := (hfollows _ rfl).1
      refine tidy_stop h.sound (.inr ⟨?_, ?_⟩)
      · rw [hfd, fdAfter]
        exact Int.natCast_ne_zero.2 hne
      · rw [hheld, hfd]
        rfl
  | listen sock bound =>
    match last with
    | none | some .stop | some (.listen none _) | some (.listen (some _) false) =>
      exact tidy_listen h.sound hheld sock bound
    | some (.listen (some fd) true) =>
      obtain ⟨-, hstop⟩ : fd ≠ 0 ∧ Call.listen sock bound = .stop := hfollows _ rfl
      cases hstop

/-! ### Runs that went wrong -/

/-- The ledger is broken, or a descriptor is open that no `close` will be given. -/
def Doomed (server : UdpServer) : Prop :=
  ¬ Sound server.history ∨
    ∃ fd : Nat, (fd : Int) ∈ held server.history ∧ (fd = 0 ∨ server.listen_fd_ ≠ fd)

theorem history_call (server : UdpServer) (call : Call) :
    ∃ newer, (server.call call).history = newer ++ server.history := by
  match call with
  | .listen none _ => exact ⟨[], rfl⟩
  | .listen (some fd) true => exact ⟨[_], rfl⟩
  | .listen (some fd) false => exact ⟨[_, _], rfl⟩
  | .stop =>
    by_cases hfd : server.listen_fd_ = 0
    · exact ⟨[.settle], by rw [UdpServer.call, stop_of_none hfd]; rfl⟩
    · exact ⟨[.settle, .release server.listen_fd_], by rw [UdpServer.call, stop_of_fd hfd]; rfl⟩

theorem not_sound_call (h : ¬ Sound server.history) : ¬ Sound (server.call call).history := by
  obtain ⟨newer, hnewer⟩ := history_call server call
  intro hsound
  rw [hnewer] at hsound
  exact h hsound.of_append

theorem not_sound_stop (h : Doomed server) : ¬ Sound server.stop.history := by
  rcases h with hbroken | ⟨fd, hheld, hlost⟩
  · have hcall : ¬ Sound (server.call .stop).history := not_sound_call hbroken
    exact hcall
  · by_cases hfd : server.listen_fd_ = 0
    · rw [stop_of_none hfd]
      rintro ⟨hnone, -⟩
      rw [hnone] at hheld
      cases hheld
    · have hother : (fd : Int) ≠ server.listen_fd_ := by
        rcases hlost with rfl | hne
        · exact fun h => hfd h.symm
        · exact fun h => hne h.symm
      rw [stop_of_fd hfd]
      rintro ⟨hnone, -⟩
      have hkept : (fd : Int) ∈ held (.release server.listen_fd_ :: server.history) := by
        rw [held]
        simpa [hother] using hheld
      rw [hnone] at hkept
      cases hkept

theorem not_sound_stop_of_stale (hfd : server.listen_fd_ ≠ 0) (hheld : held server.history = []) :
    ¬ Sound server.stop.history := by
  rw [stop_of_fd hfd]
  rintro ⟨-, hmem, -⟩
  rw [hheld] at hmem
  cases hmem

/-- `listen` forgets whatever is open. -/
theorem doomed_listen {fd : Nat} (hheld : (fd : Int) ∈ held server.history) {sock : Option Nat}
    {bound : Bool} (hfresh : Call.Fresh server (.listen sock bound)) :
    Doomed (server.listen sock bound).1 := by
  cases sock with
  | none =>
    refine .inr ⟨fd, hheld, .inr ?_⟩
    show (-1 : Int) ≠ fd
    omega
  | some fd' =>
    have hne : (fd' : Int) ≠ fd := fun heq => hfresh (heq ▸ hheld)
    cases bound with
    | true => exact .inr ⟨fd, List.mem_cons_of_mem _ hheld, .inr hne⟩
    | false =>
      refine .inr ⟨fd, ?_, .inr hne⟩
      show (fd : Int) ∈ held (.release (fd' : Int) :: .acquire (fd' : Int) :: server.history)
      rw [held, held]
      simpa [hne.symm] using hheld

theorem doomed_call (h : Doomed server) (hfresh : call.Fresh server) : Doomed (server.call call) := by
  cases call with
  | stop => exact .inl (not_sound_stop h)
  | listen sock bound =>
    rcases h with hbroken | ⟨fd, hheld, -⟩
    · have hcall : ¬ Sound (server.call (.listen sock bound)).history := not_sound_call hbroken
      exact .inl hcall
    · exact doomed_listen hheld hfresh

theorem doomed_of_not_follows {previous : Call} (h : Tidy (some previous) server)
    (hfresh : call.Fresh server) (hnot : ¬ previous.Follows call) : Doomed (server.call call) := by
  have hheld := h.held
  have hfd := h.fd
  match previous with
  | .stop => exact absurd trivial hnot
  | .listen none bound =>
    have hstop : call = .stop := not_not.1 hnot
    subst hstop
    refine .inl (not_sound_stop_of_stale ?_ hheld)
    rw [hfd, fdAfter]
    decide
  | .listen (some fd) false =>
    obtain ⟨hne, hstop⟩ := not_or.1 hnot
    have hstop : call = .stop := not_not.1 hstop
    subst hstop
    refine .inl (not_sound_stop_of_stale ?_ hheld)
    rw [hfd]
    exact Int.natCast_ne_zero.2 hne
  | .listen (some fd) true =>
    have hmem : (fd : Int) ∈ held server.history := by
      rw [hheld]
      exact List.mem_singleton_self _
    cases call with
    | listen sock bound => exact doomed_listen hmem hfresh
    | stop =>
      have hzero : fd = 0 := by
        by_contra hne
        exact hnot ⟨hne, rfl⟩
      exact doomed_call (.inr ⟨fd, hmem, .inl hzero⟩) trivial

/-! ### All runs -/

theorem isChain_snoc {calls : List Call} : (calls ++ [call]).IsChain Call.Follows ↔
    calls.IsChain Call.Follows ∧ ∀ previous ∈ calls.getLast?, previous.Follows call := by
  simp [List.isChain_append]

/-- One more call keeps a disciplined run tidy, or dooms it. -/
theorem call_cases {calls : List Call} (hfresh : call.Fresh server)
    (h : (calls.IsChain Call.Follows ∧ Tidy calls.getLast? server) ∨
      (¬ calls.IsChain Call.Follows ∧ Doomed server)) :
    ((calls ++ [call]).IsChain Call.Follows ∧ Tidy (some call) (server.call call)) ∨
      (¬ (calls ++ [call]).IsChain Call.Follows ∧ Doomed (server.call call)) := by
  rw [isChain_snoc]
  rcases h with ⟨hchain, htidy⟩ | ⟨hchain, hdoomed⟩
  · by_cases hfollows : ∀ previous ∈ calls.getLast?, previous.Follows call
    · exact .inl ⟨⟨hchain, hfollows⟩, tidy_call htidy hfollows⟩
    · refine .inr ⟨fun hboth => hfollows hboth.2, ?_⟩
      simp only [not_forall] at hfollows
      obtain ⟨previous, hprevious, hnot⟩ := hfollows
      rw [Option.mem_def.1 hprevious] at htidy
      exact doomed_of_not_follows htidy hfresh hnot
  · exact .inr ⟨fun hboth => hchain hboth.1, doomed_call hdoomed hfresh⟩

theorem cases_of_run {calls : List Call} (h : udpServer.Run calls server) :
    (calls.IsChain Call.Follows ∧ Tidy calls.getLast? server) ∨
      (¬ calls.IsChain Call.Follows ∧ Doomed server) := by
  induction h with
  | nil hinit =>
    cases hinit
    exact .inl ⟨.nil, tidy_initial⟩
  | snoc _ hstep ih =>
    obtain ⟨hfresh, rfl⟩ := hstep
    rw [List.getLast?_concat]
    exact call_cases hfresh ih

/-- A run whose destructor has run owned its descriptors exactly if its calls were disciplined. -/
theorem ownsDescriptors_iff {calls : List Call} (h : udpServer.Run calls server) :
    OwnsDescriptors server.stop.history ↔ Disciplined calls := by
  have hfresh : Call.Fresh server .stop := trivial
  rcases call_cases hfresh (cases_of_run h) with ⟨hchain, htidy⟩ | ⟨hchain, hdoomed⟩
  · refine iff_of_true ?_ hchain
    exact ⟨htidy.sound, fun fd => htidy.sound.released_le fd⟩
  · refine iff_of_false ?_ hchain
    rintro ⟨hsound, -⟩
    rcases hdoomed with hbroken | ⟨fd, hmem, -⟩
    · exact hbroken hsound
    · -- the mark of `stop` leaves nothing open in a sound ledger
      have hnone : held server.stop.history = [] := hsound.1
      rw [UdpServer.call, hnone] at hmem
      cases hmem

theorem run_listen (sock : Option Nat) (bound : Bool) :
    udpServer.Run [.listen sock bound] (initial.listen sock bound).1 := by
  have hfresh : Call.Fresh initial (.listen sock bound) := by
    cases sock with
    | none => trivial
    | some fd => exact List.not_mem_nil
  have hinit : udpServer.Run [] initial := .nil rfl
  exact hinit.snoc ⟨hfresh, rfl⟩

theorem ownsDescriptors_once : OwnsDescriptors (initial.listen (some 3) true).1.stop.history ↔
    Disciplined [.listen (some 3) true] :=
  ownsDescriptors_iff (run_listen (some 3) true)

/-- The order of `main` when `bind` fails: the destructor closes the descriptor again. -/
theorem not_ownsDescriptors_bind : ¬ ∀ calls server, udpServer.Run calls server →
    OwnsDescriptors server.stop.history := by
  intro h
  have honce := (h _ _ (run_listen (some 3) false)).once 3
  exact absurd honce (by decide)

end UdpServer
end CoffeeChat
