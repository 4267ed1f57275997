import CoffeeChat.Lib.Progress

/-!
# The echo server with `select`

One thread for all connections. `select` reports which descriptors are ready; where the listening socket
is one of them, the server accepts a connection and leaves the others for the next round, otherwise it
goes through its connections in order and serves the ready ones.
-/

namespace CoffeeChat.Echo
open Sockets

def fdSetSize : Nat := 1024

def recvBufferSize : Nat := 1024

/-- The call that `main` is about to make. -/
inductive Pc where
  | select
  | accept
  | getpeername (fd : Nat)
  | recv (fd : Nat)
  | send (fd ret : Nat)
  | close (fd : Nat)
  /-- `FD_SET` has written outside of the set. -/
  | farDescriptor
  /-- `<< recvBuffer` has read behind the end of the buffer. -/
  | overrun (fd ret : Nat)
  deriving DecidableEq, Repr

structure Select where
  pc : Pc
  recvBuffer : List UInt8
  /-- The connections that `select` has left in `readFds`. -/
  readFds : List Nat
  /-- `connections`, those before the iterator; outside of the loop all of them. -/
  before : List Nat
  /-- Those behind the iterator. -/
  behind : List Nat
  deriving DecidableEq, Repr

namespace Select

/-- `recvBuffer` after `recv`. -/
def store (data recvBuffer : List UInt8) : List UInt8 := data ++ recvBuffer.drop data.length

/-- The loop over the connections goes on to the next one that is ready, or ends. -/
def scan (recvBuffer : List UInt8) (readFds before : List Nat) : List Nat → Select
  | [] => ⟨.select, recvBuffer, readFds, before, []⟩
  | fd :: behind =>
    if fd ∈ readFds then ⟨.getpeername fd, recvBuffer, readFds, before, behind⟩
    else scan recvBuffer readFds (before ++ [fd]) behind

def offers (t : Select) : List (Call × (Ret → Select)) :=
  match t.pc with
  -- `maxFd` is the greatest descriptor, so all of them are looked at
  | .select => [(.select t.before, fun ret =>
      match ret with
      | .ready true readFds => { t with pc := .accept, readFds }
      | .ready false readFds => scan t.recvBuffer readFds [] t.before
      | _ => t)]
  | .accept => [(.accept, fun ret =>
      match ret with
      | .descriptor fd => { t with pc := if fd < fdSetSize then .select else .farDescriptor, before := t.before ++ [fd] }
      | _ => { t with pc := .select })]
  | .getpeername fd => [(.getpeername fd, fun ret =>
      match ret with
      | .done => { t with pc := .recv fd }
      | _ => scan t.recvBuffer t.readFds (t.before ++ [fd]) t.behind)]
  | .recv fd => [(.recv fd recvBufferSize, fun ret =>
      match ret with
      | .data data =>
        { t with
          pc := if 0 ∈ store data t.recvBuffer then .send fd data.length else .overrun fd data.length
          recvBuffer := store data t.recvBuffer }
      | _ => { t with pc := .close fd })]
  -- what `send` returns is not looked at
  | .send fd ret => [(.send fd (t.recvBuffer.take ret), fun _ =>
      scan t.recvBuffer t.readFds (t.before ++ [fd]) t.behind)]
  | .close fd => [(.close fd, fun _ => scan t.recvBuffer t.readFds t.before t.behind)]
  | .farDescriptor => []
  | .overrun _ _ => []

def program : Program Select := ⟨⟨.select, List.replicate recvBufferSize 0, [], [], []⟩, offers⟩

/-! ### The discipline -/

/-- The connections among `fds`, when nothing is done with them. -/
def idle (fds : List Nat) : Tasks := fun fd => if fd ∈ fds then some (.idle false) else none

/-- What is done with the connection of the iterator. -/
def current (t : Select) : Option (Nat × Task) :=
  match t.pc with
  | .getpeername fd => some (fd, .idle false)
  | .recv fd => some (fd, .idle false)
  | .send fd ret => some (fd, .sending (t.recvBuffer.take ret))
  | .close fd => some (fd, .idle true)
  | .overrun fd ret => some (fd, .sending (t.recvBuffer.take ret))
  | _ => none

def tasks (t : Select) : Tasks :=
  match t.current with
  | none => idle (t.before ++ t.behind)
  | some (fd, task) => Function.update (idle (t.before ++ t.behind)) fd (some task)

/-- All descriptors that are held. -/
def connections (t : Select) : List Nat := t.before ++ (t.current.map Prod.fst).toList ++ t.behind

def rank (t : Select) : Nat :=
  match t.pc with
  | .send _ _ => 4
  | .select => 3
  | .getpeername _ => 2
  | .recv _ => 1
  | _ => 0

theorem idle_append_singleton (fds : List Nat) (fd : Nat) :
    idle (fds ++ [fd]) = Function.update (idle fds) fd (some (.idle false)) := by
  funext fd'
  by_cases heq : fd' = fd
  · subst heq
    simp [idle]
  · simp [idle, heq]

theorem idle_insert (before behind : List Nat) (fd : Nat) :
    idle (before ++ fd :: behind) = Function.update (idle (before ++ behind)) fd (some (.idle false)) := by
  funext fd'
  by_cases heq : fd' = fd
  · subst heq
    simp [idle]
  · simp [idle, heq]

theorem idle_of_not_mem {fds : List Nat} {fd : Nat} (h : fd ∉ fds) : Function.update (idle fds) fd none = idle fds := by
  rw [Function.update_eq_self_iff, idle, if_neg h]

/-- Where the loop stops. -/
theorem scan_cases (recvBuffer : List UInt8) (readFds before behind : List Nat) :
    (∀ fd ∈ behind, fd ∉ readFds) ∧
      scan recvBuffer readFds before behind = ⟨.select, recvBuffer, readFds, before ++ behind, []⟩ ∨
    ∃ skipped fd behind', behind = skipped ++ fd :: behind' ∧ fd ∈ readFds ∧ (∀ fd' ∈ skipped, fd' ∉ readFds) ∧
      scan recvBuffer readFds before behind = ⟨.getpeername fd, recvBuffer, readFds, before ++ skipped, behind'⟩ := by
  induction behind generalizing before with
  | nil => exact .inl ⟨nofun, by rw [scan, List.append_nil]⟩
  | cons fd behind ih =>
    rw [scan]
    split
    next hmem => exact .inr ⟨[], fd, behind, rfl, hmem, nofun, by rw [List.append_nil]⟩
    next hmem =>
      rcases ih (before ++ [fd]) with ⟨hnone, heq⟩ | ⟨skipped, fd', behind', rfl, hmem', hskipped, heq⟩
      · exact .inl ⟨List.forall_mem_cons.2 ⟨hmem, hnone⟩, by rw [heq, List.append_assoc, List.singleton_append]⟩
      · refine .inr ⟨fd :: skipped, fd', behind', rfl, hmem', ?_, by rw [heq, List.append_assoc, List.singleton_append]⟩
        exact List.forall_mem_cons.2 ⟨hmem, hskipped⟩

theorem tasks_scan (recvBuffer : List UInt8) (readFds before behind : List Nat) :
    tasks (scan recvBuffer readFds before behind) = idle (before ++ behind) := by
  rcases scan_cases recvBuffer readFds before behind with ⟨-, heq⟩ | ⟨skipped, fd, behind', rfl, -, -, heq⟩
  · rw [heq, tasks, current, List.append_nil]
  · rw [heq, ← List.append_assoc, idle_insert]
    rfl

theorem connections_scan (recvBuffer : List UInt8) (readFds before behind : List Nat) :
    connections (scan recvBuffer readFds before behind) = before ++ behind := by
  rcases scan_cases recvBuffer readFds before behind with ⟨-, heq⟩ | ⟨skipped, fd, behind', rfl, -, -, heq⟩
  · rw [heq, connections, current, List.append_nil]
    exact List.append_nil _
  · rw [heq]
    simp [connections, current]

structure Inv (t : Select) : Prop where
  nodup : t.connections.Nodup
  length : t.recvBuffer.length = recvBufferSize
  /-- Outside of the loop. -/
  behind : t.pc = .select ∨ t.pc = .accept ∨ t.pc = .farDescriptor → t.behind = []
  /-- What is written outside of a set, and read outside of the buffer. -/
  far : t.pc = .farDescriptor → ∃ fd ∈ t.before, fdSetSize ≤ fd
  overrun : ∀ fd ret, t.pc = .overrun fd ret → 0 ∉ t.recvBuffer

theorem length_store {data recvBuffer : List UInt8} (h : recvBuffer.length = recvBufferSize)
    (hdata : data.length ≤ recvBufferSize) : (store data recvBuffer).length = recvBufferSize := by
  rw [store, List.length_append, List.length_drop]
  omega

theorem take_store (data recvBuffer : List UInt8) : (store data recvBuffer).take data.length = data :=
  List.take_left

theorem forgets_update (tasks : Tasks) (fd : Nat) : Forgets (Function.update tasks fd (some (.idle true)))
    (Function.update tasks fd (some (.idle false))) := by
  intro fd'
  by_cases heq : fd' = fd
  · subst heq
    exact .inr ⟨Function.update_self .., Function.update_self ..⟩
  · exact .inl (by rw [Function.update_of_ne heq, Function.update_of_ne heq])

theorem inv_scan {recvBuffer : List UInt8} {readFds before behind : List Nat} (hnodup : (before ++ behind).Nodup)
    (hlength : recvBuffer.length = recvBufferSize) : Inv (scan recvBuffer readFds before behind) := by
  refine ⟨by rwa [connections_scan], ?_, ?_, ?_, ?_⟩ <;>
    rcases scan_cases recvBuffer readFds before behind with ⟨-, heq⟩ | ⟨skipped, fd, behind', -, -, -, heq⟩ <;>
    rw [heq] <;> first | exact hlength | simp

theorem inv_initial : Inv program.init := ⟨List.nodup_nil, List.length_replicate, fun _ => rfl, nofun, nofun⟩

/-- The connections without that of the iterator. -/
theorem Inv.nodup_rest {t : Select} (h : t.Inv) {fd : Nat} {task : Task} (hcurrent : t.current = some (fd, task)) :
    fd ∉ t.before ++ t.behind ∧ (t.before ++ [fd] ++ t.behind).Nodup ∧ (t.before ++ t.behind).Nodup := by
  have hnodup := h.nodup
  rw [connections, hcurrent] at hnodup
  have hmiddle : (t.before ++ fd :: t.behind).Nodup := by simpa using hnodup
  obtain ⟨hnew, hrest⟩ := List.nodup_cons.1 (List.nodup_middle.1 hmiddle)
  exact ⟨hnew, hnodup, hrest⟩

/-- The loop goes on behind a connection that is kept. -/
theorem Inv.keep {t : Select} (h : t.Inv) {fd : Nat} {task : Task} (hcurrent : t.current = some (fd, task)) :
    Inv (scan t.recvBuffer t.readFds (t.before ++ [fd]) t.behind) ∧
      tasks (scan t.recvBuffer t.readFds (t.before ++ [fd]) t.behind) =
        Function.update t.tasks fd (some (.idle false)) := by
  obtain ⟨-, hnodup, -⟩ := h.nodup_rest hcurrent
  refine ⟨inv_scan hnodup h.length, ?_⟩
  rw [tasks_scan, List.append_assoc, List.singleton_append, idle_insert, tasks, hcurrent, Function.update_idem]

theorem Inv.drop {t : Select} (h : t.Inv) {fd : Nat} {task : Task} (hcurrent : t.current = some (fd, task)) :
    Inv (scan t.recvBuffer t.readFds t.before t.behind) ∧
      tasks (scan t.recvBuffer t.readFds t.before t.behind) = Function.update t.tasks fd none := by
  obtain ⟨hnew, -, hnodup⟩ := h.nodup_rest hcurrent
  refine ⟨inv_scan hnodup h.length, ?_⟩
  rw [tasks_scan, tasks, hcurrent, Function.update_idem, idle_of_not_mem hnew]

theorem Inv.recv {recvBuffer data : List UInt8} {readFds before behind : List Nat} {fd : Nat}
    (h : Inv ⟨.recv fd, recvBuffer, readFds, before, behind⟩) (hdata : data.length ≤ recvBufferSize) {next : Select}
    (hnext : next = ⟨if 0 ∈ store data recvBuffer then .send fd data.length else .overrun fd data.length,
      store data recvBuffer, readFds, before, behind⟩) :
    Inv next ∧ tasks next = Function.update (tasks ⟨.recv fd, recvBuffer, readFds, before, behind⟩) fd
      (some (.sending data)) := by
  have hlength := length_store h.length hdata
  have hnodup := h.nodup
  subst hnext
  by_cases hzero : 0 ∈ store data recvBuffer
  · rw [if_pos hzero]
    refine ⟨⟨hnodup, hlength, by simp, nofun, nofun⟩, ?_⟩
    simp only [tasks, current, take_store, Function.update_idem]
  · rw [if_neg hzero]
    refine ⟨⟨hnodup, hlength, by simp, nofun, fun _ _ _ => hzero⟩, ?_⟩
    simp only [tasks, current, take_store, Function.update_idem]

theorem Inv.accept {recvBuffer : List UInt8} {readFds before behind : List Nat} {fd : Nat}
    (h : Inv ⟨.accept, recvBuffer, readFds, before, behind⟩)
    (hfree : tasks ⟨.accept, recvBuffer, readFds, before, behind⟩ fd = none) {next : Select}
    (hnext : next = ⟨if fd < fdSetSize then .select else .farDescriptor, recvBuffer, readFds, before ++ [fd], behind⟩) :
    Inv next ∧ tasks next = Function.update (tasks ⟨.accept, recvBuffer, readFds, before, behind⟩) fd
      (some (.idle false)) := by
  obtain rfl : behind = [] := h.behind (.inr (.inl rfl))
  have hnew : fd ∉ before := by
    intro hmem
    simp [tasks, current, idle, hmem] at hfree
  have hnodup : (before ++ [fd]).Nodup := by
    have hold := h.nodup
    simp only [connections, current, Option.map_none, Option.toList_none, List.append_nil] at hold
    rw [List.nodup_append]
    refine ⟨hold, List.nodup_singleton _, fun a ha b hb => ?_⟩
    rw [List.mem_singleton.1 hb]
    rintro rfl
    exact hnew ha
  subst hnext
  by_cases hfd : fd < fdSetSize
  · rw [if_pos hfd]
    refine ⟨⟨?_, h.length, fun _ => rfl, nofun, nofun⟩, ?_⟩
    · simpa [connections, current] using hnodup
    · simp only [tasks, current, List.append_nil, idle_append_singleton]
  · rw [if_neg hfd]
    refine ⟨⟨?_, h.length, fun _ => rfl, fun _ => ⟨fd, by simp, Nat.not_lt.1 hfd⟩, nofun⟩, ?_⟩
    · simpa [connections, current] using hnodup
    · simp only [tasks, current, List.append_nil, idle_append_singleton]

theorem tasks_current {t : Select} {fd : Nat} {task : Task} (h : t.current = some (fd, task)) :
    t.tasks fd = some task := by
  unfold tasks
  rw [h]
  exact Function.update_self ..

theorem disciplined : Disciplined program tasks Inv := by
  refine ⟨inv_initial, rfl, fun {t call next} hinv hoffer => ?_, fun {t call next ret} hinv hoffer hret => ?_⟩
  · obtain ⟨pc, recvBuffer, readFds, before, behind⟩ := t
    cases pc with
    | farDescriptor => cases hoffer
    | overrun _ _ => cases hoffer
    | getpeername fd =>
      cases List.mem_singleton.1 hoffer
      exact ⟨false, tasks_current rfl⟩
    | recv fd =>
      cases List.mem_singleton.1 hoffer
      exact ⟨by decide, false, tasks_current rfl⟩
    | send fd ret =>
      cases List.mem_singleton.1 hoffer
      exact tasks_current rfl
    | close fd =>
      cases List.mem_singleton.1 hoffer
      exact tasks_current rfl
    | _ =>
      cases List.mem_singleton.1 hoffer
      trivial
  · obtain ⟨pc, recvBuffer, readFds, before, behind⟩ := t
    cases pc with
    | select =>
      obtain rfl : behind = [] := hinv.behind (.inl rfl)
      have hnodup : before.Nodup := by simpa [connections, current] using hinv.nodup
      cases List.mem_singleton.1 hoffer
      cases hret with
      | selectError _ => exact ⟨hinv, .refl _⟩
      | @select _ ready listen hready =>
        cases listen with
        | true => exact ⟨⟨hinv.nodup, hinv.length, fun _ => rfl, nofun, nofun⟩, .refl _⟩
        | false =>
          refine ⟨inv_scan hnodup hinv.length, ?_⟩
          change Forgets _ (tasks (scan recvBuffer ready [] before))
          rw [tasks_scan]
          simp only [after, tasks, current, List.append_nil, List.nil_append]
          exact .refl _
    | accept =>
      cases List.mem_singleton.1 hoffer
      cases hret with
      | acceptError => exact ⟨⟨hinv.nodup, hinv.length, fun _ => hinv.behind (.inr (.inl rfl)), nofun, nofun⟩, .refl _⟩
      | accept hfree =>
        obtain ⟨hinv', htasks⟩ := hinv.accept hfree rfl
        exact ⟨hinv', by rw [htasks]; exact .refl _⟩
    | getpeername fd =>
      cases List.mem_singleton.1 hoffer
      cases hret with
      | getpeernameError _ =>
        obtain ⟨hinv', htasks⟩ := hinv.keep rfl
        exact ⟨hinv', by rw [htasks]; exact forgets_update _ fd⟩
      | getpeername _ => exact ⟨⟨hinv.nodup, hinv.length, by simp, nofun, nofun⟩, .refl _⟩
    | recv fd =>
      cases List.mem_singleton.1 hoffer
      cases hret with
      | recvError _ _ =>
        refine ⟨⟨hinv.nodup, hinv.length, by simp, nofun, nofun⟩, ?_⟩
        simp only [after, tasks, current, Function.update_idem]
        exact .refl _
      | recvEof _ _ =>
        refine ⟨⟨hinv.nodup, hinv.length, by simp, nofun, nofun⟩, ?_⟩
        simp only [after, tasks, current, Function.update_idem]
        exact .refl _
      | recv _ hne hsize =>
        obtain ⟨hinv', htasks⟩ := hinv.recv hsize rfl
        exact ⟨hinv', by rw [htasks]; exact .refl _⟩
    | send fd ret =>
      obtain ⟨hinv', htasks⟩ := hinv.keep rfl
      cases List.mem_singleton.1 hoffer
      cases hret with
      | sendError _ _ => exact ⟨hinv', by rw [htasks]; exact forgets_update _ fd⟩
      | send _ _ _ => exact ⟨hinv', by rw [htasks]; exact .refl _⟩
    | close fd =>
      obtain ⟨hinv', htasks⟩ := hinv.drop rfl
      cases List.mem_singleton.1 hoffer
      cases hret
      exact ⟨hinv', by rw [htasks]; exact .refl _⟩
    | farDescriptor => cases hoffer
    | overrun _ _ => cases hoffer

theorem ranked : Ranked program tasks Inv rank := by
  intro t call next ret hinv hoffer hret hne hready
  have hscan : ∀ recvBuffer readFds before behind, rank (scan recvBuffer readFds before behind) ≤ 3 := by
    intro recvBuffer readFds before behind
    rcases scan_cases recvBuffer readFds before behind with ⟨-, heq⟩ | ⟨_, _, _, -, -, -, heq⟩ <;>
      simp [heq, rank]
  obtain ⟨pc, recvBuffer, readFds, before, behind⟩ := t
  cases pc with
  | select =>
    obtain rfl : behind = [] := hinv.behind (.inl rfl)
    cases List.mem_singleton.1 hoffer
    cases hret with
    | selectError _ => exact absurd rfl hne
    | @select _ ready listen hsub =>
      cases listen with
      | true => exact Nat.zero_lt_succ _
      | false =>
        obtain ⟨fd, hfd⟩ := List.exists_mem_of_ne_nil ready fun hnil => hready _ rfl (by rw [hnil])
        rcases scan_cases recvBuffer ready [] before with ⟨hnone, -⟩ | ⟨_, _, _, -, -, -, heq⟩
        · exact absurd hfd (hnone fd (hsub hfd))
        · change rank (scan recvBuffer ready [] before) < _
          rw [heq]
          exact Nat.lt_succ_self 2
  | accept =>
    cases List.mem_singleton.1 hoffer
    cases hret with
    | acceptError => exact absurd rfl hne
    | @accept fd _ =>
      by_cases hfd : fd < fdSetSize <;> simp [rank, gain, hfd]
  | getpeername fd =>
    cases List.mem_singleton.1 hoffer
    cases hret with
    | getpeernameError _ => exact absurd rfl hne
    | getpeername _ => exact Nat.lt_succ_self 1
  | recv fd =>
    cases List.mem_singleton.1 hoffer
    cases hret with
    | recvError _ _ => exact absurd rfl hne
    | recvEof _ _ => exact Nat.zero_lt_one
    | @recv _ _ data hdata hsize =>
      by_cases hzero : 0 ∈ store data recvBuffer <;> simp [rank, gain, hzero]
  | send fd ret =>
    cases List.mem_singleton.1 hoffer
    exact Nat.lt_of_le_of_lt (hscan _ _ _ _) (Nat.lt_of_lt_of_le (Nat.lt_succ_self 3) (Nat.le_add_right _ _))
  | close fd =>
    cases List.mem_singleton.1 hoffer
    cases hret
    exact Nat.lt_of_le_of_lt (hscan _ _ _ _) (by simp [gain])
  | farDescriptor => cases hoffer
  | overrun _ _ => cases hoffer

/-! ### What `select` has reported -/

/-- It still holds when the server gets there. -/
structure Fresh (s : Kernel × Select) : Prop where
  accept : s.2.pc = .accept → s.1.backlog ≠ []
  current : ∀ fd, s.2.pc = .getpeername fd ∨ s.2.pc = .recv fd → s.1.Readable fd
  behind : ∀ fd ∈ s.2.behind, fd ∈ s.2.readFds → s.1.Readable fd

theorem fresh_scan {k : Kernel} {recvBuffer : List UInt8} {readFds before behind : List Nat}
    (h : ∀ fd ∈ behind, fd ∈ readFds → k.Readable fd) : Fresh (k, scan recvBuffer readFds before behind) := by
  rcases scan_cases recvBuffer readFds before behind with ⟨-, heq⟩ | ⟨skipped, fd, behind', rfl, hfd, -, heq⟩
  · rw [heq]
    exact ⟨nofun, by simp, nofun⟩
  · rw [heq]
    refine ⟨nofun, fun fd' hfd' => ?_, fun fd' hfd' => h fd' (by simp [show fd' ∈ behind' from hfd'])⟩
    obtain rfl : fd = fd' := by simpa using hfd'
    exact h fd (by simp) hfd

theorem Fresh.event {k k' : Kernel} {t : Select} {e : Event} (h : Fresh (k, t)) (hsound : Sound k t.tasks)
    (he : k.Happens e k') : Fresh (k', t) := by
  refine ⟨fun hpc hnil => ?_, fun fd hfd => ?_, fun fd hfd hready => ?_⟩
  · have hne : k.backlog ≠ [] := h.accept hpc
    cases he with
    | connect _ => exact List.append_ne_nil_of_left_ne_nil hne _ hnil
    | _ => exact hne hnil
  · exact (hsound.readable_event he (h.current fd hfd)).2
  · exact (hsound.readable_event he (h.behind fd hfd hready)).2

/-- The connections behind the iterator are left alone by the call for that of the iterator. -/
theorem Fresh.behind_call {k k' : Kernel} {t : Select} {call : Call} {ret : Ret} (h : Fresh (k, t)) (hinv : t.Inv)
    (hsound : Sound k t.tasks) (hret : k.Returns call ret k') {fd : Nat} {task : Task}
    (hcurrent : t.current = some (fd, task)) (howner : ∀ fd', fd' ≠ fd → k'.owner fd' = k.owner fd')
    (hrecv : ∀ fd' size, call = .recv fd' size → fd' = fd) :
    ∀ fd' ∈ t.behind, fd' ∈ t.readFds → k'.Readable fd' := by
  intro fd' hfd' hready
  have hne : fd' ≠ fd := by
    rintro rfl
    exact (hinv.nodup_rest hcurrent).1 (List.mem_append_right _ hfd')
  exact hsound.readable_call hret (howner fd' hne) (fun size hcall => hne (hrecv fd' size hcall)) (h.behind fd' hfd' hready)

theorem Fresh.call {k k' : Kernel} {t : Select} {call : Call} {next : Ret → Select} {ret : Ret} (h : Fresh (k, t))
    (hinv : t.Inv) (hsound : Sound k t.tasks) (hoffer : (call, next) ∈ t.offers) (hret : k.Returns call ret k') :
    Fresh (k', next ret) := by
  obtain ⟨pc, recvBuffer, readFds, before, behind⟩ := t
  cases pc with
  | select =>
    obtain rfl : behind = [] := hinv.behind (.inl rfl)
    cases List.mem_singleton.1 hoffer
    cases hret with
    | selectError _ => exact h
    | badDescriptor hfd _ => simp at hfd
    | select _ =>
      have hready : ∀ fd ∈ before.filter k.Readable, k.Readable fd := fun fd hfd =>
        of_decide_eq_true (List.mem_filter.1 hfd).2
      by_cases hbacklog : k.backlog = []
      · simp only [hbacklog, ne_eq, not_true_eq_false, decide_false]
        exact fresh_scan fun fd _ hfd => hready fd hfd
      · simp only [ne_eq, hbacklog, not_false_eq_true, decide_true]
        exact ⟨fun _ => hbacklog, by simp, nofun⟩
  | accept =>
    obtain rfl : behind = [] := hinv.behind (.inr (.inl rfl))
    cases List.mem_singleton.1 hoffer
    cases hret with
    | acceptError => exact ⟨nofun, by simp, nofun⟩
    | badDescriptor hfd _ => simp at hfd
    | @accept c cs fd _ _ =>
      by_cases hfd : fd < fdSetSize <;> exact ⟨by simp [hfd], by simp [hfd], nofun⟩
  | getpeername fd =>
    cases List.mem_singleton.1 hoffer
    obtain ⟨howner, -, -⟩ := hret.frame nofun nofun nofun
    have hbehind := h.behind_call hinv hsound hret rfl (fun _ _ => by rw [howner]) nofun
    cases hret with
    | getpeername _ =>
      refine ⟨nofun, fun fd' hfd' => ?_, hbehind⟩
      obtain rfl : fd = fd' := by simpa using hfd'
      exact h.current fd (.inl rfl)
    | getpeernameError _ => exact fresh_scan hbehind
    | badDescriptor _ _ => exact fresh_scan hbehind
  | recv fd =>
    cases List.mem_singleton.1 hoffer
    obtain ⟨howner, -, -⟩ := hret.frame nofun nofun nofun
    have hbehind := h.behind_call hinv hsound hret rfl (fun _ _ => by rw [howner]) (by
      intro fd' size hcall
      cases hcall
      rfl)
    cases hret with
    | recvError _ => exact ⟨nofun, by simp, hbehind⟩
    | recvEof _ _ _ => exact ⟨nofun, by simp, hbehind⟩
    | badDescriptor _ _ => exact ⟨nofun, by simp, hbehind⟩
    | @recv _ _ _ data _ _ _ _ _ =>
      by_cases hzero : 0 ∈ store data recvBuffer <;> exact ⟨by simp [hzero], by simp [hzero], hbehind⟩
  | send fd ret =>
    cases List.mem_singleton.1 hoffer
    obtain ⟨howner, -, -⟩ := hret.frame nofun nofun nofun
    exact fresh_scan (h.behind_call hinv hsound hret rfl (fun _ _ => by rw [howner]) nofun)
  | close fd =>
    cases List.mem_singleton.1 hoffer
    have howner : ∀ fd', fd' ≠ fd → k'.owner fd' = k.owner fd' := by
      intro fd' hne
      cases hret with
      | close _ => exact Function.update_of_ne hne ..
      | badDescriptor _ _ => rfl
    exact fresh_scan (h.behind_call hinv hsound hret rfl howner nofun)
  | farDescriptor => cases hoffer
  | overrun _ _ => cases hoffer

theorem fresh_of_run {as : List Action} {s : Kernel × Select} (h : program.system.Run as s) : Fresh s := by
  induction h with
  | nil h =>
    cases h
    exact ⟨nofun, by simp [program], nofun⟩
  | @snoc as s a s' hrun hstep ih =>
    obtain ⟨hinv, hsound, -⟩ := disciplined.run hrun
    cases hstep with
    | event p he => exact ih.event hsound he
    | call hoffer hret => exact ih.call hinv hsound hoffer hret

theorem tasks_isSome {t : Select} {fd : Nat} : (t.tasks fd).isSome ↔ fd ∈ t.connections := by
  cases hcurrent : t.current with
  | none =>
    simp [tasks, connections, hcurrent, idle]
  | some current =>
    by_cases heq : fd = current.1
    · simp [tasks, connections, hcurrent, heq]
    · simp [tasks, connections, hcurrent, heq, idle]

/-! ### Runs -/

/-- The server waits in `select` for all connections, or for a client that does not read what it is sent. -/
theorem waiting_of_run {as : List Action} {s : Kernel × Select} (h : program.system.Run as s) :
    ∀ call next, (call, next) ∈ program.offers s.2 → s.1.Waits call →
      call = .select s.2.connections ∨ ∃ fd data, call = .send fd data := by
  intro call next hoffer hwaits
  obtain ⟨hinv, -, -⟩ := disciplined.run h
  have hfresh := fresh_of_run h
  obtain ⟨k, pc, recvBuffer, readFds, before, behind⟩ := s
  cases pc with
  | select =>
    obtain rfl : behind = [] := hinv.behind (.inl rfl)
    cases List.mem_singleton.1 hoffer
    exact .inl (by simp [connections, current])
  | accept =>
    cases List.mem_singleton.1 hoffer
    exact absurd hwaits (hfresh.accept rfl)
  | getpeername fd =>
    cases List.mem_singleton.1 hoffer
    exact hwaits.elim
  | recv fd =>
    cases List.mem_singleton.1 hoffer
    exact absurd (hfresh.current fd (.inr rfl)) hwaits
  | send fd ret =>
    cases List.mem_singleton.1 hoffer
    exact .inr ⟨fd, _, rfl⟩
  | close fd =>
    cases List.mem_singleton.1 hoffer
    exact hwaits.elim
  | farDescriptor => cases hoffer
  | overrun _ _ => cases hoffer

/-- In every run each client gets back what it sent, `connections` holds each open descriptor once, and the
server waits in `select` for all of them, or for a client that does not read what it is sent. -/
theorem select_serves {as : List Action} {s : Kernel × Select} (h : program.system.Run as s) :
    (∀ c, (s.1.socket c).Echoed) ∧ s.2.connections.Nodup ∧ (∀ fd, fd ∈ s.2.connections ↔ (s.1.owner fd).isSome) ∧
      ∀ call next, (call, next) ∈ program.offers s.2 → s.1.Waits call →
        call = .select s.2.connections ∨ ∃ fd data, call = .send fd data := by
  obtain ⟨hinv, hsound, -⟩ := disciplined.run h
  exact ⟨disciplined.echoed h, hinv.nodup, fun fd => by rw [← tasks_isSome, hsound.owned], waiting_of_run h⟩

/-- After a connection has been accepted and served once, all that can block is `select` for it. -/
theorem select_serves_one : ∃ s, program.system.Run
    [.event .connect, .call (.select []) (.ready true []), .call .accept (.descriptor 4), .event (.deliver 0 [104]),
      .call (.select [4]) (.ready false [4]), .call (.getpeername 4) .done,
      .call (.recv 4 recvBufferSize) (.data [104]), .call (.send 4 [104]) (.sent 1)] s ∧
      (s.1.socket 0).Echoed ∧ (s.1.socket 0).sent = [104] ∧ s.2.connections = [4] ∧ s.2.connections.Nodup := by
  have hconnect : program.system.Run [.event .connect] _ := (Lts.Run.nil rfl).snoc (.event _ (.connect rfl))
  have hfirst : program.system.Run [.event .connect, .call (.select []) (.ready true [])] _ :=
    hconnect.snoc (.call (List.mem_singleton_self _) (.select (.inl (List.cons_ne_nil 0 []))))
  have haccept : program.system.Run
      [.event .connect, .call (.select []) (.ready true []), .call .accept (.descriptor 4)] _ :=
    hfirst.snoc (.call (List.mem_singleton_self _) (.accept rfl rfl))
  have hdeliver : program.system.Run
      [.event .connect, .call (.select []) (.ready true []), .call .accept (.descriptor 4),
        .event (.deliver 0 [104])] _ := haccept.snoc (.event _ (.deliver [104] (.inr rfl) rfl))
  have hselect : program.system.Run
      [.event .connect, .call (.select []) (.ready true []), .call .accept (.descriptor 4),
        .event (.deliver 0 [104]), .call (.select [4]) (.ready false [4])] _ :=
    hdeliver.snoc (.call (List.mem_singleton_self _) (.select (.inr ⟨4, List.mem_singleton_self _, fun c hc =>
      (Option.some.inj hc : 0 = c) ▸ Or.inl (List.cons_ne_nil 104 [])⟩)))
  have hpeer : program.system.Run
      [.event .connect, .call (.select []) (.ready true []), .call .accept (.descriptor 4),
        .event (.deliver 0 [104]), .call (.select [4]) (.ready false [4]), .call (.getpeername 4) .done] _ :=
    hselect.snoc (.call (List.mem_singleton_self _) (@Kernel.Returns.getpeername _ 4 0 rfl))
  have hrecv : program.system.Run
      [.event .connect, .call (.select []) (.ready true []), .call .accept (.descriptor 4),
        .event (.deliver 0 [104]), .call (.select [4]) (.ready false [4]), .call (.getpeername 4) .done,
        .call (.recv 4 recvBufferSize) (.data [104])] _ :=
    hpeer.snoc (.call (List.mem_singleton_self _)
      (@Kernel.Returns.recv _ 4 0 recvBufferSize [104] [] rfl rfl (List.cons_ne_nil 104 []) (by decide)))
  have hrun : program.system.Run
      [.event .connect, .call (.select []) (.ready true []), .call .accept (.descriptor 4),
        .event (.deliver 0 [104]), .call (.select [4]) (.ready false [4]), .call (.getpeername 4) .done,
        .call (.recv 4 recvBufferSize) (.data [104]), .call (.send 4 [104]) (.sent 1)] _ :=
    hrecv.snoc (.call (List.mem_singleton_self _) (@Kernel.Returns.send _ 4 0 1 [104] rfl rfl (Nat.le_refl 1)))
  obtain ⟨hechoed, hnodup, -⟩ := select_serves hrun
  exact ⟨_, hrun, hechoed 0, rfl, rfl, hnodup⟩

/-- While the clients do nothing and no call fails, a time-out of `select` being a failure, the server comes to
rest. There every client of an open connection has got everything back if no call for it has failed and no
`send` has fallen short, unless the server waits for one that does not read, or has gone outside of the set
or of the buffer. -/
theorem select_comes_to_rest {as : List Action} {s : Kernel × Select} (hrun : program.system.Run as s) :
    program.ComesToRest s (s.1.load + rank s.2) fun s' =>
      (s'.2.pc = .farDescriptor ∧ ∃ fd ∈ s'.2.connections, fdSetSize ≤ fd) ∨
      ((∃ fd ret, s'.2.pc = .overrun fd ret) ∧ 0 ∉ s'.2.recvBuffer) ∨
      (∃ fd ret c, s'.2.pc = .send fd ret ∧ s'.1.owner fd = some c ∧ (s'.1.socket c).writable = false) ∨
      s'.1.backlog = [] ∧ ∀ c, (s'.1.socket c).phase = .accepted → (s'.1.socket c).Settled := by
  refine disciplined.comesToRest ranked hrun fun n s' hworks hblocked => ?_
  obtain ⟨as', hrun'⟩ := hworks.run hrun
  obtain ⟨hinv, hsound, -⟩ := disciplined.run hrun'
  have hwaits := waiting_of_run hrun'
  obtain ⟨k, pc, recvBuffer, readFds, before, behind⟩ := s'
  have hno : ∀ call next, (call, next) ∈ offers ⟨pc, recvBuffer, readFds, before, behind⟩ → k.Waits call := by
    intro call next hoffer
    exact hblocked (call, next) hoffer
  cases pc with
  | select =>
    obtain rfl : behind = [] := hinv.behind (.inl rfl)
    obtain ⟨hbacklog, hquiet⟩ : k.Waits (.select before) := hno _ _ (List.mem_singleton_self _)
    refine .inr (.inr (.inr ⟨hbacklog, fun c hc => ?_⟩))
    obtain ⟨fd, hfd⟩ := (hsound.accepted c).1 hc
    have hmem : fd ∈ before := by
      have hconnections : fd ∈ connections ⟨.select, recvBuffer, readFds, before, []⟩ := by
        rw [← tasks_isSome, ← hsound.owned, hfd]
        rfl
      simpa [connections, current] using hconnections
    have htask : tasks ⟨.select, recvBuffer, readFds, before, []⟩ fd = some (.idle false) := by
      simp [tasks, current, idle, hmem]
    exact disciplined.settled hrun' hfd htask (hquiet fd hmem)
  | accept =>
    have hwait := hno _ _ (List.mem_singleton_self _)
    rcases hwaits _ _ (List.mem_singleton_self _) hwait with heq | ⟨_, _, heq⟩ <;> cases heq
  | getpeername fd => exact (hno _ _ (List.mem_singleton_self _)).elim
  | recv fd =>
    have hwait := hno _ _ (List.mem_singleton_self _)
    rcases hwaits _ _ (List.mem_singleton_self _) hwait with heq | ⟨_, _, heq⟩ <;> cases heq
  | send fd ret =>
    obtain ⟨c, hc, hfull⟩ : k.Waits (.send fd (recvBuffer.take ret)) := hno _ _ (List.mem_singleton_self _)
    exact .inr (.inr (.inl ⟨fd, ret, c, rfl, hc, hfull⟩))
  | close fd => exact (hno _ _ (List.mem_singleton_self _)).elim
  | farDescriptor =>
    obtain ⟨fd, hfd, hfar⟩ := hinv.far rfl
    exact .inl ⟨rfl, fd, by simp [connections, show fd ∈ before from hfd], hfar⟩
  | overrun fd ret => exact .inr (.inl ⟨⟨fd, ret, rfl⟩, hinv.overrun fd ret rfl⟩)

theorem select_comes_to_rest_one : ∃ s n s', program.system.Run [.event .connect] s ∧
    program.Works n s s' ∧ program.Blocked s' := by
  have hrun : program.system.Run [.event .connect] _ := (Lts.Run.nil rfl).snoc (.event _ (.connect rfl))
  obtain ⟨⟨n, s', hworks, hblocked⟩, -⟩ := select_comes_to_rest hrun
  exact ⟨_, n, s', hrun, hworks, hblocked⟩

/-! ### Turns -/

/-- `select` has reported descriptors. -/
def isRound : Action → Bool
  | .call (.select _) (.ready _ _) => true
  | _ => false

def isAccept : Action → Bool
  | .call .accept _ => true
  | _ => false

/-- What has been counted, as long as `fd` has not had its turn. -/
structure Pending (fd rounds accepts : Nat) (t : Select) : Prop where
  le : rounds ≤ accepts + 1
  outside : t.pc = .select ∨ t.pc = .farDescriptor → rounds ≤ accepts
  ahead : t.pc = .select ∨ t.pc = .accept ∨ t.pc = .farDescriptor ∨ t.pc = .getpeername fd ∨
    fd ∈ t.behind ∧ fd ∈ t.readFds

theorem pending_scan {fd rounds accepts : Nat} (hle : rounds ≤ accepts + 1) {recvBuffer : List UInt8}
    {readFds before behind : List Nat} (hfd : fd ∈ behind) (hready : fd ∈ readFds) :
    Pending fd rounds accepts (scan recvBuffer readFds before behind) := by
  rcases scan_cases recvBuffer readFds before behind with ⟨hnone, -⟩ | ⟨skipped, fd', behind', rfl, -, hskipped, heq⟩
  · exact absurd hready (hnone fd hfd)
  · rw [heq]
    refine ⟨hle, by simp, ?_⟩
    rcases List.mem_append.1 hfd with hfd | hfd
    · exact absurd hready (hskipped fd hfd)
    · rcases List.mem_cons.1 hfd with rfl | hfd
      · exact .inr (.inr (.inr (.inl rfl)))
      · exact .inr (.inr (.inr (.inr ⟨hfd, hready⟩)))

theorem Pending.call {k k' : Kernel} {t : Select} {call : Call} {next : Ret → Select} {ret : Ret}
    {fd rounds accepts : Nat} (h : Pending fd rounds accepts t) (hinv : t.Inv) (hsound : Sound k t.tasks)
    (hoffer : (call, next) ∈ t.offers) (hret : k.Returns call ret k') (howned : (k.owner fd).isSome)
    (hreadable : k.Readable fd) (hturn : call ≠ .getpeername fd) :
    Pending fd (rounds + [Action.call call ret].countP isRound) (accepts + [Action.call call ret].countP isAccept)
      (next ret) ∧ k'.owner fd = k.owner fd ∧ k'.Readable fd := by
  have hmem : fd ∈ t.connections := by rwa [← tasks_isSome, ← hsound.owned]
  obtain ⟨pc, recvBuffer, readFds, before, behind⟩ := t
  obtain ⟨hle, houtside, hahead⟩ := h
  -- in the loop, the call is for another connection
  have hother : ∀ {fd' task}, current ⟨pc, recvBuffer, readFds, before, behind⟩ = some (fd', task) →
      pc ≠ .getpeername fd → (fd ∈ behind ∧ fd ∈ readFds) ∧ fd ≠ fd' := by
    intro fd' task hcurrent hpc
    have hbehind : fd ∈ behind ∧ fd ∈ readFds := by
      rcases hahead with rfl | rfl | rfl | rfl | hbehind
      · cases hcurrent
      · cases hcurrent
      · cases hcurrent
      · exact absurd rfl hpc
      · exact hbehind
    refine ⟨hbehind, ?_⟩
    rintro rfl
    exact (hinv.nodup_rest hcurrent).1 (List.mem_append_right _ hbehind.1)
  cases pc with
  | select =>
    obtain rfl : behind = [] := hinv.behind (.inl rfl)
    have hlt := houtside (.inl rfl)
    have hbefore : fd ∈ before := by simpa [connections, current] using hmem
    cases List.mem_singleton.1 hoffer
    obtain ⟨howner, -, -⟩ := hret.frame nofun nofun nofun
    refine ⟨?_, by rw [howner], hsound.readable_call hret (by rw [howner]) nofun hreadable⟩
    cases hret with
    | selectError _ => exact ⟨hle, fun _ => hlt, .inl rfl⟩
    | badDescriptor hfd _ => simp at hfd
    | select _ =>
      have hready : fd ∈ before.filter k.Readable := List.mem_filter.2 ⟨hbefore, decide_eq_true hreadable⟩
      by_cases hbacklog : k.backlog = []
      · simp only [hbacklog, ne_eq, not_true_eq_false, decide_false]
        exact pending_scan (Nat.succ_le_succ hlt) hbefore hready
      · simp only [ne_eq, hbacklog, not_false_eq_true, decide_true]
        exact ⟨Nat.succ_le_succ hlt, by simp, .inr (.inl rfl)⟩
  | accept =>
    cases List.mem_singleton.1 hoffer
    have howner : k'.owner fd = k.owner fd := by
      cases hret with
      | acceptError => rfl
      | badDescriptor _ _ => rfl
      | @accept c cs fd' _ hfree =>
        refine Function.update_of_ne ?_ ..
        rintro rfl
        rw [hfree] at howned
        cases howned
    refine ⟨?_, howner, hsound.readable_call hret howner nofun hreadable⟩
    cases hret with
    | acceptError => exact ⟨Nat.le_succ_of_le hle, fun _ => hle, .inl rfl⟩
    | badDescriptor hfd _ => simp at hfd
    | @accept c cs fd' _ _ =>
      refine ⟨Nat.le_succ_of_le hle, fun _ => hle, ?_⟩
      by_cases hfd : fd' < fdSetSize
      · exact .inl (if_pos hfd)
      · exact .inr (.inr (.inl (if_neg hfd)))
  | getpeername fd' =>
    cases List.mem_singleton.1 hoffer
    obtain ⟨⟨hfd, hready⟩, -⟩ := hother rfl fun hpc => hturn (by cases hpc; rfl)
    obtain ⟨howner, -, -⟩ := hret.frame nofun nofun nofun
    refine ⟨?_, by rw [howner], hsound.readable_call hret (by rw [howner]) nofun hreadable⟩
    cases hret with
    | getpeername _ => exact ⟨hle, by simp, .inr (.inr (.inr (.inr ⟨hfd, hready⟩)))⟩
    | getpeernameError _ => exact pending_scan hle hfd hready
    | badDescriptor _ _ => exact pending_scan hle hfd hready
  | recv fd' =>
    cases List.mem_singleton.1 hoffer
    obtain ⟨⟨hfd, hready⟩, hne⟩ := hother rfl nofun
    obtain ⟨howner, -, -⟩ := hret.frame nofun nofun nofun
    have hrecv : ∀ size, Call.recv fd' recvBufferSize ≠ .recv fd size := by
      intro size hcall
      cases hcall
      exact hne rfl
    refine ⟨?_, by rw [howner], hsound.readable_call hret (by rw [howner]) hrecv hreadable⟩
    have hahead : fd ∈ behind ∧ fd ∈ readFds := ⟨hfd, hready⟩
    cases hret with
    | recvError _ => exact ⟨hle, by simp, .inr (.inr (.inr (.inr hahead)))⟩
    | recvEof _ _ _ => exact ⟨hle, by simp, .inr (.inr (.inr (.inr hahead)))⟩
    | badDescriptor _ _ => exact ⟨hle, by simp, .inr (.inr (.inr (.inr hahead)))⟩
    | @recv _ _ _ data _ _ _ _ _ =>
      refine ⟨hle, ?_, .inr (.inr (.inr (.inr hahead)))⟩
      by_cases hzero : 0 ∈ store data recvBuffer <;> simp [hzero]
  | send fd' ret =>
    cases List.mem_singleton.1 hoffer
    obtain ⟨⟨hfd, hready⟩, -⟩ := hother rfl nofun
    obtain ⟨howner, -, -⟩ := hret.frame nofun nofun nofun
    exact ⟨pending_scan hle hfd hready, by rw [howner],
      hsound.readable_call hret (by rw [howner]) nofun hreadable⟩
  | close fd' =>
    cases List.mem_singleton.1 hoffer
    obtain ⟨⟨hfd, hready⟩, hne⟩ := hother rfl nofun
    have howner : k'.owner fd = k.owner fd := by
      cases hret with
      | close _ => exact Function.update_of_ne hne ..
      | badDescriptor _ _ => rfl
    exact ⟨pending_scan hle hfd hready, howner, hsound.readable_call hret howner nofun hreadable⟩
  | farDescriptor => cases hoffer
  | overrun _ _ => cases hoffer

/-- Until a connection that has something to read has its turn, `select` reports at most once more than
`accept` is called. -/
theorem turn_comes {as as' : List Action} {s s' : Kernel × Select} (hrun : program.system.Run as s)
    (hselect : s.2.pc = .select) {fd : Nat} (howned : (s.1.owner fd).isSome) (hreadable : s.1.Readable fd)
    (hpath : program.system.Path s as' s') (hturn : ∀ ret, .call (.getpeername fd) ret ∉ as') :
    as'.countP isRound ≤ as'.countP isAccept + 1 := by
  have hall : Pending fd (as'.countP isRound) (as'.countP isAccept) s'.2 ∧ s'.1.owner fd = s.1.owner fd ∧
      s'.1.Readable fd := by
    induction hpath with
    | nil => exact ⟨⟨Nat.zero_le _, fun _ => Nat.le_refl _, .inl hselect⟩, rfl, hreadable⟩
    | @snoc as' s' a s'' hpath hstep ih =>
      obtain ⟨hpending, howner, hstill⟩ := ih fun ret hmem => hturn ret (List.mem_append_left _ hmem)
      obtain ⟨hinv, hsound, -⟩ := disciplined.run (hrun.append hpath)
      rw [List.countP_append, List.countP_append]
      cases hstep with
      | event p he =>
        obtain ⟨howner', hstill'⟩ := hsound.readable_event he hstill
        exact ⟨hpending, howner'.trans howner, hstill'⟩
      | @call k k' p call next ret hoffer hret =>
        have hother : call ≠ .getpeername fd := by
          rintro rfl
          exact hturn ret (List.mem_append_right _ (List.mem_singleton_self _))
        obtain ⟨hpending', howner', hstill'⟩ :=
          hpending.call hinv hsound hoffer hret (by rwa [howner]) hstill hother
        exact ⟨hpending', howner'.trans howner, hstill'⟩
  exact hall.1.le

theorem turn_comes_one : ∃ s, program.system.Run [.event .connect, .call (.select []) (.ready true []),
    .call .accept (.descriptor 4), .event (.deliver 0 [65])] s ∧
      [Action.call (.select [4]) (.ready false [4])].countP isRound ≤
        [Action.call (.select [4]) (.ready false [4])].countP isAccept + 1 := by
  have hconnect : program.system.Run [.event .connect] _ := (Lts.Run.nil rfl).snoc (.event _ (.connect rfl))
  have hselect : program.system.Run [.event .connect, .call (.select []) (.ready true [])] _ :=
    hconnect.snoc (.call (List.mem_singleton_self _) (.select (.inl (List.cons_ne_nil 0 []))))
  have haccept : program.system.Run
      [.event .connect, .call (.select []) (.ready true []), .call .accept (.descriptor 4)] _ :=
    hselect.snoc (.call (List.mem_singleton_self _) (.accept rfl rfl))
  have hrun : program.system.Run [.event .connect, .call (.select []) (.ready true []),
      .call .accept (.descriptor 4), .event (.deliver 0 [65])] _ :=
    haccept.snoc (.event _ (.deliver [65] (.inr rfl) rfl))
  refine ⟨_, hrun, ?_⟩
  refine @turn_comes _ _ _ _ hrun rfl 4 rfl ?_ (.snoc .nil (.call (List.mem_singleton_self _)
    (.select (.inr ⟨4, List.mem_singleton_self 4, ?_⟩)))) (by simp)
  · intro c hc
    cases hc
    exact .inl (List.cons_ne_nil 65 [])
  · intro c hc
    cases hc
    exact .inl (List.cons_ne_nil 65 [])

end Select

end CoffeeChat.Echo
