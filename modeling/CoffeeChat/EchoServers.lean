import CoffeeChat.Lib.Progress

/-!
# The echo servers with blocking calls

The server with one thread and the server with a thread for each connection. Both run the same loop
over a connection; the first one accepts the next connection after it, the second one accepts while its
threads run.
-/

namespace CoffeeChat.Echo
open Sockets

def bufferSize : Nat := 1024

/-- The loop over a connection, by the call it is about to make. -/
inductive Worker where
  | recv (fd : Nat)
  | send (fd : Nat) (buffer : List UInt8)
  | close (fd : Nat)
  /-- `<< buffer` has read behind the end of the buffer. -/
  | overrun (fd : Nat) (buffer : List UInt8)
  deriving DecidableEq, Repr

namespace Worker

def fd : Worker → Nat
  | recv fd => fd
  | send fd _ => fd
  | close fd => fd
  | overrun fd _ => fd

def offer : Worker → Option Call
  | recv fd => some (.recv fd bufferSize)
  | send fd buffer => some (.send fd buffer)
  | close fd => some (.close fd)
  | overrun _ _ => none

/-- The loop after its call, none where it is over. -/
def next : Worker → Ret → Option Worker
  -- the zeros behind the data end the text, unless there are none
  | recv fd, .data buffer => some (if buffer.length = bufferSize ∧ 0 ∉ buffer then overrun fd buffer else send fd buffer)
  | recv fd, _ => some (close fd)
  | send fd _, .error => some (close fd)
  | send fd _, _ => some (recv fd)
  | close _, _ => none
  | overrun fd buffer, _ => some (overrun fd buffer)

def task : Worker → Task
  | recv _ => .idle false
  | send _ buffer => .sending buffer
  | close _ => .idle true
  | overrun _ buffer => .sending buffer

/-- Only a full buffer without a zero is read beyond. -/
def Sane : Worker → Prop
  | overrun _ buffer => buffer.length = bufferSize ∧ 0 ∉ buffer
  | _ => True

def rank : Worker → Nat
  | recv _ => 1
  | send _ _ => 2
  | close _ => 0
  | overrun _ _ => 0

theorem permitted {w : Worker} {call : Call} {tasks : Tasks} (hoffer : w.offer = some call)
    (htask : tasks w.fd = some w.task) : Permitted tasks call := by
  cases w with
  | recv fd =>
    cases hoffer
    exact ⟨by decide, _, htask⟩
  | send fd buffer =>
    cases hoffer
    exact htask
  | close fd =>
    cases hoffer
    exact htask
  | overrun fd buffer => cases hoffer

/-- What a worker makes of its descriptor with a call. -/
theorem next_spec {w : Worker} {call : Call} {ret : Ret} {tasks : Tasks} (hoffer : w.offer = some call)
    (hret : Possible tasks call ret) :
    (∃ w', w.next ret = some w' ∧ w'.fd = w.fd ∧ w'.Sane ∧
      after tasks call ret = Function.update tasks w.fd (some w'.task) ∧
      (ret ≠ .error → w'.rank < w.rank + gain call ret)) ∨
    w.next ret = none ∧ after tasks call ret = Function.update tasks w.fd none ∧ 0 < gain call ret := by
  cases w with
  | recv fd =>
    cases hoffer
    cases hret with
    | recvError => exact .inl ⟨_, rfl, rfl, trivial, rfl, fun h => absurd rfl h⟩
    | recvEof => exact .inl ⟨_, rfl, rfl, trivial, rfl, fun _ => by simp [rank, gain]⟩
    | @recv fd size data hne hsize =>
      by_cases hfull : data.length = bufferSize ∧ 0 ∉ data
      · exact .inl ⟨.overrun fd data, by rw [next, if_pos hfull], rfl, hfull, rfl, fun _ => by simp [rank, gain]⟩
      · exact .inl ⟨.send fd data, by rw [next, if_neg hfull], rfl, trivial, rfl, fun _ => by simp [rank, gain]⟩
  | send fd buffer =>
    cases hoffer
    cases hret with
    | sendError => exact .inl ⟨_, rfl, rfl, trivial, rfl, fun h => absurd rfl h⟩
    | send => exact .inl ⟨_, rfl, rfl, trivial, rfl, fun _ => by simp [rank, gain]⟩
  | close fd =>
    cases hoffer
    cases hret
    exact .inr ⟨rfl, rfl, by simp [gain]⟩
  | overrun fd buffer => cases hoffer

end Worker

/-! ### One thread -/

/-- `main` of the server with one thread. -/
inductive Serial where
  | accept
  | serving (w : Worker)
  /-- `return 0`. -/
  | exit
  | exited
  deriving DecidableEq, Repr

namespace Serial

def offers : Serial → List (Call × (Ret → Serial))
  | accept => [(.accept, fun ret =>
      match ret with
      | .descriptor fd => serving (.recv fd)
      | _ => exit)]
  | serving w => w.offer.toList.map fun call => (call, fun ret =>
      match w.next ret with
      | some w => serving w
      | none => accept)
  | exit => [(.exit, fun _ => exited)]
  | exited => []

def program : Program Serial := ⟨accept, offers⟩

def tasks : Serial → Tasks
  | serving w => Function.update (fun _ => none) w.fd (some w.task)
  | _ => fun _ => none

def rank : Serial → Nat
  | serving w => w.rank
  | exit => 1
  | _ => 0

def Sane : Serial → Prop
  | serving w => w.Sane
  | _ => True

theorem mem_offers_serving {w : Worker} {call : Call} {next : Ret → Serial}
    (h : (call, next) ∈ offers (serving w)) : w.offer = some call ∧ ∀ ret, next ret =
      match w.next ret with
      | some w => serving w
      | none => accept := by
  obtain ⟨call', hcall, heq⟩ := List.mem_map.1 h
  cases heq
  exact ⟨Option.mem_toList.1 hcall, fun ret => rfl⟩

theorem disciplined : Disciplined program tasks Sane := by
  refine ⟨trivial, rfl, fun {p call next} _ hoffer => ?_, fun {p call next ret} _ hoffer hret => ?_⟩
  · cases p with
    | accept =>
      cases List.mem_singleton.1 hoffer
      trivial
    | serving w => exact Worker.permitted (mem_offers_serving hoffer).1 (by rw [tasks, Function.update_self])
    | exit =>
      cases List.mem_singleton.1 hoffer
      trivial
    | exited => cases hoffer
  · cases p with
    | accept =>
      cases List.mem_singleton.1 hoffer
      cases hret <;> exact ⟨trivial, .refl _⟩
    | serving w =>
      obtain ⟨hcall, hnext⟩ := mem_offers_serving hoffer
      rw [hnext]
      rcases Worker.next_spec hcall hret with ⟨w', hw', hfd, hsane, hafter, -⟩ | ⟨hw', hafter, -⟩
      · rw [hw', hafter]
        simp only [tasks, hfd, Function.update_idem]
        exact ⟨hsane, .refl _⟩
      · rw [hw', hafter]
        simp only [tasks, Function.update_idem]
        rw [show Function.update (fun _ => none) w.fd none = (fun _ => none : Tasks) from Function.update_eq_self w.fd _]
        exact ⟨trivial, .refl _⟩
    | exit =>
      cases List.mem_singleton.1 hoffer
      cases hret
      exact ⟨trivial, .refl _⟩
    | exited => cases hoffer

theorem ranked : Ranked program tasks Sane rank := by
  intro p call next ret _ hoffer hret hne _
  cases p with
  | accept =>
    cases List.mem_singleton.1 hoffer
    cases hret with
    | acceptError => exact absurd rfl hne
    | accept _ => simp [rank, Worker.rank, gain]
  | serving w =>
    obtain ⟨hcall, hnext⟩ := mem_offers_serving hoffer
    rw [hnext]
    rcases Worker.next_spec hcall hret with ⟨w', hw', -, -, -, hless⟩ | ⟨hw', -, hgain⟩
    · rw [hw']
      exact hless hne
    · rw [hw']
      exact Nat.lt_of_lt_of_le hgain (Nat.le_add_left _ _)
  | exit =>
    cases List.mem_singleton.1 hoffer
    exact Nat.zero_lt_one.trans_le (Nat.le_add_right _ _)
  | exited => cases hoffer

/-- The connection that is served is the last one that was accepted. -/
theorem newest {as : List Action} {s : Kernel × Serial} (h : program.system.Run as s) {w : Worker}
    (hserving : s.2 = serving w) {c : Nat} (hc : s.1.owner w.fd = some c) :
    c + 1 + s.1.backlog.length = s.1.count := by
  induction h generalizing w c with
  | nil h =>
    rw [show _ = _ from h] at hserving
    cases hserving
  | @snoc as s a s' hrun hstep ih =>
    obtain ⟨-, hsound, -⟩ := disciplined.run hrun
    cases hstep with
    | @event k k' e p he =>
      have ih : k.owner w.fd = some c → c + 1 + k.backlog.length = k.count := ih hserving
      cases he with
      | connect _ =>
        have hold := ih hc
        simp only [List.length_append, List.length_singleton]
        omega
      | deliver _ _ _ => exact ih hc
      | finish _ => exact ih hc
      | room _ _ => exact ih hc
    | @call k k' p call next ret hoffer hret =>
      cases p with
      | accept =>
        cases List.mem_singleton.1 hoffer
        cases hret with
        | acceptError => cases hserving
        | badDescriptor hfd _ => simp at hfd
        | @accept c' cs fd hbacklog hfree =>
          cases hserving
          obtain ⟨a, hordered⟩ := hsound.ordered
          obtain ⟨rfl, hlt, -⟩ := hordered.grant fd hbacklog
          have hlength := congrArg List.length hordered.backlog
          rw [hbacklog, List.length_cons, List.length_range'] at hlength
          change Function.update k.owner fd (some a) fd = some c at hc
          rw [Function.update_self, Option.some.injEq] at hc
          change c + 1 + cs.length = k.count
          dsimp only at hlt hlength
          omega
      | serving w₀ =>
        obtain ⟨hcall, hnext⟩ := mem_offers_serving hoffer
        have hpossible := hsound.possible (disciplined.permitted (disciplined.run hrun).1 hoffer) hret
        rcases Worker.next_spec hcall hpossible with ⟨w', hw', hfd, -, -, -⟩ | ⟨hw', -, -⟩
        · simp only [hnext, hw', serving.injEq] at hserving
          subst hserving
          have hframe := hret.frame (by rintro rfl; cases w₀ <;> cases hcall)
            (by rintro fd rfl; cases w₀ <;> cases hcall; cases hw') (by rintro rfl; cases w₀ <;> cases hcall)
          obtain ⟨howner, hcount, hbacklog⟩ := hframe
          dsimp only at hc ⊢
          rw [howner, hfd] at hc
          rw [hcount, hbacklog]
          exact ih rfl hc
        · simp only [hnext, hw', reduceCtorEq] at hserving
      | exit =>
        cases List.mem_singleton.1 hoffer
        cases hserving
      | exited => cases hoffer

theorem serving_of_task {p : Serial} {fd : Nat} {task : Task} (h : tasks p fd = some task) :
    ∃ w, p = serving w ∧ w.fd = fd := by
  cases p with
  | serving w =>
    refine ⟨w, rfl, ?_⟩
    by_contra hne
    rw [tasks, Function.update_of_ne (Ne.symm hne)] at h
    cases h
  | _ => cases h

/-- Connections are served in the order in which they came. -/
theorem order_of_run {as : List Action} {s : Kernel × Serial} (h : program.system.Run as s) {c : Nat}
    (hc : (s.1.socket c).phase = .accepted) (c' : Nat) :
    (c' < c → (s.1.socket c').phase = .closed) ∧
      (c < c' → (s.1.socket c').phase = .queued ∨ s.1.socket c' = .absent) := by
  obtain ⟨-, hsound, -⟩ := disciplined.run h
  obtain ⟨a, hordered⟩ := hsound.ordered
  have hlength := congrArg List.length hordered.backlog
  rw [List.length_range'] at hlength
  have hle := hordered.le
  have hnewest : ∀ c, (s.1.socket c).phase = .accepted → c + 1 = a := by
    intro c hc
    obtain ⟨fd, hfd⟩ := (hsound.accepted c).1 hc
    obtain ⟨task, htask⟩ := hsound.task hfd
    obtain ⟨w, hserving, rfl⟩ := serving_of_task htask
    have hlast := newest h hserving hfd
    omega
  have hlast := hnewest c hc
  refine ⟨fun hless => ?_, fun hless => ?_⟩
  · refine (hordered.served c' (by omega)).resolve_left fun hc' => ?_
    have hlast' := hnewest c' hc'
    omega
  · by_cases hcount : c' < s.1.count
    · exact .inl (hordered.queued c' (by omega) hcount)
    · exact .inr (hordered.absent c' (by omega))

theorem owner_of_task {as : List Action} {s : Kernel × Serial} (h : program.system.Run as s) {fd : Nat} {task : Task}
    (htask : tasks s.2 fd = some task) : ∃ c, s.1.owner fd = some c := by
  obtain ⟨-, hsound, -⟩ := disciplined.run h
  refine Option.isSome_iff_exists.1 ?_
  rw [hsound.owned fd, htask]
  rfl

/-- While the clients do nothing and no call fails, the server comes to rest. There it waits for a connection,
all those before being closed, or it is with one client: this one does not read, or keeps its connection
open and has got everything back if no call for it has failed and no `send` has fallen short; and the later
ones have got nothing. -/
theorem serial_comes_to_rest {as : List Action} {s : Kernel × Serial} (hrun : program.system.Run as s) :
    program.ComesToRest s (s.1.load + rank s.2) fun s' =>
      s'.2 = .exited ∨
      (∃ fd buffer, s'.2 = serving (.overrun fd buffer) ∧ buffer.length = bufferSize ∧ 0 ∉ buffer) ∨
      (s'.1.backlog = [] ∧ ∀ c, (s'.1.socket c).phase ≠ .accepted) ∨
      ∃ c, (s'.1.socket c).phase = .accepted ∧
        ((s'.1.socket c).writable = true → (s'.1.socket c).Settled) ∧ ∀ c', c < c' → (s'.1.socket c').sent = [] := by
  refine disciplined.comesToRest ranked hrun fun n s' hworks hblocked => ?_
  obtain ⟨as', hrun'⟩ := hworks.run hrun
  obtain ⟨hsane, hsound, -⟩ := disciplined.run hrun'
  have hlater : ∀ c, (s'.1.socket c).phase = .accepted → ∀ c', c < c' → (s'.1.socket c').sent = [] := by
    intro c hc c' hless
    rcases (order_of_run hrun' hc c').2 hless with hqueued | habsent
    · exact (disciplined.echoed hrun' c').queued hqueued
    · rw [habsent]
      rfl
  cases hp : s'.2 with
  | accept =>
    have hbacklog : s'.1.Waits .accept := hblocked (.accept, _) (by rw [hp]; exact List.mem_singleton_self _)
    refine .inr (.inr (.inl ⟨hbacklog, fun c hc => ?_⟩))
    obtain ⟨fd, hfd⟩ := (hsound.accepted c).1 hc
    obtain ⟨task, htask⟩ := hsound.task hfd
    rw [hp] at htask
    cases htask
  | serving w =>
    have hwaits : ∀ {call}, w.offer = some call → s'.1.Waits call := by
      intro call hcall
      exact hblocked (call, _) (by rw [hp]; exact List.mem_map.2 ⟨call, Option.mem_toList.2 hcall, rfl⟩)
    have htask : tasks s'.2 w.fd = some w.task := by
      rw [hp, tasks, Function.update_self]
    obtain ⟨c, hc⟩ := owner_of_task hrun' htask
    have haccepted := hsound.phase hc
    cases w with
    | recv fd =>
      exact .inr (.inr (.inr ⟨c, haccepted, fun _ => disciplined.settled hrun' hc htask (hwaits rfl), hlater c haccepted⟩))
    | send fd buffer =>
      obtain ⟨c', hc', hwritable⟩ : s'.1.Waits (.send fd buffer) := hwaits rfl
      cases hc.symm.trans hc'
      refine .inr (.inr (.inr ⟨c, haccepted, fun h => ?_, hlater c haccepted⟩))
      rw [hwritable] at h
      cases h
    | close fd => exact (hwaits rfl : s'.1.Waits (.close fd)).elim
    | overrun fd buffer =>
      rw [hp] at hsane
      exact .inr (.inl ⟨fd, buffer, rfl, hsane⟩)
  | exit => exact (hblocked (.exit, _) (by rw [hp]; exact List.mem_singleton_self _) : s'.1.Waits .exit).elim
  | exited => exact .inl rfl

theorem serial_comes_to_rest_one : ∃ s n s', program.system.Run [.event .connect] s ∧
    program.Works n s s' ∧ program.Blocked s' := by
  have hrun : program.system.Run [.event .connect] _ := (Lts.Run.nil rfl).snoc (.event _ (.connect rfl))
  obtain ⟨⟨n, s', hworks, hblocked⟩, -⟩ := serial_comes_to_rest hrun
  exact ⟨_, n, s', hrun, hworks, hblocked⟩

end Serial

/-! ### A thread for each connection -/

inductive Main where
  | accept
  | exit
  | exited
  deriving DecidableEq, Repr

/-- `main`, and the loops of the threads that it has detached. -/
structure Threads where
  main : Main
  workers : List Worker
  deriving DecidableEq, Repr

namespace Threads

def mainOffer (t : Threads) : List (Call × (Ret → Threads)) :=
  match t.main with
  | .accept => [(.accept, fun ret =>
      match ret with
      | .descriptor fd => { t with workers := t.workers ++ [.recv fd] }
      | _ => { t with main := .exit })]
  -- the threads end with `main`
  | .exit => [(.exit, fun _ => ⟨.exited, []⟩)]
  | .exited => []

/-- The calls of the workers behind `before`. -/
def workerOffers (main : Main) (before : List Worker) : List Worker → List (Call × (Ret → Threads))
  | [] => []
  | w :: behind =>
    (w.offer.toList.map fun call => (call, fun ret => ⟨main, before ++ (w.next ret).toList ++ behind⟩)) ++
      workerOffers main (before ++ [w]) behind

def overruns (t : Threads) : Bool := t.workers.any fun w => w.offer.isNone

/-- After an access outside of a buffer in one of the threads anything may happen; the model ends there. -/
def offers (t : Threads) : List (Call × (Ret → Threads)) :=
  if t.overruns then [] else t.mainOffer ++ workerOffers t.main [] t.workers

def program : Program Threads := ⟨⟨.accept, []⟩, offers⟩

def tasksOf : List Worker → Tasks
  | [] => fun _ => none
  | w :: ws => Function.update (tasksOf ws) w.fd (some w.task)

def tasks (t : Threads) : Tasks := tasksOf t.workers

/-- Each thread has a descriptor of its own. -/
structure Inv (t : Threads) : Prop where
  nodup : (t.workers.map Worker.fd).Nodup
  sane : ∀ w ∈ t.workers, w.Sane
  exited : t.main = .exited → t.workers = []

def mainRank : Main → Nat
  | .exit => 1
  | _ => 0

def workersRank : List Worker → Nat
  | [] => 0
  | w :: ws => w.rank + workersRank ws

def rank (t : Threads) : Nat := mainRank t.main + workersRank t.workers

theorem workersRank_append (ws ws' : List Worker) : workersRank (ws ++ ws') = workersRank ws + workersRank ws' := by
  induction ws with
  | nil => exact (Nat.zero_add _).symm
  | cons w ws ih => rw [List.cons_append, workersRank, workersRank, ih, Nat.add_assoc]

theorem tasksOf_eq_none {ws : List Worker} {fd : Nat} : tasksOf ws fd = none ↔ ∀ w ∈ ws, w.fd ≠ fd := by
  induction ws with
  | nil => exact iff_of_true rfl nofun
  | cons w ws ih =>
    rw [tasksOf, List.forall_mem_cons]
    by_cases heq : w.fd = fd
    · subst heq
      rw [Function.update_self]
      exact iff_of_false nofun fun h => h.1 rfl
    · rw [Function.update_of_ne (Ne.symm heq), ih]
      exact (and_iff_right heq).symm

theorem tasksOf_append_singleton {ws : List Worker} {w : Worker} (h : ∀ w' ∈ ws, w'.fd ≠ w.fd) :
    tasksOf (ws ++ [w]) = Function.update (tasksOf ws) w.fd (some w.task) := by
  induction ws with
  | nil => rfl
  | cons w' ws ih =>
    obtain ⟨hne, hws⟩ := List.forall_mem_cons.1 h
    rw [List.cons_append, tasksOf, ih hws, tasksOf, Function.update_comm hne]

/-- What a step of one thread does to the tasks. -/
theorem tasksOf_replace {before behind : List Worker} {w w' : Worker} (hfd : w'.fd = w.fd)
    (h : ∀ v ∈ before, v.fd ≠ w.fd) :
    tasksOf (before ++ w' :: behind) = Function.update (tasksOf (before ++ w :: behind)) w.fd (some w'.task) := by
  induction before with
  | nil => rw [List.nil_append, List.nil_append, tasksOf, tasksOf, hfd, Function.update_idem]
  | cons v before ih =>
    obtain ⟨hne, hbefore⟩ := List.forall_mem_cons.1 h
    rw [List.cons_append, List.cons_append, tasksOf, tasksOf, ih hbefore, Function.update_comm hne]

theorem tasksOf_remove {before behind : List Worker} {w : Worker} (h₁ : ∀ v ∈ before, v.fd ≠ w.fd)
    (h₂ : ∀ v ∈ behind, v.fd ≠ w.fd) :
    tasksOf (before ++ behind) = Function.update (tasksOf (before ++ w :: behind)) w.fd none := by
  induction before with
  | nil =>
    rw [List.nil_append, List.nil_append, tasksOf, Function.update_idem, ← tasksOf_eq_none.2 h₂,
      Function.update_eq_self]
  | cons v before ih =>
    obtain ⟨hne, hbefore⟩ := List.forall_mem_cons.1 h₁
    rw [List.cons_append, List.cons_append, tasksOf, tasksOf, ih hbefore, Function.update_comm hne]

theorem tasksOf_mem {ws : List Worker} {w : Worker} (hnodup : (ws.map Worker.fd).Nodup) (hw : w ∈ ws) :
    tasksOf ws w.fd = some w.task := by
  induction ws with
  | nil => cases hw
  | cons v ws ih =>
    obtain ⟨hv, hnodup⟩ := List.nodup_cons.1 hnodup
    rw [tasksOf]
    rcases List.mem_cons.1 hw with rfl | hw
    · rw [Function.update_self]
    · rw [Function.update_of_ne, ih hnodup hw]
      intro heq
      exact hv (heq ▸ List.mem_map_of_mem hw)

theorem exists_of_tasksOf {ws : List Worker} {fd : Nat} {task : Task} (h : tasksOf ws fd = some task) :
    ∃ w ∈ ws, w.fd = fd ∧ w.task = task := by
  induction ws with
  | nil => cases h
  | cons v ws ih =>
    rw [tasksOf] at h
    by_cases heq : fd = v.fd
    · subst heq
      rw [Function.update_self] at h
      exact ⟨v, List.mem_cons_self, rfl, Option.some.inj h⟩
    · rw [Function.update_of_ne heq] at h
      obtain ⟨w, hw, hfd, htask⟩ := ih h
      exact ⟨w, List.mem_cons_of_mem v hw, hfd, htask⟩

theorem mem_workerOffers {main : Main} {before ws : List Worker} {call : Call} {next : Ret → Threads} :
    (call, next) ∈ workerOffers main before ws ↔ ∃ ws₁ w ws₂, ws = ws₁ ++ w :: ws₂ ∧ w.offer = some call ∧
      next = fun ret => ⟨main, before ++ ws₁ ++ (w.next ret).toList ++ ws₂⟩ := by
  induction ws generalizing before with
  | nil => simp [workerOffers]
  | cons v ws ih =>
    rw [workerOffers, List.mem_append, ih, List.mem_map]
    constructor
    · rintro (⟨call', hcall, heq⟩ | ⟨ws₁, w, ws₂, rfl, hoffer, rfl⟩)
      · cases heq
        exact ⟨[], v, ws, rfl, Option.mem_toList.1 hcall, by simp⟩
      · exact ⟨v :: ws₁, w, ws₂, rfl, hoffer, by simp⟩
    · rintro ⟨ws₁, w, ws₂, heq, hoffer, rfl⟩
      cases ws₁ with
      | nil =>
        cases heq
        exact .inl ⟨call, Option.mem_toList.2 hoffer, by simp⟩
      | cons v' ws₁ =>
        cases heq
        exact .inr ⟨ws₁, w, ws₂, rfl, hoffer, by simp⟩

theorem mem_offers {t : Threads} {call : Call} {next : Ret → Threads} (h : (call, next) ∈ t.offers) :
    t.overruns = false ∧ ((call, next) ∈ t.mainOffer ∨ (call, next) ∈ workerOffers t.main [] t.workers) := by
  unfold offers at h
  split at h
  · cases h
  next hoverruns => exact ⟨by simpa using hoverruns, List.mem_append.1 h⟩

theorem inv_initial : Inv program.init := ⟨List.nodup_nil, nofun, nofun⟩

theorem Inv.accept {t : Threads} (h : t.Inv) (hmain : t.main = .accept) {fd : Nat} (hfree : t.tasks fd = none) :
    Inv { t with workers := t.workers ++ [.recv fd] } ∧
      tasks { t with workers := t.workers ++ [.recv fd] } = Function.update t.tasks fd (some (.idle false)) := by
  have hnew := tasksOf_eq_none.1 hfree
  refine ⟨⟨?_, fun w hw => ?_, fun hexited => ?_⟩, tasksOf_append_singleton hnew⟩
  · rw [List.map_append, List.nodup_append]
    refine ⟨h.nodup, List.nodup_singleton _, fun fd₁ h₁ fd₂ h₂ => ?_⟩
    obtain ⟨w, hw, rfl⟩ := List.mem_map.1 h₁
    rw [List.mem_singleton.1 h₂]
    exact hnew w hw
  · rcases List.mem_append.1 hw with hw | hw
    · exact h.sane w hw
    · rw [List.mem_singleton.1 hw]
      trivial
  · exact absurd (hmain.symm.trans hexited) (by decide)

theorem Inv.worker {t : Threads} (h : t.Inv) {ws₁ ws₂ : List Worker} {w : Worker}
    (hws : t.workers = ws₁ ++ w :: ws₂) {call : Call} (hoffer : w.offer = some call) {ret : Ret}
    (hret : Possible t.tasks call ret) :
    Inv ⟨t.main, ws₁ ++ (w.next ret).toList ++ ws₂⟩ ∧
      tasksOf (ws₁ ++ (w.next ret).toList ++ ws₂) = after t.tasks call ret := by
  have hnodup := h.nodup
  rw [hws, List.map_append, List.map_cons] at hnodup
  have hmiddle := List.nodup_middle.1 hnodup
  obtain ⟨hnew, hrest⟩ := List.nodup_cons.1 hmiddle
  rw [← List.map_append] at hnew hrest
  have hother : ∀ v ∈ ws₁ ++ ws₂, v.fd ≠ w.fd := fun v hv heq => hnew (heq ▸ List.mem_map_of_mem hv)
  have h₁ : ∀ v ∈ ws₁, v.fd ≠ w.fd := fun v hv => hother v (List.mem_append_left ws₂ hv)
  have h₂ : ∀ v ∈ ws₂, v.fd ≠ w.fd := fun v hv => hother v (List.mem_append_right ws₁ hv)
  have hexited : t.main ≠ .exited := by
    intro hmain
    have hnil := h.exited hmain
    rw [hws] at hnil
    exact List.append_ne_nil_of_right_ne_nil ws₁ (List.cons_ne_nil w ws₂) hnil
  have hsane : ∀ v ∈ ws₁ ++ ws₂, v.Sane := by
    intro v hv
    refine h.sane v ?_
    rw [hws]
    rcases List.mem_append.1 hv with hv | hv
    · exact List.mem_append_left _ hv
    · exact List.mem_append_right _ (List.mem_cons_of_mem w hv)
  rcases Worker.next_spec hoffer hret with ⟨w', hw', hfd, hw'sane, hafter, -⟩ | ⟨hw', hafter, -⟩
  · rw [hw', hafter, Option.toList_some, List.append_assoc, List.singleton_append]
    refine ⟨⟨?_, fun v hv => ?_, fun hmain => absurd hmain hexited⟩, ?_⟩
    · rw [List.map_append, List.map_cons, hfd]
      exact hnodup
    · rcases List.mem_append.1 hv with hv | hv
      · exact hsane v (List.mem_append_left ws₂ hv)
      · rcases List.mem_cons.1 hv with rfl | hv
        · exact hw'sane
        · exact hsane v (List.mem_append_right ws₁ hv)
    · rw [tasks, hws]
      exact tasksOf_replace hfd h₁
  · rw [hw', hafter, Option.toList_none, List.append_nil]
    refine ⟨⟨hrest, hsane, fun hmain => absurd hmain hexited⟩, ?_⟩
    rw [tasks, hws]
    exact tasksOf_remove h₁ h₂

theorem disciplined : Disciplined program tasks Inv := by
  refine ⟨inv_initial, rfl, fun {t call next} hinv hoffer => ?_, fun {t call next ret} hinv hoffer hret => ?_⟩
  · obtain ⟨-, hmain | hworker⟩ := mem_offers hoffer
    · unfold mainOffer at hmain
      split at hmain
      · cases List.mem_singleton.1 hmain
        trivial
      · cases List.mem_singleton.1 hmain
        trivial
      · cases hmain
    · obtain ⟨ws₁, w, ws₂, hws, hcall, -⟩ := mem_workerOffers.1 hworker
      exact Worker.permitted hcall (tasksOf_mem hinv.nodup (by simp [hws]))
  · obtain ⟨-, hmain | hworker⟩ := mem_offers hoffer
    · unfold mainOffer at hmain
      split at hmain
      next hphase =>
        cases List.mem_singleton.1 hmain
        cases hret with
        | acceptError => exact ⟨⟨hinv.nodup, hinv.sane, nofun⟩, .refl _⟩
        | accept hfree =>
          obtain ⟨hinv', htasks⟩ := hinv.accept hphase hfree
          exact ⟨hinv', by rw [htasks]; exact .refl _⟩
      · cases List.mem_singleton.1 hmain
        cases hret
        exact ⟨⟨List.nodup_nil, nofun, fun _ => rfl⟩, .refl _⟩
      · cases hmain
    · obtain ⟨ws₁, w, ws₂, hws, hcall, rfl⟩ := mem_workerOffers.1 hworker
      obtain ⟨hinv', htasks⟩ := hinv.worker hws hcall hret
      exact ⟨hinv', by rw [← htasks]; exact .refl _⟩

theorem ranked : Ranked program tasks Inv rank := by
  intro t call next ret hinv hoffer hret hne _
  obtain ⟨-, hmain | hworker⟩ := mem_offers hoffer
  · unfold mainOffer at hmain
    split at hmain
    next hphase =>
      cases List.mem_singleton.1 hmain
      cases hret with
      | acceptError => exact absurd rfl hne
      | accept _ =>
        simp only [rank, workersRank_append, workersRank, Worker.rank, gain]
        omega
    next hphase =>
      cases List.mem_singleton.1 hmain
      cases hret
      simp only [rank, hphase, mainRank, workersRank, gain]
      omega
    · cases hmain
  · obtain ⟨ws₁, w, ws₂, hws, hcall, rfl⟩ := mem_workerOffers.1 hworker
    rcases Worker.next_spec hcall hret with ⟨w', hw', -, -, -, hless⟩ | ⟨hw', -, hgain⟩
    · have hless := hless hne
      simp only [rank, hw', hws, List.nil_append, Option.toList_some, workersRank_append, workersRank]
      omega
    · simp only [rank, hw', hws, List.nil_append, Option.toList_none, workersRank_append, workersRank]
      omega

/-- While no call fails, `main` goes on accepting. -/
theorem main_of_works {n : Nat} {s s' : Kernel × Threads} (h : program.Works n s s') (hmain : s.2.main = .accept) :
    s'.2.main = .accept := by
  induction h with
  | nil s => exact hmain
  | @cons n s s' s'' h _ ih =>
    refine ih ?_
    obtain ⟨call, ret, hne, hstep⟩ := h
    cases hstep with
    | @call k k' t _ next _ hoffer hret =>
      obtain ⟨-, hoffer | hoffer⟩ := mem_offers hoffer
      · have hmain' : t.main = .accept := hmain
        rw [mainOffer, hmain'] at hoffer
        cases List.mem_singleton.1 hoffer
        cases hret with
        | acceptError => exact absurd rfl hne
        | badDescriptor hfd _ => simp at hfd
        | accept _ _ => rfl
      · obtain ⟨ws₁, w, ws₂, -, -, rfl⟩ := mem_workerOffers.1 hoffer
        exact hmain

/-- While the clients do nothing and no call fails, the threads come to rest. There no connection waits, and
every client of an open one that reads what it is sent has got everything back if no call for it has failed
and no `send` has fallen short, whether the others read or not. -/
theorem threads_come_to_rest {as : List Action} {s : Kernel × Threads} (hrun : program.system.Run as s)
    (hmain : s.2.main = .accept) :
    program.ComesToRest s (s.1.load + rank s.2) fun s' =>
      (∃ fd buffer, .overrun fd buffer ∈ s'.2.workers ∧ buffer.length = bufferSize ∧ 0 ∉ buffer) ∨
      s'.1.backlog = [] ∧ ∀ c, (s'.1.socket c).phase = .accepted → (s'.1.socket c).writable = true →
        (s'.1.socket c).Settled := by
  refine disciplined.comesToRest ranked hrun fun n s' hworks hblocked => ?_
  obtain ⟨as', hrun'⟩ := hworks.run hrun
  obtain ⟨hinv, hsound, -⟩ := disciplined.run hrun'
  have hmain' := main_of_works hworks hmain
  by_cases hoverruns : s'.2.overruns = true
  · obtain ⟨w, hw, hnone⟩ := List.any_eq_true.1 hoverruns
    have hsane := hinv.sane w hw
    cases w with
    | overrun fd buffer => exact .inl ⟨fd, buffer, hw, hsane⟩
    | _ => cases hnone
  have hoffers : program.offers s'.2 = s'.2.mainOffer ++ workerOffers s'.2.main [] s'.2.workers := if_neg hoverruns
  refine .inr ⟨?_, fun c hc hwritable => ?_⟩
  · exact hblocked (.accept, _) (by
      rw [hoffers, mainOffer, hmain']
      exact List.mem_append_left _ (List.mem_singleton_self _))
  · obtain ⟨fd, hfd⟩ := (hsound.accepted c).1 hc
    obtain ⟨task, htask⟩ := hsound.task hfd
    obtain ⟨w, hw, rfl, rfl⟩ := exists_of_tasksOf htask
    have hwaits : ∀ {call}, w.offer = some call → s'.1.Waits call := by
      intro call hcall
      obtain ⟨ws₁, ws₂, hws⟩ := List.append_of_mem hw
      exact hblocked (call, _) (by
        rw [hoffers]
        exact List.mem_append_right _ (mem_workerOffers.2 ⟨ws₁, w, ws₂, hws, hcall, rfl⟩))
    cases w with
    | recv fd => exact disciplined.settled hrun' hfd htask (hwaits rfl)
    | send fd buffer =>
      obtain ⟨c', hc', hfull⟩ : s'.1.Waits (.send fd buffer) := hwaits rfl
      cases hfd.symm.trans hc'
      rw [hfull] at hwritable
      cases hwritable
    | close fd => exact (hwaits rfl : s'.1.Waits (.close fd)).elim
    | overrun fd buffer => exact absurd (List.any_eq_true.2 ⟨_, hw, rfl⟩) hoverruns

theorem threads_come_to_rest_one : ∃ s n s', program.system.Run [.event .connect] s ∧
    program.Works n s s' ∧ program.Blocked s' := by
  have hrun : program.system.Run [.event .connect] _ := (Lts.Run.nil rfl).snoc (.event _ (.connect rfl))
  obtain ⟨⟨n, s', hworks, hblocked⟩, -⟩ := threads_come_to_rest hrun rfl
  exact ⟨_, n, s', hrun, hworks, hblocked⟩

end Threads

end CoffeeChat.Echo
