import CoffeeChat.Lib.Service
import Mathlib.Algebra.BigOperators.Group.Finset.Basic
import Mathlib.Algebra.Order.BigOperators.Group.Finset
import Mathlib.Data.Fintype.EquivFin

/-!
# Work that comes to an end

While the clients do nothing, every call of a program that succeeds uses up some of what the kernel
holds for it: a connection to accept, bytes to read, a connection to close. A program that ranks its
states so that its other calls descend therefore gets to where all of its calls block
(`Disciplined.works_le`, `Disciplined.exists_blocked`), and there its calls tell what is left.
-/

universe u

namespace Sockets

/-! ### The load -/

/-- What is to be done for a connection. -/
def Socket.load (s : Socket) : Nat :=
  match s.phase with
  | .queued => 16 + 8 * s.unread.length
  | .accepted => 8 + 8 * s.unread.length
  | _ => 0

def Kernel.load (k : Kernel) : Nat := ∑ c ∈ Finset.range k.count, (k.socket c).load

/-- What a call that succeeds uses up at least. -/
def gain : Call → Ret → Nat
  | .accept, .descriptor _ => 8
  | .recv _ _, .data _ => 8
  | .close _, .done => 8
  | _, _ => 0

theorem load_update (k k' : Kernel) (hcount : k'.count = k.count) {c : Nat} (hc : c < k.count)
    (hother : ∀ c', c' ≠ c → k'.socket c' = k.socket c') :
    k'.load + (k.socket c).load = k.load + (k'.socket c).load := by
  have hmem := Finset.mem_range.2 hc
  have hsame : ∑ c' ∈ (Finset.range k.count).erase c, (k'.socket c').load =
      ∑ c' ∈ (Finset.range k.count).erase c, (k.socket c').load :=
    Finset.sum_congr rfl fun c' hc' => by rw [hother c' (Finset.ne_of_mem_erase hc')]
  rw [Kernel.load, Kernel.load, hcount, ← Finset.add_sum_erase _ _ hmem, ← Finset.add_sum_erase _ _ hmem, hsame]
  omega

theorem Sound.lt_count {k : Kernel} {tasks : Tasks} (h : Sound k tasks) {fd c : Nat} (hfd : k.owner fd = some c) :
    c < k.count := by
  obtain ⟨a, hordered⟩ := h.ordered
  by_contra hge
  have hphase := h.phase hfd
  rw [hordered.absent c (by omega)] at hphase
  cases hphase

theorem Sound.load_modify {k : Kernel} {tasks : Tasks} (h : Sound k tasks) {fd c : Nat} (hfd : k.owner fd = some c)
    (f : Socket → Socket) : (k.modify c f).load + (k.socket c).load = k.load + (f (k.socket c)).load := by
  have hload := load_update k (k.modify c f) rfl (h.lt_count hfd) fun c' hc' => modify_socket_of_ne hc'
  rwa [modify_socket_self] at hload

theorem load_exit (k : Kernel) : k.exit.load = 0 := by
  refine Finset.sum_eq_zero fun c _ => ?_
  change ((k.socket c).abort).load = 0
  unfold Socket.abort
  split
  next h => rw [Socket.load, h]
  · rfl

/-- What a call uses up. -/
theorem Sound.load_call {k k' : Kernel} {tasks : Tasks} {call : Call} {ret : Ret} (h : Sound k tasks)
    (hret : k.Returns call ret k') : k'.load + gain call ret ≤ k.load := by
  have hload : ∀ {fd c} {f : Socket → Socket}, k.owner fd = some c → (f (k.socket c)).load = (k.socket c).load →
      (k.modify c f).load ≤ k.load := by
    intro fd c f hfd heq
    have hmodify := h.load_modify hfd f
    omega
  cases hret with
  | acceptError => exact Nat.le_refl _
  | @accept c cs fd hbacklog hfree =>
    obtain ⟨a, hordered⟩ := h.ordered
    obtain ⟨rfl, hlt, -⟩ := hordered.grant fd hbacklog
    have hqueued := hordered.queued a (Nat.le_refl a) hlt
    have hupdate := load_update k (k.grant fd a cs) rfl hlt fun c' hc' => grant_socket_of_ne hc'
    rw [grant_socket_self] at hupdate
    simp only [Socket.load, hqueued] at hupdate
    simp only [gain]
    omega
  | selectError fds => exact Nat.le_refl _
  | select hready => exact Nat.le_refl _
  | badDescriptor hfd hclosed => rcases hfd with rfl | ⟨_, rfl⟩ | ⟨_, rfl⟩ | rfl <;> exact Nat.le_refl _
  | getpeernameError hfd => exact hload hfd rfl
  | getpeername hfd => exact Nat.le_refl _
  | recvError hfd => exact hload hfd rfl
  | recvEof hfd hempty hended => exact Nat.le_refl _
  | @recv fd c size data rest hfd hunread hne hsize =>
    have hmodify := h.load_modify hfd fun s => { s with unread := rest }
    have hpos := List.length_pos_iff.2 hne
    simp only [Socket.load, h.phase hfd, hunread, List.length_append] at hmodify
    simp only [gain]
    omega
  | sendError hfd => exact hload hfd rfl
  | send hfd hwritable hn => exact hload hfd rfl
  | @close fd c hfd =>
    have hupdate := load_update k (k.release fd c) rfl (h.lt_count hfd) fun c' hc' => release_socket_of_ne hc'
    rw [release_socket_self] at hupdate
    simp only [Socket.load, h.phase hfd] at hupdate
    simp only [gain]
    omega
  | exit => exact (load_exit k).le.trans (Nat.zero_le _)

/-! ### What blocks -/

theorem readable_modify {k : Kernel} {c : Nat} (f : Socket → Socket)
    (hf : ∀ s : Socket, s.Readable → (f s).Readable) {c' : Nat} (h : (k.socket c').Readable) :
    ((k.modify c f).socket c').Readable := by
  by_cases heq : c' = c
  · subst heq
    rw [modify_socket_self]
    exact hf _ h
  · rwa [modify_socket_of_ne heq]

/-- What a client does does not make a call block. -/
theorem Sound.readable_event {k k' : Kernel} {tasks : Tasks} {e : Event} {fd : Nat} (h : Sound k tasks)
    (he : k.Happens e k') (hreadable : k.Readable fd) : k'.owner fd = k.owner fd ∧ k'.Readable fd := by
  cases he with
  | connect _ =>
    refine ⟨rfl, fun c hc => ?_⟩
    dsimp only
    rw [Function.update_of_ne (h.lt_count hc).ne]
    exact hreadable c hc
  | deliver data _ _ =>
    refine ⟨rfl, fun c hc => readable_modify _ (fun s hs => ?_) (hreadable c hc)⟩
    exact hs.imp (List.append_ne_nil_of_left_ne_nil · data) id
  | finish _ => exact ⟨rfl, fun c hc => readable_modify _ (fun s _ => .inr rfl) (hreadable c hc)⟩
  | room b _ =>
    exact ⟨rfl, fun c hc => readable_modify (fun s => { s with writable := b }) (fun s hs => hs) (hreadable c hc)⟩

/-- Neither does a call for another descriptor. -/
theorem Sound.readable_call {k k' : Kernel} {tasks : Tasks} {call : Call} {ret : Ret} {fd : Nat} (h : Sound k tasks)
    (hret : k.Returns call ret k') (howner : k'.owner fd = k.owner fd) (hrecv : ∀ size, call ≠ .recv fd size)
    (hreadable : k.Readable fd) : k'.Readable fd := by
  intro c hc
  have hold := hreadable c (howner ▸ hc)
  cases hret with
  | accept _ _ => exact readable_modify (fun s => { s with phase := .accepted }) (fun s hs => hs) hold
  | getpeernameError _ => exact readable_modify Socket.fail (fun s hs => hs) hold
  | recvError _ => exact readable_modify Socket.fail (fun s hs => hs) hold
  | @recv fd' c' size data rest hfd _ _ _ =>
    have hne : c ≠ c' := by
      rintro rfl
      obtain rfl := h.inj _ _ _ hfd hc
      exact hrecv size rfl
    rwa [modify_socket_of_ne hne]
  | sendError _ => exact readable_modify Socket.fail (fun s hs => hs) hold
  | @send _ _ n data _ _ _ => exact readable_modify (Socket.give data n) (fun s hs => hs) hold
  | close _ => exact readable_modify (fun s => { s with phase := .closed }) (fun s hs => hs) hold
  | exit => cases hc
  | _ => exact hold

theorem Sound.exists_free {k : Kernel} {tasks : Tasks} (h : Sound k tasks) : ∃ fd, k.owner fd = none := by
  by_contra hall
  have hsome : ∀ fd, ∃ c : Fin k.count, k.owner fd = some c.1 := by
    intro fd
    obtain ⟨c, hc⟩ := Option.ne_none_iff_exists'.1 fun hnone => hall ⟨fd, hnone⟩
    exact ⟨⟨c, h.lt_count hc⟩, hc⟩
  choose f hf using hsome
  exact not_injective_infinite_finite f fun fd fd' heq => h.inj fd fd' _ (hf fd) (by rw [hf fd', ← heq])

/-- A permitted call that does not block can succeed. -/
theorem Sound.succeeds {k : Kernel} {tasks : Tasks} {call : Call} (h : Sound k tasks) (hperm : Permitted tasks call)
    (hwaits : ¬ k.Waits call) : ∃ ret k', k.Returns call ret k' ∧ ret ≠ .error := by
  have howner : ∀ {fd task}, tasks fd = some task → ∃ c, k.owner fd = some c := by
    intro fd task htask
    refine Option.isSome_iff_exists.1 ?_
    rw [h.owned fd, htask]
    rfl
  cases call with
  | accept =>
    obtain ⟨fd, hfree⟩ := h.exists_free
    obtain ⟨c, cs, hbacklog⟩ := List.exists_cons_of_ne_nil hwaits
    exact ⟨_, _, .accept hbacklog hfree, nofun⟩
  | select fds =>
    refine ⟨_, _, .select ?_, nofun⟩
    by_contra hnot
    obtain ⟨hbacklog, hfds⟩ := not_or.1 hnot
    exact hwaits ⟨not_not.1 hbacklog, fun fd hfd hreadable => hfds ⟨fd, hfd, hreadable⟩⟩
  | getpeername fd =>
    obtain ⟨closing, htask⟩ := hperm
    obtain ⟨c, hc⟩ := howner htask
    exact ⟨_, _, .getpeername hc, nofun⟩
  | recv fd size =>
    obtain ⟨hsize, closing, htask⟩ := hperm
    obtain ⟨c, hc⟩ := howner htask
    have hreadable : (k.socket c).Readable := not_not.1 hwaits c hc
    by_cases hempty : (k.socket c).unread = []
    · exact ⟨_, _, .recvEof hc hempty (hreadable.resolve_left fun hne => hne hempty), nofun⟩
    · obtain ⟨b, rest, hunread⟩ := List.exists_cons_of_ne_nil hempty
      have hone : [b].length ≤ size := hsize
      exact ⟨.data [b], _, .recv hc hunread (List.cons_ne_nil b []) hone, nofun⟩
  | send fd data =>
    obtain ⟨c, hc⟩ := howner hperm
    have hwritable : (k.socket c).writable = true := by
      by_contra hnot
      exact hwaits ⟨c, hc, by simpa using hnot⟩
    exact ⟨_, _, .send hc hwritable (Nat.le_refl _), nofun⟩
  | close fd =>
    obtain ⟨c, hc⟩ := howner hperm
    exact ⟨_, _, .close hc, nofun⟩
  | exit => exact ⟨_, _, .exit, nofun⟩

/-! ### Programs that come to rest -/

variable {P : Type u} {prog : Program P} {tasks : P → Tasks} {I : P → Prop}

/-- A call of the program succeeds. -/
def Program.Succeeds (prog : Program P) (s s' : Kernel × P) : Prop :=
  ∃ call ret, ret ≠ .error ∧ prog.Step s (.call call ret) s'

/-- `n` calls succeed, one after the other. -/
inductive Program.Works (prog : Program P) : Nat → Kernel × P → Kernel × P → Prop where
  | nil (s : Kernel × P) : Works prog 0 s s
  | cons {n : Nat} {s s' s'' : Kernel × P} (h : prog.Succeeds s s') (hworks : Works prog n s' s'') :
    Works prog (n + 1) s s''

/-- All calls that the program is about to make block. -/
def Program.Blocked (prog : Program P) (s : Kernel × P) : Prop :=
  ∀ offer ∈ prog.offers s.2, s.1.Waits offer.1

/-- The calls that do not use up anything descend. -/
def Ranked (prog : Program P) (tasks : P → Tasks) (I : P → Prop) (rank : P → Nat) : Prop :=
  ∀ p call next ret, I p → (call, next) ∈ prog.offers p → Possible (tasks p) call ret → ret ≠ .error →
    (∀ fds, call = .select fds → ret ≠ .ready false []) → rank (next ret) < rank p + gain call ret

theorem ready_ne {k k' : Kernel} {fds : List Nat} {ret : Ret} (h : k.Returns (.select fds) ret k') :
    ret ≠ .ready false [] := by
  rintro heq
  cases h with
  | selectError _ => cases heq
  | badDescriptor hfd _ => simp at hfd
  | select hready =>
    rw [Ret.ready.injEq, List.filter_eq_nil_iff] at heq
    rcases hready with hbacklog | ⟨fd, hfd, hreadable⟩
    · exact of_decide_eq_false heq.1 hbacklog
    · exact heq.2 fd hfd (decide_eq_true hreadable)

/-- A call that succeeds brings the program nearer to rest. -/
theorem Program.Succeeds.rank_lt (hd : Disciplined prog tasks I) {rank : P → Nat} (hrank : Ranked prog tasks I rank)
    {s s' : Kernel × P} (hI : I s.2) (hsound : Sound s.1 (tasks s.2)) (h : prog.Succeeds s s') :
    s'.1.load + rank s'.2 < s.1.load + rank s.2 := by
  obtain ⟨call, ret, hne, hstep⟩ := h
  cases hstep with
  | @call k k' p _ next _ hoffer hret =>
    have hload : k'.load + gain call ret ≤ k.load := hsound.load_call hret
    have hless := hrank p call next ret hI hoffer (hsound.possible (hd.permitted hI hoffer) hret) hne fun fds hfds => by
      subst hfds
      exact ready_ne hret
    change k'.load + rank (next ret) < k.load + rank p
    omega

theorem Program.Succeeds.run {as : List Action} {s s' : Kernel × P} (hrun : prog.system.Run as s)
    (h : prog.Succeeds s s') : ∃ as', prog.system.Run as' s' := by
  obtain ⟨call, ret, -, hstep⟩ := h
  exact ⟨_, hrun.snoc hstep⟩

theorem Program.Works.run {n : Nat} {as : List Action} {s s' : Kernel × P} (hrun : prog.system.Run as s)
    (h : prog.Works n s s') : ∃ as', prog.system.Run as' s' := by
  induction h generalizing as with
  | nil s => exact ⟨as, hrun⟩
  | cons h _ ih =>
    obtain ⟨as', hrun'⟩ := h.run hrun
    exact ih hrun'

/-- Only so many calls succeed in a row. -/
theorem Disciplined.works_le (hd : Disciplined prog tasks I) {rank : P → Nat} (hrank : Ranked prog tasks I rank)
    {as : List Action} {s s' : Kernel × P} {n : Nat} (hrun : prog.system.Run as s) (h : prog.Works n s s') :
    n + s'.1.load + rank s'.2 ≤ s.1.load + rank s.2 := by
  induction h generalizing as with
  | nil s => omega
  | cons h _ ih =>
    obtain ⟨hI, hsound, -⟩ := hd.run hrun
    have hlt := h.rank_lt hd hrank hI hsound
    obtain ⟨as', hrun'⟩ := h.run hrun
    have hle := ih hrun'
    omega

theorem Disciplined.succeeds_of_not_blocked (hd : Disciplined prog tasks I) {as : List Action} {s : Kernel × P}
    (hrun : prog.system.Run as s) (h : ¬ prog.Blocked s) : ∃ s', prog.Succeeds s s' := by
  obtain ⟨hI, hsound, -⟩ := hd.run hrun
  simp only [Program.Blocked, not_forall] at h
  obtain ⟨⟨call, next⟩, hoffer, hwaits⟩ := h
  obtain ⟨ret, k', hret, hne⟩ := hsound.succeeds (hd.permitted hI hoffer) hwaits
  exact ⟨(k', next ret), call, ret, hne, .call hoffer hret⟩

/-- Whatever the clients have done, the program can work until all of its calls block. -/
theorem Disciplined.exists_blocked (hd : Disciplined prog tasks I) {rank : P → Nat}
    (hrank : Ranked prog tasks I rank) {as : List Action} {s : Kernel × P} (hrun : prog.system.Run as s) :
    ∃ n s', prog.Works n s s' ∧ prog.Blocked s' := by
  induction hm : s.1.load + rank s.2 using Nat.strong_induction_on generalizing s as with
  | _ m ih =>
    by_cases hblocked : prog.Blocked s
    · exact ⟨0, s, .nil s, hblocked⟩
    · obtain ⟨s', h⟩ := hd.succeeds_of_not_blocked hrun hblocked
      obtain ⟨hI, hsound, -⟩ := hd.run hrun
      have hlt := h.rank_lt hd hrank hI hsound
      obtain ⟨as', hrun'⟩ := h.run hrun
      obtain ⟨n, s'', hworks, hblocked'⟩ := ih _ (by omega) hrun' rfl
      exact ⟨n + 1, s'', .cons h hworks, hblocked'⟩

/-- How far a program gets while the clients do nothing and none of its calls fails: only so many of them
succeed, it can work until what it is about to call blocks, and there `Q` holds. -/
def Program.ComesToRest (prog : Program P) (s : Kernel × P) (bound : Nat) (Q : Kernel × P → Prop) : Prop :=
  (∃ n s', prog.Works n s s' ∧ prog.Blocked s') ∧
    ∀ n s', prog.Works n s s' → n ≤ bound ∧ (prog.Blocked s' → Q s')

theorem Disciplined.comesToRest (hd : Disciplined prog tasks I) {rank : P → Nat} (hrank : Ranked prog tasks I rank)
    {as : List Action} {s : Kernel × P} (hrun : prog.system.Run as s) {Q : Kernel × P → Prop}
    (hQ : ∀ n s', prog.Works n s s' → prog.Blocked s' → Q s') :
    prog.ComesToRest s (s.1.load + rank s.2) Q := by
  refine ⟨hd.exists_blocked hrank hrun, fun n s' hworks => ⟨?_, hQ n s' hworks⟩⟩
  have hle := hd.works_le hrank hrun hworks
  omega

/-! ### At rest -/

/-- Nothing is left to do: the client has not ended the connection, and has got back all it sent if no call has
failed and none has sent only a part. -/
structure Socket.Settled (s : Socket) : Prop where
  ended : s.ended = false
  unread : s.unread = []
  sent : s.whole = true → s.sent = s.received

/-- Where a program waits for what a client sends, nothing is left to do. -/
theorem Disciplined.settled (hd : Disciplined prog tasks I) {as : List Action} {s : Kernel × P}
    (hrun : prog.system.Run as s) {fd c : Nat} (hfd : s.1.owner fd = some c) {closing : Bool}
    (htask : tasks s.2 fd = some (.idle closing)) (hreadable : ¬ s.1.Readable fd) : (s.1.socket c).Settled := by
  obtain ⟨-, hsound, hsessions⟩ := hd.run hrun
  have hquiet : ¬ (s.1.socket c).Readable := by
    intro h
    refine hreadable fun c' hc' => ?_
    cases hfd.symm.trans hc'
    exact h
  have hunread : (s.1.socket c).unread = [] := by_contra fun h => hquiet (.inl h)
  obtain ⟨session, hsteps, hviews⟩ := hsessions c
  have htaken : session.taken = [] := hviews.taken fd (.idle closing) hfd htask
  refine ⟨by simpa using fun h => hquiet (.inr h), hunread, fun hwhole => ?_⟩
  have hall := (Session.inv_of_steps hsteps).whole (by rw [hviews.socket]; exact hwhole)
  rwa [hviews.socket, htaken, List.append_nil, hunread, List.append_nil] at hall

end Sockets
