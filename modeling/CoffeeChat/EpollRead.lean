import CoffeeChat.Lib.Cpp

/-!
# Reading from an edge-triggered client

`onRead` of the epoll server, built with `USE_ET`. The loop receives until `recv` returns 0 or -1. It
takes 0 for the end of the stream, which it also is for a request of 0 bytes, when the buffer is full;
and behind the loop a descriptor that was closed in it is sent to. What the call does depends neither
on how the data comes in (`readLoop_eq`) nor, but for its size, on the data (`onRead_echoes_iff`).
-/

namespace CoffeeChat.Epoll
open Cpp

/-- A client's socket, at the time of the call. -/
structure Conn where
  /-- `getpeername` succeeds. -/
  named : Bool
  /-- The peer has closed: the end of the stream is behind the queue. -/
  closed : Bool
  queue : Bytes
  /-- How many bytes the `i`-th `recv` has at hand, if there are as many and it is asked for them. -/
  deliver : Nat → Nat

/-- What `recv` returns for a request of `len` bytes. -/
def recv (closed : Bool) (queue : Bytes) (atHand len : Nat) : Int :=
  if len = 0 then 0
  else if queue = [] then if closed then 0 else -1
  else (max 1 (min atHand (min len queue.length)) : Nat)

/-- The calls that `onRead` makes on the descriptor, `recv` aside. -/
inductive Call where
  | epollDel
  | close
  | send (data : Bytes)
  deriving DecidableEq, Repr

structure Reading where
  ret : Int
  /-- The first `recvTotalLen` bytes of `recvBuffer`. -/
  received : Bytes
  queue : Bytes
  calls : List Call
  deriving DecidableEq, Repr

/-- The loop of `onRead`, from the `i`-th `recv` on; none where it has not ended after `fuel` calls. -/
def readLoop (conn : Conn) (bufferLen : Nat) : Nat → Nat → Bytes → Bytes → Option Reading
  | 0, _, _, _ => none
  | fuel + 1, i, received, queue =>
    let ret := recv conn.closed queue (conn.deliver i) (bufferLen - received.length)
    if ret = 0 then some ⟨ret, received, queue, [.epollDel, .close]⟩
    else if ret < 0 then some ⟨ret, received, queue, []⟩
    else
      readLoop conn bufferLen fuel (i + 1) (received ++ queue.take ret.toNat) (queue.drop ret.toNat)

/-- `onRead`. A `recv` that does not end the loop takes a byte at least. -/
def onRead (bufferLen : Nat) (conn : Conn) : Option Reading :=
  if conn.named then do
    let reading ← readLoop conn bufferLen (conn.queue.length + 1) 0 [] conn.queue
    if reading.ret = -1 ∧ reading.received.length = 0 then
      return { reading with calls := reading.calls ++ [.epollDel, .close] }
    else return { reading with calls := reading.calls ++ [.send reading.received] }
  else some ⟨0, [], conn.queue, [.close]⟩

/-- `sizeof(recvBuffer)`. -/
def recvBufferSize : Nat := 10 * 1024

def Call.sent : Call → Bytes
  | .send data => data
  | _ => []

/-- No `send` is behind a `close`. -/
def SendsOpen (calls : List Call) : Prop :=
  ∀ before data after, calls = before ++ .send data :: after → .close ∉ before

/-- The call takes all there is and sends it back, closes only for the end of the stream or where
`recv` failed at once, and sends to no closed descriptor. -/
structure Echoes (conn : Conn) (reading : Reading) : Prop where
  consumed : reading.queue = []
  echoed : reading.calls.flatMap Call.sent = conn.queue
  closes : .close ∈ reading.calls → conn.closed = true ∨ (reading.ret = -1 ∧ reading.received = [])
  sends : SendsOpen reading.calls

section Recv

variable {closed : Bool} {queue : Bytes} {atHand len : Nat}

theorem recv_zero : recv closed queue atHand 0 = 0 := by
  unfold recv
  rw [if_pos rfl]

theorem recv_nil (h : len ≠ 0) : recv closed [] atHand len = if closed then 0 else -1 := by
  unfold recv
  rw [if_neg h, if_pos rfl]

/-- With room in the buffer and bytes in the queue `recv` takes some that fit. -/
theorem recv_pos (hlen : len ≠ 0) (hqueue : queue ≠ []) : ∃ n : Nat,
    recv closed queue atHand len = n ∧ 0 < n ∧ n ≤ len ∧ n ≤ queue.length := by
  have hpos := List.length_pos_iff.2 hqueue
  refine ⟨max 1 (min atHand (min len queue.length)), ?_, by omega, by omega, by omega⟩
  unfold recv
  rw [if_neg hlen, if_neg hqueue]

end Recv

/-! ### The loop -/

section Loop

variable {conn : Conn} {bufferLen fuel i : Nat} {received queue : Bytes}

theorem readLoop_of_zero
    (h : recv conn.closed queue (conn.deliver i) (bufferLen - received.length) = 0) :
    readLoop conn bufferLen (fuel + 1) i received queue =
      some ⟨0, received, queue, [.epollDel, .close]⟩ := by
  rw [readLoop, h]
  rfl

theorem readLoop_of_failed
    (h : recv conn.closed queue (conn.deliver i) (bufferLen - received.length) = -1) :
    readLoop conn bufferLen (fuel + 1) i received queue = some ⟨-1, received, queue, []⟩ := by
  rw [readLoop, h]
  rfl

theorem readLoop_of_pos {n : Nat} (hn : 0 < n)
    (h : recv conn.closed queue (conn.deliver i) (bufferLen - received.length) = n) :
    readLoop conn bufferLen (fuel + 1) i received queue =
      readLoop conn bufferLen fuel (i + 1) (received ++ queue.take n) (queue.drop n) := by
  rw [readLoop, h]
  simp only [if_neg (show (n : Int) ≠ 0 by omega), if_neg (show ¬ (n : Int) < 0 by omega),
    Int.toNat_natCast]

/-- The loop ends with the buffer full or with all bytes in it, however they come in. -/
theorem readLoop_eq (hfuel : queue.length < fuel) (hroom : received.length ≤ bufferLen) :
    readLoop conn bufferLen fuel i received queue =
      if (received ++ queue).length < bufferLen ∧ conn.closed = false then
        some ⟨-1, received ++ queue, [], []⟩
      else some ⟨0, (received ++ queue).take bufferLen, (received ++ queue).drop bufferLen,
        [.epollDel, .close]⟩ := by
  induction fuel generalizing i received queue with
  | zero => omega
  | succ fuel ih =>
    by_cases hfull : bufferLen = received.length
    · -- a request of 0 bytes
      subst hfull
      rw [readLoop_of_zero (by rw [Nat.sub_self, recv_zero]), if_neg (by simp), List.take_left,
        List.drop_left]
    · have hlen : bufferLen - received.length ≠ 0 := by omega
      by_cases hqueue : queue = []
      · subst hqueue
        rw [List.append_nil]
        cases hclosed : conn.closed with
        | true =>
          rw [readLoop_of_zero (by rw [hclosed, recv_nil hlen]; rfl), if_neg (by simp),
            List.take_of_length_le hroom, List.drop_of_length_le hroom]
        | false =>
          rw [readLoop_of_failed (by rw [hclosed, recv_nil hlen]; rfl), if_pos ⟨by omega, rfl⟩]
      · obtain ⟨n, hret, hpos, hle, hlequeue⟩ :=
          @recv_pos conn.closed queue (conn.deliver i) _ hlen hqueue
        have hroom' : (received ++ queue.take n).length ≤ bufferLen := by
          rw [List.length_append, List.length_take]
          omega
        have hparts : received ++ queue.take n ++ queue.drop n = received ++ queue := by
          rw [List.append_assoc, List.take_append_drop]
        rw [readLoop_of_pos hpos hret, ih (by rw [List.length_drop]; omega) hroom', hparts]

end Loop

theorem onRead_unnamed {conn : Conn} (h : conn.named = false) (bufferLen : Nat) :
    onRead bufferLen conn = some ⟨0, [], conn.queue, [.close]⟩ := by
  unfold onRead
  rw [h]
  rfl

/-- All data and no end: it is sent back, or the descriptor is closed if there is none. -/
theorem onRead_open {conn : Conn} {bufferLen : Nat} (hnamed : conn.named = true)
    (hclosed : conn.closed = false) (hlen : conn.queue.length < bufferLen) :
    onRead bufferLen conn = some ⟨-1, conn.queue, [],
      if conn.queue = [] then [.epollDel, .close] else [.send conn.queue]⟩ := by
  unfold onRead
  rw [hnamed, if_pos rfl, readLoop_eq (Nat.lt_succ_self _) (Nat.zero_le _),
    List.nil_append, if_pos ⟨hlen, hclosed⟩]
  cases conn.queue with
  | nil => rfl
  | cons c queue => rfl

/-- A closed peer, or more data than fits: the descriptor is closed and then sent to. -/
theorem onRead_eof {conn : Conn} {bufferLen : Nat} (hnamed : conn.named = true)
    (h : ¬ (conn.queue.length < bufferLen ∧ conn.closed = false)) :
    onRead bufferLen conn = some ⟨0, conn.queue.take bufferLen, conn.queue.drop bufferLen,
      [.epollDel, .close, .send (conn.queue.take bufferLen)]⟩ := by
  unfold onRead
  rw [hnamed, if_pos rfl, readLoop_eq (Nat.lt_succ_self _) (Nat.zero_le _),
    List.nil_append, if_neg h]
  rfl

/-! ### What comes back -/

theorem sendsOpen_of_no_send {calls : List Call} (h : ∀ data, .send data ∉ calls) : SendsOpen calls := by
  intro before data after heq
  exact absurd (heq ▸ by simp) (h data)

theorem sendsOpen_of_no_close {calls : List Call} (h : .close ∉ calls) : SendsOpen calls := by
  intro before data after heq hmem
  exact h (heq ▸ List.mem_append_left _ hmem)

theorem echoes_open {conn : Conn} : Echoes conn ⟨-1, conn.queue, [],
    if conn.queue = [] then [.epollDel, .close] else [.send conn.queue]⟩ := by
  by_cases hqueue : conn.queue = []
  · rw [if_pos hqueue]
    exact ⟨rfl, hqueue.symm, fun _ => .inr ⟨rfl, hqueue⟩, sendsOpen_of_no_send (by simp)⟩
  · rw [if_neg hqueue]
    refine ⟨rfl, by simp [Call.sent], ?_, sendsOpen_of_no_close (by simp)⟩
    intro hclose
    simp at hclose

/-- The data is sent back exactly where `getpeername` succeeds, the peer is still there and the data
is shorter than the buffer, or where nothing is left to be read of a peer that is gone. -/
theorem onRead_echoes_iff (conn : Conn) :
    (∃ reading, onRead recvBufferSize conn = some reading ∧ Echoes conn reading) ↔
      (conn.named = true ∧ conn.closed = false ∧ conn.queue.length < recvBufferSize) ∨
        (conn.named = false ∧ conn.closed = true ∧ conn.queue = []) := by
  cases hnamed : conn.named with
  | false =>
    rw [onRead_unnamed hnamed]
    constructor
    · rintro ⟨reading, hreading, hechoes⟩
      cases hreading
      rcases hechoes.closes (by simp) with hclosed | ⟨hret, -⟩
      · exact .inr ⟨rfl, hclosed, hechoes.consumed⟩
      · cases hret
    · rintro (⟨h, -⟩ | ⟨-, hclosed, hqueue⟩)
      · cases h
      · exact ⟨_, rfl, hqueue, hqueue.symm, fun _ => .inl hclosed, sendsOpen_of_no_send (by simp)⟩
  | true =>
    by_cases h : conn.queue.length < recvBufferSize ∧ conn.closed = false
    · rw [onRead_open hnamed h.2 h.1]
      exact iff_of_true ⟨_, rfl, echoes_open⟩ (.inl ⟨rfl, h.2, h.1⟩)
    · rw [onRead_eof hnamed h]
      refine iff_of_false ?_ ?_
      · rintro ⟨reading, hreading, hechoes⟩
        cases hreading
        exact hechoes.sends [.epollDel, .close] _ [] rfl (by simp)
      · rintro (⟨-, hclosed, hlen⟩ | ⟨hnamed', -⟩)
        · exact h ⟨hlen, hclosed⟩
        · cases hnamed'

/-- A client that sends "hi" and closes: its descriptor is closed, and then sent to. -/
theorem not_echoes_hi : ¬ ∀ conn : Conn, conn.named = true →
    ∃ reading, onRead recvBufferSize conn = some reading ∧ Echoes conn reading := by
  intro h
  obtain ⟨reading, hreading, hechoes⟩ := h ⟨true, true, literal "hi", fun _ => 1⟩ rfl
  have hrun : onRead recvBufferSize ⟨true, true, literal "hi", fun _ => 1⟩ =
      some ⟨0, literal "hi", [], [.epollDel, .close, .send (literal "hi")]⟩ := by decide +kernel
  cases hrun.symm.trans hreading
  exact hechoes.sends [.epollDel, .close] _ [] rfl (by simp)

end CoffeeChat.Epoll
