import CoffeeChat.Lib.CText

/-!
# What v2 and v3 of the UDP chat share

Socket addresses, the lines `onHandle` prints, the effects it has, and the receive loop
`recvThreadProc`. The loop is generic in the version's `onHandle`; a call of it that does not
return (`Stop`) ends the loop and with it the program.
-/

namespace CoffeeChat
open Cpp

/-- `struct sockaddr_in`: the port as it is stored, in network byte order, and the address. -/
structure SockAddrIn where
  sin_port : UInt16
  sin_addr : InAddr
  deriving DecidableEq, Repr

/-- `end_point` of `onHandle`: the address and `std::to_string(remote_addr.sin_port)`. -/
def endPoint (remote : SockAddrIn) : Bytes :=
  inetNtoa remote.sin_addr ++ 58 :: decimal remote.sin_port.toNat

inductive Line where
  | data (remote : SockAddrIn) (text : Bytes)
  | ack (remote : SockAddrIn)
  | unknown (remote : SockAddrIn) (type : Int)
  deriving DecidableEq, Repr

def Line.remote : Line → SockAddrIn
  | .data remote _ | .ack remote | .unknown remote _ => remote

def Line.render : Line → Bytes
  | .data remote text => literal "来自" ++ endPoint remote ++ 32 :: text ++ [10]
  | .ack remote => literal "来自" ++ endPoint remote ++ 32 :: literal " 收到对方的确认回复" ++ [10]
  | .unknown remote type =>
    literal "来自" ++ endPoint remote ++ 32 :: literal " Unknown message type:" ++ decimalInt type ++ [10]

inductive Effect where
  | print (line : Line)
  | sendto (dest : SockAddrIn) (packet : Bytes)
  deriving DecidableEq, Repr

/-! ### Receiving -/

def kRecvBufferLen : Nat := 1024

/-- The zeroed receive buffer after `recvfrom` stored a datagram in it. -/
def recvBuffer (payload : Bytes) : Bytes :=
  payload.take kRecvBufferLen ++ List.replicate (kRecvBufferLen - payload.length) 0

/-- What `recvfrom` returns; a longer datagram is cut to the buffer. -/
def recvLen (payload : Bytes) : Int := min payload.length kRecvBufferLen

@[simp] theorem length_recvBuffer (p : Bytes) : (recvBuffer p).length = 1024 := by
  simp [recvBuffer, kRecvBufferLen]; omega

theorem recvBuffer_of_le {p : Bytes} (h : p.length ≤ 1024) :
    recvBuffer p = p ++ List.replicate (1024 - p.length) 0 := by
  show p.take 1024 ++ _ = _
  rw [List.take_of_length_le h]; rfl

theorem recvLen_of_le {p : Bytes} (h : p.length ≤ 1024) : recvLen p = p.length := by
  simp [recvLen, kRecvBufferLen]; omega

theorem sizeT_recvLen {p : Bytes} (h : p.length ≤ 1024) : sizeT (recvLen p) = p.length := by
  rw [recvLen_of_le h]
  unfold sizeT; omega

theorem recvLen_range (p : Bytes) : 0 ≤ recvLen p ∧ recvLen p ≤ 1024 := by
  simp only [recvLen, kRecvBufferLen]; omega

theorem drop_recvBuffer {p : Bytes} (h : p.length ≤ 1024) (n : Nat) :
    (recvBuffer p).drop n =
      p.drop n ++ List.replicate (1024 - p.length - (n - p.length)) 0 := by
  rw [recvBuffer_of_le h, List.drop_append, List.drop_replicate]

/-- `EBADF`, the error of a socket that was closed. -/
def EBADF : Int := 9

/-- One turn of the loop: the flag as it is tested, the answer of `recvfrom`, and the allocator as
it stands during the turn. -/
structure Turn where
  recv_thread_run_ : Bool
  recv : Except Int (SockAddrIn × Bytes)
  heap : Heap

inductive LoopEnd where
  | receiving
  | exited (report : Option Int)
  | stopped (s : Stop)
  deriving DecidableEq, Repr

/-- The signature of a version's `onHandle`: allocator, buffer, length and sender. -/
abbrev Handler := Heap → Bytes → Int → SockAddrIn → Except Stop (List Effect)

/-- `UdpServer::recvThreadProc`: the effects of every handled datagram, and where the loop stands. -/
def recvThreadProc (onHandle : Handler) : List Turn → List (List Effect) × LoopEnd
  | [] => ([], .receiving)
  | turn :: turns =>
    if turn.recv_thread_run_ then
      match turn.recv with
      | .error errno => ([], .exited (if errno = EBADF then none else some errno))
      | .ok (remote, payload) =>
        match onHandle turn.heap (recvBuffer payload) (recvLen payload) remote with
        | .error s => ([], .stopped s)
        | .ok effects =>
          let (rest, loopEnd) := recvThreadProc onHandle turns
          (effects :: rest, loopEnd)
    else ([], .exited none)

/-! ### Datagrams that arrive while the loop runs -/

structure Arrival where
  remote : SockAddrIn
  payload : Bytes
  heap : Heap

def Arrival.turn (a : Arrival) : Turn := ⟨true, .ok (a.remote, a.payload), a.heap⟩

def Arrival.handle (onHandle : Handler) (a : Arrival) : Except Stop (List Effect) :=
  onHandle a.heap (recvBuffer a.payload) (recvLen a.payload) a.remote

def receive (onHandle : Handler) (as : List Arrival) : List (List Effect) × LoopEnd :=
  recvThreadProc onHandle (as.map Arrival.turn)

section Loop

variable {onHandle : Handler} {a : Arrival} {as rest : List Arrival}

theorem receive_cons_of_ok {effects : List Effect} (h : a.handle onHandle = .ok effects) :
    receive onHandle (a :: as) = (effects :: (receive onHandle as).1, (receive onHandle as).2) := by
  unfold Arrival.handle at h
  simp only [receive, List.map_cons, recvThreadProc, Arrival.turn, if_true, h]

theorem receive_cons_of_error {s : Stop} (h : a.handle onHandle = .error s) :
    receive onHandle (a :: as) = ([], .stopped s) := by
  unfold Arrival.handle at h
  simp only [receive, List.map_cons, recvThreadProc, Arrival.turn, if_true, h]

variable (rest) in
/-- Datagrams that are all handled leave the loop in `recvfrom`, where the rest finds it. -/
theorem receive_append (h : ∀ a ∈ as, ∃ effects, a.handle onHandle = .ok effects) :
    ∃ fxs, fxs.length = as.length ∧ receive onHandle (as ++ rest) =
      (fxs ++ (receive onHandle rest).1, (receive onHandle rest).2) := by
  induction as with
  | nil => exact ⟨[], rfl, rfl⟩
  | cons a as ih =>
    obtain ⟨effects, ha⟩ := h a (by simp)
    obtain ⟨fxs, hlen, ih⟩ := ih fun b hb => h b (List.mem_cons_of_mem _ hb)
    refine ⟨effects :: fxs, by simp [hlen], ?_⟩
    rw [List.cons_append, receive_cons_of_ok ha, ih]
    rfl

theorem receive_cases (onHandle : Handler) (as : List Arrival) :
    (receive onHandle as).2 = .receiving ∨
      ∃ a ∈ as, ∃ s, a.handle onHandle = .error s ∧ (receive onHandle as).2 = .stopped s := by
  induction as with
  | nil => exact .inl rfl
  | cons a as ih =>
    cases ha : a.handle onHandle with
    | error s => exact .inr ⟨a, by simp, s, ha, by rw [receive_cons_of_error ha]⟩
    | ok effects =>
      rw [receive_cons_of_ok ha]
      exact ih.imp_right fun ⟨b, hb, s, hs⟩ => ⟨b, List.mem_cons_of_mem _ hb, s, hs⟩

end Loop

end CoffeeChat
