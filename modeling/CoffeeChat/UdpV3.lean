import CoffeeChat.Udp

/-!
# v3 packets: encoder, decoder and the length check

`sendMsgPacket`, `sendAckPacket` and `onHandle` of the third version, whose packets are an 8-byte
`Header` and a body. `onHandleWith` takes the copy of the body as a parameter; `onHandle` runs it
with the copy of the source, `copyBody`.

The length check of `newBody` validates the declared length for every datagram of at least 8 bytes,
but `len - sizeof(Header)` wraps around for shorter ones (`lengthValidated_iff`). The copy takes
`len` bytes where the body has `header.len`, so no packet that `sendMsgPacket` builds is decoded
inside its buffers (`not_decodesText`).
-/

namespace CoffeeChat.V3
open Cpp

inductive MsgType where
  | kMsgData
  | kMsgAck
  deriving DecidableEq, Repr

def MsgType.code : MsgType → Int
  | .kMsgData => 1
  | .kMsgAck => 2

theorem MsgType.int32_code (t : MsgType) : int32 t.code = t.code := by
  cases t <;> rfl

theorem MsgType.ack_ne_data : kMsgAck.code ≠ kMsgData.code := by decide

structure Header where
  len : Int
  cmd : Int
  deriving DecidableEq, Repr

def sizeofHeader : Nat := 8

def Header.bytes (h : Header) : Bytes := storeInt32 h.len ++ storeInt32 h.cmd

/-! ### Sending -/

/-- The packet that `UdpServer::sendMsgPacket` hands to `sendto`. -/
def sendMsgPacket (heap : Heap) (text : Bytes) : Except Stop Bytes := do
  let header : Header := ⟨int32 text.length, MsgType.kMsgData.code⟩
  let bufferLen := int32 (sizeofHeader + text.length)
  let tempBuff ← newChars heap bufferLen
  let tempBuff ← memcpy tempBuff 0 header.bytes 0 sizeofHeader
  -- `text.c_str()` is the text with its terminator
  memcpy tempBuff 8 (text ++ [0]) 0 text.length

def sendAckPacket : Except Stop Bytes :=
  let header : Header := ⟨0, MsgType.kMsgAck.code⟩
  memcpy (List.replicate sizeofHeader 0) 0 header.bytes 0 sizeofHeader

/-! ### Receiving -/

def parseHeader (buffer : Bytes) : Except Stop Header := do
  let len ← memcpy (storeInt32 0) 0 buffer 0 4
  let cmd ← memcpy (storeInt32 0) 0 buffer 4 4
  return ⟨loadInt32 len, loadInt32 cmd⟩

/-- The allocation of `body` and the assertion behind it: `len - sizeof(Header)` is computed in
`size_t`, and `header.len` is converted to it. -/
def newBody (heap : Heap) (len : Int) (header : Header) : Except Stop Bytes := do
  let body ← newChars heap header.len
  assert (sizeT header.len ≤ sizeT (sizeT len - sizeofHeader))
  return body

/-- `memcpy(body.get(), buffer, len)`, the pointer standing behind the header, and the string that
is printed from `body`. -/
def copyBody (body buffer : Bytes) (len : Int) : Except Stop Bytes := do
  let body ← memcpy body 0 buffer sizeofHeader (sizeT len)
  cString body

/-- `UdpServer::onHandle` with the copy of the body as a parameter. -/
def onHandleWith (copy : Bytes → Bytes → Int → Except Stop Bytes) (heap : Heap) (buffer : Bytes)
    (len : Int) (remote : SockAddrIn) : Except Stop (List Effect) := do
  let header ← parseHeader buffer
  if header.cmd = MsgType.kMsgData.code then
    let body ← newBody heap len header
    let text ← copy body buffer len
    let ack ← sendAckPacket
    return [.print (.data remote text), .sendto remote ack]
  else if header.cmd = MsgType.kMsgAck.code then
    return [.print (.ack remote)]
  else
    return [.print (.unknown remote header.cmd)]

def onHandle : Heap → Bytes → Int → SockAddrIn → Except Stop (List Effect) := onHandleWith copyBody

/-! ### What the pieces compute -/

def ackPacket : Bytes := [0, 0, 0, 0, 2, 0, 0, 0]

theorem sendAckPacket_eq : sendAckPacket = .ok ackPacket := by decide

@[simp] theorem length_bytes (h : Header) : h.bytes.length = 8 := rfl

/-- The packet of a text: its length, the type and the text. A text too long for an `int` has none,
since the converted size of the buffer is then smaller than what is copied into it. -/
theorem sendMsgPacket_eq_ok {heap : Heap} {text packet : Bytes}
    (h : sendMsgPacket heap text = .ok packet) :
    text.length + 8 < 2 ^ 31 ∧
      packet = (⟨text.length, MsgType.kMsgData.code⟩ : Header).bytes ++ text := by
  simp only [sendMsgPacket, bind_eq_ok, sizeofHeader] at h
  obtain ⟨buf, hnew, buf₁, hcopy₁, hcopy₂⟩ := h
  have hlen := newChars_length hnew
  have hlen₁ := memcpy_length hcopy₁
  obtain ⟨⟨hle, -⟩, -⟩ := memcpy_eq_ok.1 hcopy₂
  have hrange : text.length + 8 < 2 ^ 31 := by
    rw [hlen₁] at hle
    simp only [int32] at hlen
    omega
  have hbuf : buf.length = 8 + text.length := by
    rw [int32_of_range (by omega) (by omega)] at hlen
    omega
  rw [memcpy_start (by omega) (by simp), Except.ok.injEq] at hcopy₁
  subst hcopy₁
  rw [memcpy_end (by simp) (by simp [hbuf]) (by simp), Except.ok.injEq] at hcopy₂
  refine ⟨hrange, ?_⟩
  rw [← hcopy₂, int32_natCast (by omega)]
  simp

theorem sendMsgPacket_of_alloc {heap : Heap} {text buf : Bytes} (h : text.length + 8 < 2 ^ 31)
    (halloc : heap.alloc (8 + text.length) = some buf) :
    sendMsgPacket heap text = .ok ((⟨text.length, MsgType.kMsgData.code⟩ : Header).bytes ++ text) := by
  have hsize : int32 ((8 : Nat) + text.length) = (8 + text.length : Nat) :=
    int32_of_range (by omega) (by omega)
  have hnew : newChars heap (8 + text.length : Nat) = .ok buf :=
    newChars_eq_ok.2 ⟨Int.natCast_nonneg _, halloc⟩
  have hbuf := heap.alloc_length _ _ halloc
  simp only [sendMsgPacket, sizeofHeader, hsize, int32_natCast (by omega : text.length < 2 ^ 31), hnew,
    ok_bind]
  rw [memcpy_start (by omega) (by simp), ok_bind, memcpy_end (by simp) (by simp [hbuf]) (by simp)]
  simp

theorem sendMsgPacket_zeroed {text : Bytes} (h : text.length + 8 < 2 ^ 31) :
    sendMsgPacket .zeroed text = .ok ((⟨text.length, MsgType.kMsgData.code⟩ : Header).bytes ++ text) :=
  sendMsgPacket_of_alloc h rfl

theorem parseHeader_eq {buffer : Bytes} (h : 8 ≤ buffer.length) : parseHeader buffer =
    .ok ⟨loadInt32 (buffer.take 4), loadInt32 ((buffer.drop 4).take 4)⟩ := by
  unfold parseHeader
  rw [memcpy_of_le (by simp) (by omega), ok_bind, memcpy_of_le (by simp) (by omega)]
  simp [storeInt32]

/-- The header that `onHandle` finds in a datagram. -/
def headerOf (payload : Bytes) : Header :=
  ⟨loadInt32 ((recvBuffer payload).take 4), loadInt32 (((recvBuffer payload).drop 4).take 4)⟩

theorem parseHeader_recvBuffer (p : Bytes) : parseHeader (recvBuffer p) = .ok (headerOf p) :=
  parseHeader_eq (by simp)

theorem headerOf_len_range (p : Bytes) : -2 ^ 31 ≤ (headerOf p).len ∧ (headerOf p).len < 2 ^ 31 :=
  loadInt32_range _

theorem parseHeader_bytes (h : Header) (body : Bytes) :
    parseHeader (recvBuffer (h.bytes ++ body)) = .ok ⟨int32 h.len, int32 h.cmd⟩ := by
  have htake : ∀ n ≤ 8, (recvBuffer (h.bytes ++ body)).take n = h.bytes.take n := by
    intro n hn
    rw [recvBuffer, kRecvBufferLen, List.take_append_of_le_length (by simp; omega), List.take_take,
      List.take_append_of_le_length (by simp; omega)]
    congr 1; omega
  have h₄ : ((recvBuffer (h.bytes ++ body)).drop 4).take 4 = storeInt32 h.cmd := by
    rw [List.take_drop, htake 8 (by omega)]; rfl
  have h₀ : (recvBuffer (h.bytes ++ body)).take 4 = storeInt32 h.len := by
    rw [htake 4 (by omega)]; rfl
  rw [parseHeader_recvBuffer, headerOf, h₀, h₄, load_storeInt32, load_storeInt32]

theorem newBody_eq_ok {heap : Heap} {len : Int} {header : Header} {body : Bytes} :
    newBody heap len header = .ok body ↔
      newChars heap header.len = .ok body ∧
        sizeT header.len ≤ sizeT (sizeT len - sizeofHeader) := by
  simp only [newBody, bind_eq_ok, assert_eq_ok, pure_eq_ok, Except.ok.injEq]
  constructor
  · rintro ⟨b, hb, -, ha, rfl⟩; exact ⟨hb, ha⟩
  · rintro ⟨hb, ha⟩; exact ⟨body, hb, (), ha, rfl⟩

section Branches

variable {copy : Bytes → Bytes → Int → Except Stop Bytes} {heap : Heap} {buffer : Bytes} {len : Int}
  {remote : SockAddrIn} {header : Header}

theorem onHandleWith_data (hp : parseHeader buffer = .ok header)
    (hc : header.cmd = MsgType.kMsgData.code) :
    onHandleWith copy heap buffer len remote = do
      let body ← newBody heap len header
      let text ← copy body buffer len
      return [.print (.data remote text), .sendto remote ackPacket] := by
  simp only [onHandleWith, hp, ok_bind, hc, if_true, sendAckPacket_eq]

theorem onHandleWith_ack (hp : parseHeader buffer = .ok header)
    (hc : header.cmd = MsgType.kMsgAck.code) :
    onHandleWith copy heap buffer len remote = .ok [.print (.ack remote)] := by
  simp only [onHandleWith, hp, ok_bind, hc, if_neg MsgType.ack_ne_data, if_true, pure_eq_ok]

theorem onHandleWith_unknown (hp : parseHeader buffer = .ok header)
    (h₁ : header.cmd ≠ MsgType.kMsgData.code) (h₂ : header.cmd ≠ MsgType.kMsgAck.code) :
    onHandleWith copy heap buffer len remote = .ok [.print (.unknown remote header.cmd)] := by
  simp only [onHandleWith, hp, ok_bind, if_neg h₁, if_neg h₂, pure_eq_ok]

theorem onHandleWith_print {effects : List Effect}
    (h : onHandleWith copy heap buffer len remote = .ok effects) {line : Line}
    (hl : .print line ∈ effects) : line.remote = remote := by
  simp only [onHandleWith, bind_eq_ok] at h
  obtain ⟨header, -, h⟩ := h
  split at h
  · simp only [bind_eq_ok, pure_eq_ok, Except.ok.injEq] at h
    obtain ⟨_, _, _, _, _, _, rfl⟩ := h
    simp only [List.mem_cons, Effect.print.injEq, reduceCtorEq, List.not_mem_nil, or_false] at hl
    rw [hl]; rfl
  · split at h <;> (cases h; simp at hl; rw [hl]; rfl)

theorem onHandle_ack :
    onHandle heap (recvBuffer ackPacket) (recvLen ackPacket) remote = .ok [.print (.ack remote)] :=
  onHandleWith_ack (parseHeader_bytes ⟨0, 2⟩ []) (MsgType.int32_code .kMsgAck)

end Branches

/-! ### The length check -/

/-- The check of the body's length does its work on a datagram: where `onHandle` takes the data
branch and gets past the assertion, the declared body lies inside the bytes received. -/
def LengthValidated (heap : Heap) (payload : Bytes) : Prop :=
  ∀ header body, parseHeader (recvBuffer payload) = .ok header →
    header.cmd = MsgType.kMsgData.code → newBody heap (recvLen payload) header = .ok body →
      0 ≤ header.len ∧ sizeofHeader + header.len ≤ recvLen payload

/-- A data datagram cut inside its type field, the zeros of the buffer completing it: 5 to 7 bytes,
of which those from the fifth on are a 1 and zeros. Its length field is a count that the allocator
grants. -/
def CutInHeader (heap : Heap) (payload : Bytes) : Prop :=
  payload.length < 8 ∧ payload.drop 4 = 1 :: List.replicate (payload.length - 5) 0 ∧
    0 ≤ loadInt32 (payload.take 4) ∧ (heap.alloc (loadInt32 (payload.take 4)).toNat).isSome

theorem newBody_of_le {heap : Heap} {len : Int} {header : Header} {body : Bytes}
    (h₈ : 8 ≤ len) (h₁ : len < 2 ^ 31) (h₂ : header.len < 2 ^ 31) :
    newBody heap len header = .ok body ↔
      newChars heap header.len = .ok body ∧ sizeofHeader + header.len ≤ len := by
  rw [newBody_eq_ok]
  refine and_congr_right fun hnew => ?_
  have h₀ := (newChars_eq_ok.1 hnew).1
  simp only [sizeT, sizeofHeader]
  omega

theorem newBody_of_lt {heap : Heap} {len : Int} {header : Header} {body : Bytes}
    (h₀ : 0 ≤ len) (h₈ : len < 8) (h₂ : header.len < 2 ^ 31) :
    newBody heap len header = .ok body ↔ newChars heap header.len = .ok body := by
  rw [newBody_eq_ok, and_iff_left_iff_imp]
  -- the difference wraps around to a number above every `int32_t`
  intro hnew
  have h₀ := (newChars_eq_ok.1 hnew).1
  simp only [sizeT, sizeofHeader]
  omega

theorem cmd_of_short {payload : Bytes} (h : payload.length < 8) :
    (headerOf payload).cmd = MsgType.kMsgData.code ↔
      payload.drop 4 = 1 :: List.replicate (payload.length - 5) 0 := by
  have hzeros : ∀ n m, n ≤ m → (List.replicate m (0 : UInt8)).take n = List.replicate n 0 := by
    intro n m hnm; rw [List.take_replicate, Nat.min_eq_left hnm]
  have hfield : ((recvBuffer payload).drop 4).take 4 =
      payload.drop 4 ++ List.replicate (4 - (payload.drop 4).length) 0 := by
    rw [drop_recvBuffer (by omega), List.take_append, List.take_of_length_le (by simp; omega),
      hzeros _ _ (by simp; omega)]
  rw [headerOf, MsgType.code, loadInt32_eq_one, hfield]
  have hlen : (payload.drop 4).length = payload.length - 4 := by simp
  generalize payload.drop 4 = s at hlen ⊢
  match s, hlen with
  | [], _ => simp
  | [a], hlen => simp at hlen; simp [show payload.length - 5 = 0 by omega]
  | [a, b], hlen => simp at hlen; simp [show payload.length - 5 = 1 by omega]
  | [a, b, c], hlen => simp at hlen; simp [show payload.length - 5 = 2 by omega, List.replicate]
  | a :: b :: c :: d :: s, hlen => simp at hlen; omega

theorem headerOf_len {payload : Bytes} (h : payload.drop 4 ≠ []) :
    (headerOf payload).len = loadInt32 (payload.take 4) := by
  have h₄ : 4 < payload.length := by simpa using h
  rw [headerOf, recvBuffer, List.take_append_of_le_length (by simp [kRecvBufferLen]; omega),
    List.take_take]
  rfl

/-- The assertion validates the declared length of a datagram exactly when the datagram is not cut
inside its header. -/
theorem lengthValidated_iff (heap : Heap) (payload : Bytes) :
    LengthValidated heap payload ↔ ¬ CutInHeader heap payload := by
  have hlt := (headerOf_len_range payload).2
  have hlen := recvLen_range payload
  constructor
  · rintro hval ⟨hshort, hcmd, hcount, hgrant⟩
    have hrecv := recvLen_of_le (p := payload) (by omega)
    obtain ⟨body, hbody⟩ := Option.isSome_iff_exists.1 hgrant
    rw [← headerOf_len (by simp [hcmd])] at hcount hbody
    have hnew : newBody heap (recvLen payload) (headerOf payload) = .ok body :=
      (newBody_of_lt hlen.1 (by omega) hlt).2 (newChars_eq_ok.2 ⟨hcount, hbody⟩)
    have := (hval _ body (parseHeader_recvBuffer payload) ((cmd_of_short hshort).2 hcmd) hnew).2
    simp only [sizeofHeader] at this
    omega
  · intro hcut header body hparse hcmd hnew
    rw [parseHeader_recvBuffer, Except.ok.injEq] at hparse
    subst hparse
    rcases Nat.lt_or_ge payload.length 8 with hshort | h₈
    · have hdrop := (cmd_of_short hshort).1 hcmd
      obtain ⟨hcount, hgrant⟩ := newChars_eq_ok.1 (newBody_eq_ok.1 hnew).1
      rw [headerOf_len (by simp [hdrop])] at hcount hgrant
      exact absurd ⟨hshort, hdrop, hcount, by rw [hgrant]; rfl⟩ hcut
    · have h₈' : 8 ≤ recvLen payload := by simp only [recvLen, kRecvBufferLen]; omega
      obtain ⟨hchars, hle⟩ := (newBody_of_le h₈' (by omega) hlt).1 hnew
      exact ⟨(newChars_eq_ok.1 hchars).1, hle⟩

/-- Five bytes `00 00 00 00 01` pass the assertion with a body that starts behind them. -/
theorem not_lengthValidated_five : ¬ LengthValidated .zeroed [0, 0, 0, 0, 1] := by
  intro h
  have hparse : parseHeader (recvBuffer [0, 0, 0, 0, 1]) = .ok ⟨0, 1⟩ := by decide +kernel
  have := h ⟨0, 1⟩ [] hparse rfl (by decide)
  exact absurd this.2 (by decide)

/-! ### Decoding what was encoded -/

/-- `onHandle` gets a text back from the packet `sendMsgPacket` built for it: it prints exactly the
text, acknowledges once, and no access on the way leaves its object. -/
def DecodesText (sendHeap recvHeap : Heap) (remote : SockAddrIn) (text : Bytes) : Prop :=
  ∃ packet, sendMsgPacket sendHeap text = .ok packet ∧
    onHandle recvHeap (recvBuffer packet) (recvLen packet) remote =
      .ok [.print (.data remote text), .sendto remote ackPacket]

/-- The body of a datagram with a whole header has at most `len - 8` bytes, and `len` are copied. -/
theorem copyBody_overrun {heap : Heap} {len : Int} {header : Header} {body buffer : Bytes}
    (h₈ : 8 ≤ len) (h₁ : len < 2 ^ 31) (h₂ : header.len < 2 ^ 31)
    (h : newBody heap len header = .ok body) : copyBody body buffer len = .error .outOfBounds := by
  obtain ⟨hnew, hle⟩ := (newBody_of_le h₈ h₁ h₂).1 h
  have hlen := newChars_length hnew
  have hcount : (sizeT len : Int) = len := by unfold sizeT; omega
  rw [copyBody, memcpy_overrun (by simp only [sizeofHeader] at hle; omega), error_bind]

theorem onHandle_data_ne_ok {heap : Heap} {remote : SockAddrIn} {h : Header} {body : Bytes}
    (hcmd : h.cmd = MsgType.kMsgData.code) (effects : List Effect) :
    onHandle heap (recvBuffer (h.bytes ++ body)) (recvLen (h.bytes ++ body)) remote ≠ .ok effects := by
  have hcode : int32 h.cmd = MsgType.kMsgData.code := by rw [hcmd, MsgType.int32_code]
  rw [onHandle, onHandleWith_data (parseHeader_bytes h body) hcode]
  intro heq
  obtain ⟨buf, hnew, heq⟩ := bind_eq_ok.1 heq
  have hlen := recvLen_range (h.bytes ++ body)
  have h₈ : 8 ≤ recvLen (h.bytes ++ body) := by
    rw [recvLen, List.length_append, length_bytes, kRecvBufferLen]
    omega
  rw [copyBody_overrun h₈ (by omega) (int32_range _).2 hnew] at heq
  cases heq

/-- The copy of `onHandle` writes 8 bytes behind the body of every packet `sendMsgPacket` builds:
no text whatever is decoded inside its buffers. -/
theorem not_decodesText (sendHeap recvHeap : Heap) (remote : SockAddrIn) (text : Bytes) :
    ¬ DecodesText sendHeap recvHeap remote text := by
  rintro ⟨packet, hsend, hhandle⟩
  obtain ⟨-, rfl⟩ := sendMsgPacket_eq_ok hsend
  exact onHandle_data_ne_ok rfl _ hhandle

theorem not_decodesText_hi :
    ¬ DecodesText .zeroed .zeroed ⟨htons 24567, ⟨127, 0, 0, 1⟩⟩ [104, 105] := by
  rintro ⟨packet, hsend, hhandle⟩
  rw [sendMsgPacket_zeroed (by decide), Except.ok.injEq] at hsend
  subst hsend
  exact onHandle_data_ne_ok rfl _ hhandle

end CoffeeChat.V3
