import CoffeeChat.Udp

/-!
# v2 packets: 200 bytes of type and text

`sendMsgPacket`, `sendAckPacket` and `onHandle` of the second version. The assertion of `onHandle`
bounds `len - 4` by the 196 bytes of `body`, and `len` bytes are copied: the four lengths 197 to 200
pass the one and overrun the other (`onHandle_overrun`), and every packet of `sendMsgPacket` has 200
(`decodes_iff`).
-/

namespace CoffeeChat.V2
open Cpp

/-- The packet that `UdpServer::sendMsgPacket` hands to `sendto`. -/
def sendMsgPacket (text : Bytes) : Except Stop Bytes := do
  let tempBuff := List.replicate 200 0
  let tempBuff ← memcpy tempBuff 0 (storeInt32 1) 0 4
  -- `text.c_str()` is the text with its terminator
  memcpy tempBuff 4 (text ++ [0]) 0 text.length

theorem sendMsgPacket_of_le {text : Bytes} (h : text.length ≤ 196) :
    sendMsgPacket text =
      .ok ([1, 0, 0, 0] ++ (text ++ List.replicate (196 - text.length) 0)) := by
  have htype : memcpy (List.replicate 200 0) 0 (storeInt32 1) 0 4 =
      .ok ([1, 0, 0, 0] ++ List.replicate 196 0) := by
    rw [memcpy_start (by rw [List.length_replicate]; omega) (by rw [length_storeInt32]), List.drop_replicate]
    rfl
  have hroom : text.length ≤ (List.replicate 196 (0 : UInt8)).length := by
    rw [List.length_replicate]
    exact h
  rw [sendMsgPacket, htype, ok_bind, memcpy_behind (i := 4) rfl hroom (by simp), List.take_left,
    List.drop_replicate]

def sendAckPacket : Except Stop Bytes := memcpy (List.replicate 4 0) 0 (storeInt32 2) 0 4

/-- `sizeof(body)` of `onHandle`. -/
def sizeofBody : Nat := 196

/-- `UdpServer::onHandle`. It allocates nothing on the heap. -/
def onHandle (_heap : Heap) (buffer : Bytes) (len : Int) (remote : SockAddrIn) :
    Except Stop (List Effect) := do
  let type ← memcpy (storeInt32 0) 0 buffer 0 4
  if loadInt32 type = 1 then
    let body := List.replicate sizeofBody 0
    assert (sizeT (len - 4) ≤ sizeofBody)
    let body ← memcpy body 0 buffer 4 (sizeT len)
    let text ← cString body
    let ack ← sendAckPacket
    return [.print (.data remote text), .sendto remote ack]
  else if loadInt32 type = 2 then
    return [.print (.ack remote)]
  else
    return [.print (.unknown remote (loadInt32 type))]

def ackPacket : Bytes := [2, 0, 0, 0]

theorem sendAckPacket_eq : sendAckPacket = .ok ackPacket := by decide

def typeOf (payload : Bytes) : Int := loadInt32 ((recvBuffer payload).take 4)

theorem memcpy_type (payload : Bytes) : memcpy (storeInt32 0) 0 (recvBuffer payload) 0 4 =
    .ok ((recvBuffer payload).take 4) := by
  rw [memcpy_start (by simp) (by simp)]; simp [storeInt32]

section Branches

variable {heap : Heap} {remote : SockAddrIn} {payload : Bytes}

theorem onHandle_of_type_ne (h : typeOf payload ≠ 1) :
    ∃ effects, onHandle heap (recvBuffer payload) (recvLen payload) remote = .ok effects := by
  unfold typeOf at h
  simp only [onHandle, memcpy_type, ok_bind, if_neg h]
  split
  · exact ⟨_, rfl⟩
  · exact ⟨_, rfl⟩

theorem onHandle_ack :
    onHandle heap (recvBuffer ackPacket) (recvLen ackPacket) remote = .ok [.print (.ack remote)] := by
  have htype : loadInt32 ((recvBuffer ackPacket).take 4) = 2 := by decide +kernel
  simp only [onHandle, memcpy_type, ok_bind, htype]
  rfl

theorem onHandle_print {effects : List Effect} {buffer : Bytes} {len : Int}
    (h : onHandle heap buffer len remote = .ok effects) {line : Line} (hl : .print line ∈ effects) :
    line.remote = remote := by
  simp only [onHandle, bind_eq_ok] at h
  obtain ⟨type, -, h⟩ := h
  split at h
  · simp only [bind_eq_ok, pure_eq_ok, Except.ok.injEq] at h
    obtain ⟨_, _, _, _, _, _, _, _, rfl⟩ := h
    simp only [List.mem_cons, Effect.print.injEq, reduceCtorEq, List.not_mem_nil, or_false] at hl
    rw [hl]; rfl
  · split at h <;> (cases h; simp at hl; rw [hl]; rfl)

theorem onHandle_data (h : typeOf payload = 1) :
    onHandle heap (recvBuffer payload) (recvLen payload) remote = do
      assert (sizeT (recvLen payload - 4) ≤ sizeofBody)
      let body ← memcpy (List.replicate sizeofBody 0) 0 (recvBuffer payload) 4 (sizeT (recvLen payload))
      let text ← cString body
      return [.print (.data remote text), .sendto remote ackPacket] := by
  unfold typeOf at h
  simp only [onHandle, memcpy_type, ok_bind, if_pos h, sendAckPacket_eq]

/-- The assertion holds from 4 bytes, below which `len - 4` wraps around, to 200. -/
theorem assertion_iff : sizeT (recvLen payload - 4) ≤ sizeofBody ↔
    4 ≤ payload.length ∧ payload.length ≤ 200 := by
  simp only [sizeT, sizeofBody, recvLen, kRecvBufferLen]
  omega

theorem onHandle_assertion (h : typeOf payload = 1)
    (hlen : payload.length < 4 ∨ 200 < payload.length) :
    onHandle heap (recvBuffer payload) (recvLen payload) remote = .error .assertion := by
  rw [onHandle_data h, assert_of_not (by rw [assertion_iff]; omega), error_bind]

theorem onHandle_overrun (h : typeOf payload = 1) (h₁ : 196 < payload.length)
    (h₂ : payload.length ≤ 200) :
    onHandle heap (recvBuffer payload) (recvLen payload) remote = .error .outOfBounds := by
  have hcount := sizeT_recvLen (p := payload) (by omega)
  rw [onHandle_data h, assert_of (by rw [assertion_iff]; omega), ok_bind, hcount,
    memcpy_overrun (by simp only [List.length_replicate, sizeofBody]; omega), error_bind]

theorem onHandle_text (h : typeOf payload = 1) (h₄ : 4 ≤ payload.length)
    (h₁ : payload.length ≤ 196) :
    onHandle heap (recvBuffer payload) (recvLen payload) remote =
      .ok [.print (.data remote ((payload.drop 4).takeWhile (· ≠ 0))), .sendto remote ackPacket] := by
  have hcount := sizeT_recvLen (p := payload) (by omega)
  -- at least four zeros come along from behind the datagram, and the first ends the string
  have hbody : ((recvBuffer payload).drop 4).take payload.length =
      payload.drop 4 ++ List.replicate 4 0 := by
    rw [drop_recvBuffer (by omega), List.take_append, List.take_of_length_le (by simp),
      List.take_replicate]
    congr 2
    rw [List.length_drop]; omega
  rw [onHandle_data h, assert_of (by rw [assertion_iff]; omega), ok_bind, hcount,
    memcpy_of_le (by simp only [List.length_replicate, sizeofBody]; omega) (by simp; omega), ok_bind,
    hbody, List.take_zero, List.nil_append, List.append_assoc]
  rw [cString_append_zeros (by omega), ok_bind, pure_eq_ok]

end Branches

/-! ### Decoding -/

/-- `onHandle` handles a datagram inside of its buffers and prints the bytes from offset 4 up to the
first NUL or the end of the datagram. -/
def Decodes (heap : Heap) (remote : SockAddrIn) (payload : Bytes) : Prop :=
  onHandle heap (recvBuffer payload) (recvLen payload) remote =
    .ok [.print (.data remote ((payload.drop 4).takeWhile (· ≠ 0))), .sendto remote ackPacket]

/-- `onHandle` prints the text from the packet `sendMsgPacket` built for it. -/
def DecodesText (heap : Heap) (remote : SockAddrIn) (text : Bytes) : Prop :=
  ∃ packet, sendMsgPacket text = .ok packet ∧
    onHandle heap (recvBuffer packet) (recvLen packet) remote =
      .ok [.print (.data remote text), .sendto remote ackPacket]

section Decoding

variable {payload text packet : Bytes}

theorem typeOf_of_take (h : payload.take 4 = storeInt32 1) : 4 ≤ payload.length ∧ typeOf payload = 1 := by
  have hlen := congrArg List.length h
  rw [List.length_take, length_storeInt32] at hlen
  refine ⟨by omega, ?_⟩
  rw [typeOf, recvBuffer, List.take_append_of_le_length (by rw [List.length_take, kRecvBufferLen]; omega),
    List.take_take, kRecvBufferLen, Nat.min_eq_left (by omega), h]
  decide

theorem sendMsgPacket_eq_ok (h : sendMsgPacket text = .ok packet) :
    packet.length = 200 ∧ packet.take 4 = storeInt32 1 := by
  have hlen : text.length ≤ 196 := by
    obtain ⟨buf, hcopy₁, hcopy₂⟩ := bind_eq_ok.1 h
    have hbuf := memcpy_length hcopy₁
    have hle := (memcpy_eq_ok.1 hcopy₂).1.1
    rw [hbuf, List.length_replicate] at hle
    omega
  rw [sendMsgPacket_of_le hlen, Except.ok.injEq] at h
  subst h
  refine ⟨?_, rfl⟩
  simp only [List.length_append, List.length_cons, List.length_nil, List.length_replicate]
  omega

end Decoding

/-- Of the text datagrams that pass the assertion those of at most 196 bytes are decoded. A packet of
`sendMsgPacket` has 200, so none is. -/
theorem decodes_iff (heap : Heap) (remote : SockAddrIn) :
    (∀ payload, payload.take 4 = storeInt32 1 → payload.length ≤ 200 →
      (Decodes heap remote payload ↔ payload.length ≤ 196)) ∧
      ∀ text, ¬ DecodesText heap remote text := by
  constructor
  · intro payload htype hlen
    obtain ⟨h₄, htype⟩ := typeOf_of_take htype
    constructor
    · intro hdecodes
      by_contra hlong
      rw [Decodes, onHandle_overrun htype (by omega) hlen] at hdecodes
      cases hdecodes
    · intro hshort
      exact onHandle_text htype h₄ hshort
  · rintro text ⟨packet, hsend, hhandle⟩
    obtain ⟨hlen, htype⟩ := sendMsgPacket_eq_ok hsend
    rw [onHandle_overrun (typeOf_of_take htype).2 (by omega) (by omega)] at hhandle
    cases hhandle

theorem decodes_hi : storeInt32 1 ++ literal "hi" = [1, 0, 0, 0, 104, 105] ∧
    Decodes .zeroed ⟨0, ⟨127, 0, 0, 1⟩⟩ (storeInt32 1 ++ literal "hi") :=
  ⟨by decide +kernel, ((decodes_iff _ _).1 _ rfl (by decide +kernel)).2 (by decide +kernel)⟩

/-- The packet of `hi` has 194 zeros behind the text; the four last ones are copied behind `body`. -/
theorem not_decodes_packet : ¬ ((∀ heap remote payload, payload.take 4 = storeInt32 1 →
      payload.length ≤ 200 → Decodes heap remote payload) ∧
    ∀ heap remote text, 0 ∉ text → 1 ≤ text.length → text.length ≤ 195 →
      DecodesText heap remote text) := by
  rintro ⟨-, htext⟩
  have hnul : 0 ∉ literal "hi" := by decide +kernel
  obtain ⟨packet, hsend, hhandle⟩ :=
    htext .zeroed ⟨0, ⟨127, 0, 0, 1⟩⟩ (literal "hi") hnul (by decide +kernel) (by decide +kernel)
  obtain ⟨hlen, htype⟩ := sendMsgPacket_eq_ok hsend
  rw [onHandle_overrun (typeOf_of_take htype).2 (by omega) (by omega)] at hhandle
  cases hhandle

end CoffeeChat.V2
