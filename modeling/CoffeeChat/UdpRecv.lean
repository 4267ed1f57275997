import CoffeeChat.UdpV2
import CoffeeChat.UdpV3

/-!
# What stops the receive loops

`onHandle` asserts that a data datagram has the length it should have, and the program aborts at the
first one that has not, as the comment on the assertion says. `AbortsOnlyOn` states this of a
version, up to two kinds of datagrams it leaves open: those at which an exception leaves `onHandle`
and those whose copy overruns the body. `AbortsOnlyOn.of_handle` derives it from what `onHandle`
does with one datagram; the two instances are `receivers_abort_only_on`.
-/

namespace CoffeeChat
open Cpp

/-- An assertion or an exception ended the program. -/
def LoopEnd.Killed : LoopEnd → Prop
  | .stopped .assertion | .stopped (.threw _) => True
  | _ => False

/-- No datagram outside of `rejected` and `excepted` ends the program by an assertion or an
exception; one that also stays clear of `overrun` is handled, and the loop returns to `recvfrom`;
the first one in `rejected` fails the assertion. -/
structure AbortsOnlyOn (onHandle : Handler) (rejected excepted overrun : Arrival → Prop) : Prop where
  not_killed : ∀ as, (∀ a ∈ as, ¬ rejected a ∧ ¬ excepted a) → ¬ (receive onHandle as).2.Killed
  receiving : ∀ as, (∀ a ∈ as, ¬ rejected a ∧ ¬ excepted a ∧ ¬ overrun a) →
    (receive onHandle as).1.length = as.length ∧ (receive onHandle as).2 = .receiving
  aborts : ∀ as a rest, (∀ b ∈ as, ¬ rejected b ∧ ¬ excepted b ∧ ¬ overrun b) → rejected a →
    (receive onHandle (as ++ a :: rest)).1.length = as.length ∧
      (receive onHandle (as ++ a :: rest)).2 = .stopped .assertion

theorem AbortsOnlyOn.of_handle {onHandle : Handler} {rejected excepted overrun : Arrival → Prop}
    (hr : ∀ a, rejected a → a.handle onHandle = .error .assertion)
    (he : ∀ a s, ¬ rejected a → ¬ excepted a → a.handle onHandle = .error s →
      s = .outOfBounds ∧ overrun a) : AbortsOnlyOn onHandle rejected excepted overrun := by
  have hok : ∀ a, ¬ rejected a ∧ ¬ excepted a ∧ ¬ overrun a →
      ∃ effects, a.handle onHandle = .ok effects := by
    rintro a ⟨h₁, h₂, h₃⟩
    cases h : a.handle onHandle with
    | ok effects => exact ⟨effects, rfl⟩
    | error s => exact absurd (he a s h₁ h₂ h).2 h₃
  refine ⟨fun as h => ?_, fun as h => ?_, fun as a rest h ha => ?_⟩
  · rcases receive_cases onHandle as with hend | ⟨a, ha, s, hs, hend⟩
    · rw [hend]; exact id
    · obtain ⟨rfl, -⟩ := he a s (h a ha).1 (h a ha).2 hs
      rw [hend]; exact id
  · obtain ⟨fxs, hlen, heq⟩ := receive_append [] fun a ha => hok a (h a ha)
    rw [List.append_nil] at heq
    rw [heq]
    exact ⟨by simpa [receive, recvThreadProc] using hlen, rfl⟩
  · obtain ⟨fxs, hlen, heq⟩ := receive_append (a :: rest) fun a ha => hok a (h a ha)
    rw [heq, receive_cons_of_error (hr a ha)]
    exact ⟨by simpa using hlen, rfl⟩

/-! ### v2 -/

namespace V2

/-- A text packet of the wrong size. -/
def Rejected (a : Arrival) : Prop :=
  typeOf a.payload = 1 ∧ (a.payload.length < 4 ∨ 200 < a.payload.length)

/-- A text packet whose copy ends behind `body`. -/
def Overruns (a : Arrival) : Prop :=
  typeOf a.payload = 1 ∧ 196 < a.payload.length ∧ a.payload.length ≤ 200

theorem handle_error {a : Arrival} {s : Stop} (hr : ¬ Rejected a)
    (h : a.handle onHandle = .error s) : s = .outOfBounds ∧ Overruns a := by
  unfold Arrival.handle at h
  by_cases ht : typeOf a.payload = 1
  · have hlen : 4 ≤ a.payload.length ∧ a.payload.length ≤ 200 := by
      by_contra hlen; exact hr ⟨ht, by omega⟩
    rcases Nat.lt_or_ge 196 a.payload.length with hover | hfit
    · rw [onHandle_overrun ht hover hlen.2, Except.error.injEq] at h
      exact ⟨h.symm, ht, hover, hlen.2⟩
    · rw [onHandle_text ht hlen.1 hfit] at h; cases h
  · obtain ⟨effects, hok⟩ := @onHandle_of_type_ne a.heap a.remote _ ht
    rw [hok] at h; cases h

end V2

/-! ### v3 -/

namespace V3

/-- A data packet with a whole header that declares more than it carries. -/
def Rejected (a : Arrival) : Prop :=
  (headerOf a.payload).cmd = MsgType.kMsgData.code ∧ 8 ≤ recvLen a.payload ∧
    recvLen a.payload < 8 + (headerOf a.payload).len ∧
    (a.heap.alloc (headerOf a.payload).len.toNat).isSome

/-- A data packet that declares a count which `new char[]` does not grant. -/
def Excepted (a : Arrival) : Prop :=
  (headerOf a.payload).cmd = MsgType.kMsgData.code ∧
    ((headerOf a.payload).len < 0 ∨ a.heap.alloc (headerOf a.payload).len.toNat = none)

/-- A data packet that declares less than the `len` bytes that are copied. -/
def Overruns (a : Arrival) : Prop :=
  (headerOf a.payload).cmd = MsgType.kMsgData.code ∧
    (headerOf a.payload).len < recvLen a.payload

theorem handle_rejected {a : Arrival} (h : Rejected a) : a.handle onHandle = .error .assertion := by
  obtain ⟨hcmd, h₈, hlen, hgrant⟩ := h
  have hrange := headerOf_len_range a.payload
  have hrecv := recvLen_range a.payload
  obtain ⟨body, hbody⟩ := Option.isSome_iff_exists.1 hgrant
  have hnew : newChars a.heap (headerOf a.payload).len = .ok body :=
    newChars_eq_ok.2 ⟨by omega, hbody⟩
  have hfalse : ¬ sizeT (headerOf a.payload).len ≤ sizeT (sizeT (recvLen a.payload) - sizeofHeader) := by
    simp only [sizeT, sizeofHeader]; omega
  rw [Arrival.handle, onHandle, onHandleWith_data (parseHeader_recvBuffer _) hcmd, newBody, hnew,
    ok_bind, assert_of_not hfalse]
  rfl

theorem copyBody_of_short {payload body : Bytes} (hp : payload.length < 8)
    (h₀ : 0 < payload.length) (hb : payload.length ≤ body.length) :
    copyBody body (recvBuffer payload) (recvLen payload) = .ok [] := by
  have hcount := sizeT_recvLen (p := payload) (by omega)
  have hzeros : ((recvBuffer payload).drop sizeofHeader).take payload.length =
      List.replicate payload.length 0 := by
    rw [sizeofHeader, drop_recvBuffer (by omega), List.drop_of_length_le (by omega), List.nil_append,
      List.take_replicate]
    congr 1; omega
  rw [copyBody, hcount, memcpy_of_le (by omega) (by simp [sizeofHeader]; omega), ok_bind, hzeros,
    List.take_zero, List.append_assoc, cString_append_zeros h₀]
  rfl

/-- A short data packet copies nothing but zeros. -/
theorem copyBody_of_short_data {payload body : Bytes} (hcmd : (headerOf payload).cmd = MsgType.kMsgData.code)
    (hshort : recvLen payload < 8) (hb : recvLen payload ≤ body.length) :
    copyBody body (recvBuffer payload) (recvLen payload) = .ok [] := by
  have hp : payload.length < 8 := by
    simp only [recvLen, kRecvBufferLen] at hshort
    omega
  have h₀ : 0 < payload.length := by
    have hcut := congrArg List.length ((cmd_of_short hp).1 hcmd)
    simp at hcut
    omega
  have hrecv := recvLen_of_le (p := payload) (by omega)
  exact copyBody_of_short hp h₀ (by omega)

theorem copyBody_eq_error {body buffer : Bytes} {len : Int} {s : Stop}
    (h : copyBody body buffer len = .error s) : s = .outOfBounds := by
  rcases bind_eq_error.1 h with hcopy | ⟨body', -, hstring⟩
  · exact memcpy_eq_error hcopy
  · exact cString_eq_error hstring

theorem newChars_of_not_excepted {a : Arrival}
    (hcmd : (headerOf a.payload).cmd = MsgType.kMsgData.code) (he : ¬ Excepted a) :
    ∃ body, newChars a.heap (headerOf a.payload).len = .ok body := by
  have h₀ : 0 ≤ (headerOf a.payload).len := by
    by_contra hneg
    exact he ⟨hcmd, .inl (by omega)⟩
  cases halloc : a.heap.alloc (headerOf a.payload).len.toNat with
  | none => exact absurd ⟨hcmd, .inr halloc⟩ he
  | some body => exact ⟨body, newChars_eq_ok.2 ⟨h₀, halloc⟩⟩

theorem handle_error {a : Arrival} {s : Stop} (hr : ¬ Rejected a) (he : ¬ Excepted a)
    (h : a.handle onHandle = .error s) : s = .outOfBounds ∧ Overruns a := by
  have hrange := headerOf_len_range a.payload
  have hrecv := recvLen_range a.payload
  rw [Arrival.handle, onHandle] at h
  by_cases hcmd : (headerOf a.payload).cmd = MsgType.kMsgData.code
  · rw [onHandleWith_data (parseHeader_recvBuffer _) hcmd] at h
    obtain ⟨body, hnew⟩ := newChars_of_not_excepted hcmd he
    rcases lt_or_ge (recvLen a.payload) 8 with hshort | h₈
    · -- the wrapped assertion passes; the copy fits unless the count is below `len`
      rw [(newBody_of_lt hrecv.1 hshort hrange.2).2 hnew, ok_bind] at h
      rcases bind_eq_error.1 h with hcopy | ⟨_, -, h⟩
      · refine ⟨copyBody_eq_error hcopy, hcmd, ?_⟩
        by_contra hfit
        have hlen := newChars_length hnew
        rw [copyBody_of_short_data hcmd hshort (by omega)] at hcopy
        cases hcopy
      · cases h
    · have hle : 8 + (headerOf a.payload).len ≤ recvLen a.payload := by
        by_contra hlt
        exact hr ⟨hcmd, h₈, by omega, by rw [(newChars_eq_ok.1 hnew).2]; rfl⟩
      have hb : newBody a.heap (recvLen a.payload) (headerOf a.payload) = .ok body :=
        (newBody_of_le h₈ (by omega) hrange.2).2 ⟨hnew, hle⟩
      rw [hb, ok_bind, copyBody_overrun h₈ (by omega) hrange.2 hb, error_bind,
        Except.error.injEq] at h
      exact ⟨h.symm, hcmd, by omega⟩
  · by_cases hack : (headerOf a.payload).cmd = MsgType.kMsgAck.code
    · rw [onHandleWith_ack (parseHeader_recvBuffer _) hack] at h
      cases h
    · rw [onHandleWith_unknown (parseHeader_recvBuffer _) hcmd hack] at h
      cases h

end V3

/-- Both receive loops survive every datagram except those that fail the assertion, with the
exceptions of v3's allocation and the overruns of both copies left open. -/
theorem receivers_abort_only_on :
    AbortsOnlyOn V2.onHandle V2.Rejected (fun _ => False) V2.Overruns ∧
      AbortsOnlyOn V3.onHandle V3.Rejected V3.Excepted V3.Overruns :=
  ⟨.of_handle (fun _ h => V2.onHandle_assertion h.1 h.2) fun _ _ hr _ h => V2.handle_error hr h,
    .of_handle (fun _ h => V3.handle_rejected h) fun _ _ hr he h => V3.handle_error hr he h⟩

/-- A text packet one byte too long aborts v2, and a packet that declares a byte and carries none
aborts v3. -/
theorem not_receivers_survive : (¬ ∀ as, ¬ (receive V2.onHandle as).2.Killed) ∧
    ¬ ∀ as, ¬ (receive V3.onHandle as).2.Killed := by
  constructor
  · intro h
    let long : Arrival := ⟨⟨0, ⟨127, 0, 0, 1⟩⟩, 1 :: List.replicate 200 0, .zeroed⟩
    have hlong : long.handle V2.onHandle = .error .assertion :=
      V2.onHandle_assertion (by decide +kernel)
        (.inr (by rw [List.length_cons, List.length_replicate]; decide))
    refine h [long] ?_
    rw [receive_cons_of_error hlong]
    trivial
  · intro h
    let bare : Arrival := ⟨⟨0, ⟨127, 0, 0, 1⟩⟩, [1, 0, 0, 0, 1, 0, 0, 0], .zeroed⟩
    have hbare : bare.handle V3.onHandle = .error .assertion :=
      V3.handle_rejected ⟨by decide +kernel, by decide, by decide +kernel, rfl⟩
    refine h [bare] ?_
    rw [receive_cons_of_error hbare]
    trivial

end CoffeeChat
