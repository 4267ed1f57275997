import CoffeeChat.UdpV3
import CoffeeChat.Lib.Lts
import CoffeeChat.Lib.Lossy

/-!
# The acknowledgement protocol of v3

Any number of peers, each of which sends the packets of `sendMsgPacket` when its user types and runs
`onHandle` on what the network delivers, over a network that delays, reorders, loses and duplicates
datagrams. Every peer keeps a log of the calls it made. The copy of the body is a parameter that is
taken to succeed; everything else is the code of `onHandle`.

A handled data datagram causes one acknowledgement and a handled acknowledgement causes no datagram
(`Event.Faithful`). The counts of the logs are related to the histories of the network by
`Inv`, and the network's own law (`Net.Conserving`) then bounds the confirmations that are printed by
the messages that were sent (`acks_truthful`).
-/

namespace CoffeeChat.V3
open Cpp

/-- `onHandle` where the copy of the body succeeds and gives `copy body buffer len`. -/
def onHandleCopying (copy : Bytes → Bytes → Int → Bytes) : Handler :=
  onHandleWith fun body buffer len => .ok (copy body buffer len)

def IsData (payload : Bytes) : Prop := (headerOf payload).cmd = MsgType.kMsgData.code

def IsAck (payload : Bytes) : Prop := (headerOf payload).cmd = MsgType.kMsgAck.code

instance (payload : Bytes) : Decidable (IsData payload) := inferInstanceAs (Decidable (_ = _))

instance (payload : Bytes) : Decidable (IsAck payload) := inferInstanceAs (Decidable (_ = _))

theorem IsAck.not_isData {p : Bytes} (h : IsAck p) : ¬ IsData p := by
  intro hd
  exact MsgType.ack_ne_data (h.symm.trans hd)

theorem isData_of_sendMsgPacket {heap : Heap} {text packet : Bytes}
    (h : sendMsgPacket heap text = .ok packet) : IsData packet := by
  obtain ⟨-, rfl⟩ := sendMsgPacket_eq_ok h
  have hp := parseHeader_bytes ⟨text.length, MsgType.kMsgData.code⟩ text
  rw [parseHeader_recvBuffer, Except.ok.injEq] at hp
  rw [IsData, hp]
  exact MsgType.int32_code .kMsgData

theorem isAck_ackPacket : IsAck ackPacket := by decide +kernel

/-! ### Logs -/

inductive Event where
  | sendMsg (dest : SockAddrIn) (text packet : Bytes)
  | handle (remote : SockAddrIn) (payload : Bytes) (effects : List Effect)
  /-- A call that did not return, and ended the program. -/
  | stopped (s : Stop)

def packets (src : SockAddrIn) (effects : List Effect) : List (Datagram SockAddrIn Bytes) :=
  effects.filterMap fun
    | .print _ => none
    | .sendto dest packet => some ⟨src, dest, packet⟩

def Between (src dst : SockAddrIn) (T : Bytes → Prop) (d : Datagram SockAddrIn Bytes) : Prop :=
  d.src = src ∧ d.dst = dst ∧ T d.payload

instance (src dst : SockAddrIn) (T : Bytes → Prop) [DecidablePred T] : DecidablePred (Between src dst T) :=
  fun d => inferInstanceAs (Decidable (d.src = src ∧ d.dst = dst ∧ T d.payload))

namespace Event

def outgoing (src : SockAddrIn) : Event → List (Datagram SockAddrIn Bytes)
  | sendMsg dest _ packet => [⟨src, dest, packet⟩]
  | handle _ _ effects => packets src effects
  | stopped _ => []

def messages (dest : SockAddrIn) : Event → Nat
  | sendMsg d _ _ => if d = dest then 1 else 0
  | _ => 0

def dataFrom (src : SockAddrIn) : Event → Nat
  | handle remote payload _ => if remote = src ∧ IsData payload then 1 else 0
  | _ => 0

/-- Calls of `sendAckPacket` toward `dest`; `onHandle` sends in no other way. -/
def acks (dest : SockAddrIn) : Event → Nat
  | handle remote _ effects => (packets remote effects).countP fun d => d.dst = dest
  | _ => 0

def confirmations (remote : SockAddrIn) : Event → Nat
  | handle _ _ effects => effects.count (.print (.ack remote))
  | _ => 0

/-- What the calls that returned have done, by the type of the datagram. -/
inductive Faithful : Event → Prop where
  | sendMsg {dest text packet} (h : IsData packet) : Faithful (.sendMsg dest text packet)
  | data {remote payload text} (h : IsData payload) :
      Faithful (.handle remote payload [.print (.data remote text), .sendto remote ackPacket])
  | ack {remote payload} (h : IsAck payload) : Faithful (.handle remote payload [.print (.ack remote)])
  | unknown {remote payload} (h₁ : ¬ IsData payload) (h₂ : ¬ IsAck payload) :
      Faithful (.handle remote payload [.print (.unknown remote (headerOf payload).cmd)])
  | stopped {s} : Faithful (.stopped s)

theorem faithful_handle {copy : Bytes → Bytes → Int → Bytes} {heap : Heap} {payload : Bytes}
    {remote : SockAddrIn} {effects : List Effect}
    (h : onHandleCopying copy heap (recvBuffer payload) (recvLen payload) remote = .ok effects) :
    Faithful (.handle remote payload effects) := by
  have hp := parseHeader_recvBuffer payload
  rw [onHandleCopying] at h
  by_cases hdata : IsData payload
  · rw [onHandleWith_data hp hdata] at h
    obtain ⟨body, -, h⟩ := bind_eq_ok.1 h
    cases h
    exact .data hdata
  · by_cases hack : IsAck payload
    · rw [onHandleWith_ack hp hack] at h
      cases h
      exact .ack hack
    · rw [onHandleWith_unknown hp hdata hack] at h
      cases h
      exact .unknown hdata hack

namespace Faithful
variable {ev : Event}

theorem acks_eq (h : ev.Faithful) (A : SockAddrIn) : ev.acks A = ev.dataFrom A := by
  cases h with
  | sendMsg | stopped => rfl
  | data h => simp [acks, dataFrom, packets, h, List.countP_singleton]
  | ack h => simp [acks, dataFrom, packets, h.not_isData]
  | unknown h => simp [acks, dataFrom, packets, h]

theorem outgoing_of_isAck {remote : SockAddrIn} {payload : Bytes} {effects : List Effect}
    (h : (Event.handle remote payload effects).Faithful) (hack : IsAck payload) (p : SockAddrIn) :
    (Event.handle remote payload effects).outgoing p = [] := by
  cases h with
  | data h => exact absurd h hack.not_isData
  | ack => rfl
  | unknown => rfl

theorem countP_data (h : ev.Faithful) (p A B : SockAddrIn) :
    (ev.outgoing p).countP (Between A B IsData) = if p = A then ev.messages B else 0 := by
  cases h with
  | sendMsg h => simp [outgoing, messages, Between, h, List.countP_singleton, ite_and]
  | data h => simp [outgoing, messages, packets, Between, isAck_ackPacket.not_isData]
  | ack | unknown | stopped => simp [outgoing, messages, packets]

theorem countP_ack (h : ev.Faithful) (p B A : SockAddrIn) :
    (ev.outgoing p).countP (Between B A IsAck) = if p = B then ev.acks A else 0 := by
  cases h with
  | sendMsg h =>
    have hack : ∀ {payload}, IsData payload → ¬ IsAck payload := fun hd ha => ha.not_isData hd
    simp [outgoing, acks, Between, hack h]
  | data h => simp [outgoing, acks, packets, Between, isAck_ackPacket, List.countP_singleton, ite_and]
  | ack | unknown | stopped => simp [outgoing, acks, packets]

theorem confirmations_eq {remote : SockAddrIn} {payload : Bytes} {effects : List Effect}
    (h : (Event.handle remote payload effects).Faithful) (B : SockAddrIn) :
    (Event.handle remote payload effects).confirmations B =
      if remote = B ∧ IsAck payload then 1 else 0 := by
  cases h with
  | data h =>
    have hack : ¬ IsAck payload := fun ha => ha.not_isData h
    simp [confirmations, hack]
  | ack h => simp [confirmations, h, List.count_singleton]
  | unknown h₁ h₂ => simp [confirmations, h₂]

end Faithful
end Event

/-! ### Runs -/

structure State where
  net : Net (Datagram SockAddrIn Bytes)
  log : SockAddrIn → List Event

namespace State

def initial : State := ⟨.empty, fun _ => []⟩

/-- A peer whose program was not ended by a call that did not return. -/
def Running (s : State) (p : SockAddrIn) : Prop := ∀ stop, .stopped stop ∉ s.log p

def record (s : State) (p : SockAddrIn) (ev : Event) : State :=
  ⟨s.net.send (ev.outgoing p), Function.update s.log p (s.log p ++ [ev])⟩

def deliver (s : State) (d : Datagram SockAddrIn Bytes) : State := { s with net := s.net.deliver d }

def total (s : State) (p : SockAddrIn) (f : Event → Nat) : Nat := ((s.log p).map f).sum

theorem mem_log_record {s : State} {p q : SockAddrIn} {ev ev' : Event} :
    ev' ∈ (s.record p ev).log q ↔ ev' ∈ s.log q ∨ q = p ∧ ev' = ev := by
  by_cases h : q = p
  · subst h; simp [record]
  · simp [record, h]

theorem Running.record {s : State} {p q : SockAddrIn} {ev : Event} (h : s.Running q)
    (hev : ∀ stop, ev ≠ .stopped stop) : (s.record p ev).Running q := by
  intro stop hmem
  rcases mem_log_record.1 hmem with hmem | ⟨-, heq⟩
  exacts [h stop hmem, hev stop heq.symm]

theorem Running.deliver {s : State} {p : SockAddrIn} {d : Datagram SockAddrIn Bytes} (h : s.Running p) :
    (s.deliver d).Running p := h

theorem total_record (s : State) (p : SockAddrIn) (ev : Event) (q : SockAddrIn) (f : Event → Nat) :
    (s.record p ev).total q f = s.total q f + if p = q then f ev else 0 := by
  by_cases h : p = q
  · subst h; simp [total, record]
  · simp [total, record, h, Function.update_of_ne (Ne.symm h)]

theorem countP_sent_record (s : State) (p : SockAddrIn) (ev : Event)
    (P : Datagram SockAddrIn Bytes → Prop) [DecidablePred P] :
    (s.record p ev).net.sent.countP P = s.net.sent.countP P + (ev.outgoing p).countP P := by
  simp [record, Net.send, Nat.add_comm]

end State

inductive Action where
  | sendMsg (p dest : SockAddrIn) (text : Bytes)
  | handle (d : Datagram SockAddrIn Bytes)
  | lose (d : Datagram SockAddrIn Bytes)
  | duplicate (d : Datagram SockAddrIn Bytes)

/-- A step of a peer or of the network. The heap is the allocator as it stands during the call. -/
inductive Step (copy : Bytes → Bytes → Int → Bytes) : State → Action → State → Prop where
  | sendMsg {s : State} {p dest : SockAddrIn} {text packet : Bytes} {heap : Heap} (hrun : s.Running p)
      (h : sendMsgPacket heap text = .ok packet) :
      Step copy s (.sendMsg p dest text) (s.record p (.sendMsg dest text packet))
  | sendMsgStops {s : State} {p dest : SockAddrIn} {text : Bytes} {heap : Heap} {stop : Stop}
      (hrun : s.Running p) (h : sendMsgPacket heap text = .error stop) :
      Step copy s (.sendMsg p dest text) (s.record p (.stopped stop))
  | handle {s : State} {d : Datagram SockAddrIn Bytes} {heap : Heap} {effects : List Effect}
      (hrun : s.Running d.dst) (hd : d ∈ s.net.inFlight)
      (h : onHandleCopying copy heap (recvBuffer d.payload) (recvLen d.payload) d.src = .ok effects) :
      Step copy s (.handle d) ((s.deliver d).record d.dst (.handle d.src d.payload effects))
  | handleStops {s : State} {d : Datagram SockAddrIn Bytes} {heap : Heap} {stop : Stop}
      (hrun : s.Running d.dst) (hd : d ∈ s.net.inFlight)
      (h : onHandleCopying copy heap (recvBuffer d.payload) (recvLen d.payload) d.src = .error stop) :
      Step copy s (.handle d) ((s.deliver d).record d.dst (.stopped stop))
  | lose {s : State} {d : Datagram SockAddrIn Bytes} (hd : d ∈ s.net.inFlight) :
      Step copy s (.lose d) { s with net := s.net.lose d }
  | duplicate {s : State} {d : Datagram SockAddrIn Bytes} (hd : d ∈ s.net.inFlight) :
      Step copy s (.duplicate d) { s with net := s.net.duplicate d }

def peers (copy : Bytes → Bytes → Int → Bytes) : Lts State Action := ⟨(· = .initial), Step copy⟩

/-- The logs and the histories of the network tell the same. -/
structure Inv (s : State) : Prop where
  faithful : ∀ p, ∀ ev ∈ s.log p, ev.Faithful
  sentData : ∀ A B, s.net.sent.countP (Between A B IsData) = s.total A (·.messages B)
  sentAcks : ∀ B A, s.net.sent.countP (Between B A IsAck) = s.total B (·.acks A)
  handledData : ∀ A B, s.total B (·.dataFrom A) ≤ s.net.delivered.countP (Between A B IsData)
  handledAcks : ∀ B A, s.total A (·.confirmations B) ≤ s.net.delivered.countP (Between B A IsAck)

namespace Inv
variable {s : State}

theorem initial : Inv .initial := by
  refine ⟨?_, ?_, ?_, ?_, ?_⟩ <;> simp [State.initial, State.total, Net.empty]

/-- The step of a peer: a faithful call, recorded where the network `n` has delivered what the call
handled. -/
theorem record (h : Inv s) {p : SockAddrIn} {ev : Event} (hev : ev.Faithful)
    {n : Net (Datagram SockAddrIn Bytes)} (hsent : n.sent = s.net.sent)
    (hmono : s.net.delivered ≤ n.delivered)
    (hdata : ∀ A, s.net.delivered.countP (Between A p IsData) + ev.dataFrom A ≤
      n.delivered.countP (Between A p IsData))
    (hack : ∀ B, s.net.delivered.countP (Between B p IsAck) + ev.confirmations B ≤
      n.delivered.countP (Between B p IsAck)) :
    Inv (State.record { s with net := n } p ev) where
  faithful q ev' hmem := by
    rcases State.mem_log_record.1 hmem with hmem | ⟨-, rfl⟩
    exacts [h.faithful q ev' hmem, hev]
  sentData A B := by
    rw [State.total_record, State.countP_sent_record, hev.countP_data, hsent, h.sentData]
    rfl
  sentAcks B A := by
    rw [State.total_record, State.countP_sent_record, hev.countP_ack, hsent, h.sentAcks]
    rfl
  handledData A B := by
    rw [State.total_record]
    have hold := h.handledData A B
    split
    next hp => subst hp; exact (Nat.add_le_add_right hold _).trans (hdata A)
    next => exact hold.trans (Multiset.countP_le_of_le _ hmono)
  handledAcks B A := by
    rw [State.total_record]
    have hold := h.handledAcks B A
    split
    next hp => subst hp; exact (Nat.add_le_add_right hold _).trans (hack B)
    next => exact hold.trans (Multiset.countP_le_of_le _ hmono)

theorem of_net (h : Inv s) {n : Net (Datagram SockAddrIn Bytes)} (hsent : n.sent = s.net.sent)
    (hdelivered : n.delivered = s.net.delivered) : Inv { s with net := n } where
  faithful := h.faithful
  sentData A B := hsent ▸ h.sentData A B
  sentAcks B A := hsent ▸ h.sentAcks B A
  handledData A B := hdelivered ▸ h.handledData A B
  handledAcks B A := hdelivered ▸ h.handledAcks B A

theorem step {copy : Bytes → Bytes → Int → Bytes} {a : Action} {s' : State} (h : Inv s)
    (hstep : Step copy s a s') : Inv s' := by
  cases hstep with
  | sendMsg _ hsend =>
    exact h.record (.sendMsg (isData_of_sendMsgPacket hsend)) rfl le_rfl (fun _ => le_rfl) fun _ => le_rfl
  | sendMsgStops => exact h.record .stopped rfl le_rfl (fun _ => le_rfl) fun _ => le_rfl
  | @handle d _ _ _ _ hhandle =>
    have hev := Event.faithful_handle hhandle
    refine h.record hev rfl (Multiset.le_cons_self _ _) (fun A => ?_) (fun B => ?_)
    · simp [Net.deliver, Multiset.countP_cons, Between, Event.dataFrom]
    · simp [Net.deliver, Multiset.countP_cons, Between, hev.confirmations_eq]
  | @handleStops d =>
    exact h.record .stopped rfl (Multiset.le_cons_self _ _)
      (fun _ => Multiset.countP_le_of_le _ (Multiset.le_cons_self _ _))
      (fun _ => Multiset.countP_le_of_le _ (Multiset.le_cons_self _ _))
  | lose => exact h.of_net rfl rfl
  | duplicate => exact h.of_net rfl rfl

end Inv

theorem conserving_step {copy : Bytes → Bytes → Int → Bytes} {s s' : State} {a : Action}
    (hdup : ∀ d, a ≠ .duplicate d) (h : s.net.Conserving) (hstep : Step copy s a s') :
    s'.net.Conserving := by
  cases hstep with
  | sendMsg | sendMsgStops => exact h.send _
  | handle _ hd | handleStops _ hd => exact (h.deliver hd).send _
  | lose => exact h.lose _
  | duplicate => exact absurd rfl (hdup _)

/-- In every reachable state a peer has acknowledged each data datagram it handled, once and to its
sender, and an acknowledgement has caused no datagram. Where the network does not duplicate, `A` has
printed at most as many confirmations for `B` as `B` has handled data datagrams of `A`, and these are
at most the messages `A` sent to `B`. -/
theorem acks_truthful (copy : Bytes → Bytes → Int → Bytes) {as : List Action} {s : State}
    (hrun : (peers copy).Run as s) (A B : SockAddrIn) :
    s.total B (·.acks A) = s.total B (·.dataFrom A) ∧
      (∀ remote payload effects, .handle remote payload effects ∈ s.log B → IsAck payload →
        packets B effects = []) ∧
      ((∀ a ∈ as, ∀ d, a ≠ .duplicate d) →
        s.total A (·.confirmations B) ≤ s.total B (·.dataFrom A) ∧
          s.total B (·.dataFrom A) ≤ s.total A (·.messages B)) := by
  have hinv : Inv s := hrun.invariant (fun _ h => h ▸ .initial) fun _ _ _ h => h.step
  have hacks : s.total B (·.acks A) = s.total B (·.dataFrom A) :=
    congrArg List.sum (List.map_congr_left fun ev hev => (hinv.faithful B ev hev).acks_eq A)
  refine ⟨hacks, fun _ _ _ hmem hack => (hinv.faithful B _ hmem).outgoing_of_isAck hack B, fun hdup => ?_⟩
  have hcons : s.net.Conserving := by
    refine (hrun.restrict hdup).invariant (I := fun s => s.net.Conserving) ?_ ?_
    · rintro _ rfl; exact Net.conserving_empty
    · exact fun _ _ _ h hs => conserving_step hs.2 h hs.1
  refine ⟨?_, ?_⟩
  · calc s.total A (·.confirmations B)
        ≤ s.net.delivered.countP (Between B A IsAck) := hinv.handledAcks B A
      _ ≤ s.net.sent.countP (Between B A IsAck) := hcons.countP_le _
      _ = s.total B (·.dataFrom A) := (hinv.sentAcks B A).trans hacks
  · calc s.total B (·.dataFrom A)
        ≤ s.net.delivered.countP (Between A B IsData) := hinv.handledData A B
      _ ≤ s.net.sent.countP (Between A B IsData) := hcons.countP_le _
      _ = s.total A (·.messages B) := hinv.sentData A B

/-! ### A session -/

def copyDeclared (body buffer : Bytes) (_ : Int) : Bytes := (buffer.drop sizeofHeader).take body.length

def peerA : SockAddrIn := ⟨htons 24567, ⟨127, 0, 0, 1⟩⟩

def peerB : SockAddrIn := ⟨htons 12345, ⟨127, 0, 0, 1⟩⟩

def hiDatagram : Datagram SockAddrIn Bytes := ⟨peerA, peerB, [2, 0, 0, 0, 1, 0, 0, 0, 104, 105]⟩

def hiAck : Datagram SockAddrIn Bytes := ⟨peerB, peerA, ackPacket⟩

/-- The states after `peerA` sent `hi`, `peerB` handled it and `peerA` handled the acknowledgement. -/
def hiSent : State := State.initial.record peerA (.sendMsg peerB [104, 105] hiDatagram.payload)

def hiPrinted : State := (hiSent.deliver hiDatagram).record peerB
  (.handle peerA hiDatagram.payload [.print (.data peerA [104, 105]), .sendto peerA ackPacket])

def hiConfirmed : State := (hiPrinted.deliver hiAck).record peerA
  (.handle peerB ackPacket [.print (.ack peerB)])

def hiActions : List Action := [.sendMsg peerA peerB [104, 105], .handle hiDatagram, .handle hiAck]

theorem run_hiConfirmed : (peers copyDeclared).Run hiActions hiConfirmed := by
  have hsend : sendMsgPacket .zeroed [104, 105] = .ok hiDatagram.payload := by decide +kernel
  have hdata : onHandleCopying copyDeclared .zeroed (recvBuffer hiDatagram.payload)
      (recvLen hiDatagram.payload) peerA =
        .ok [.print (.data peerA [104, 105]), .sendto peerA ackPacket] := by decide +kernel
  have hack : onHandleCopying copyDeclared .zeroed (recvBuffer ackPacket) (recvLen ackPacket) peerB =
      .ok [.print (.ack peerB)] := by decide +kernel
  have hrun : ∀ p, State.initial.Running p := fun _ _ => List.not_mem_nil
  have hrun₁ : ∀ p, hiSent.Running p := fun p => (hrun p).record (by simp)
  have hrun₂ : ∀ p, hiPrinted.Running p := fun p => (hrun₁ p).deliver.record (by simp)
  have h₁ : Step copyDeclared .initial (.sendMsg peerA peerB [104, 105]) hiSent :=
    .sendMsg (hrun _) hsend
  have h₂ : Step copyDeclared hiSent (.handle hiDatagram) hiPrinted :=
    .handle (hrun₁ _) (by decide +kernel) hdata
  have h₃ : Step copyDeclared hiPrinted (.handle hiAck) hiConfirmed :=
    .handle (hrun₂ _) (by decide +kernel) hack
  exact ((Lts.Run.nil rfl).snoc h₁).snoc h₂ |>.snoc h₃

theorem acks_truthful_hi : hiConfirmed.total peerA (·.confirmations peerB) = 1 ∧
    1 ≤ hiConfirmed.total peerB (·.dataFrom peerA) ∧
      hiConfirmed.total peerB (·.dataFrom peerA) ≤ hiConfirmed.total peerA (·.messages peerB) := by
  have hone : hiConfirmed.total peerA (·.confirmations peerB) = 1 := by decide +kernel
  obtain ⟨-, -, h⟩ := acks_truthful copyDeclared run_hiConfirmed peerA peerB
  obtain ⟨hle, hle'⟩ := h (by simp [hiActions])
  exact ⟨hone, hone ▸ hle, hle'⟩

end CoffeeChat.V3
