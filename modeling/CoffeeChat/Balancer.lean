import CoffeeChat.Lib.CText
import CoffeeChat.Lib.Lts
import Mathlib.Data.List.MinMax

/-!
# The balancer's health check

The registration of a gateway, the timer that probes the gateways, and the loop that picks one for a
client. A server carries, next to its `msg_serv_info_t`, the subtractions of times and the probes
that the timer made for it, newest first. `Server.Inv` ties the flag and the counter to the probes;
`select_eq_argmin` says what the loop picks; `health_of_run` puts them together.
-/

namespace CoffeeChat.Balancer
open Cpp

/-- What `_HandleMsgServInfo` reads of a registration. -/
structure IMMsgServInfo where
  ip1 : Bytes
  ip2 : Bytes
  port : UInt32
  max_conn_cnt : UInt32
  cur_conn_cnt : UInt32
  deriving DecidableEq, Repr

/-- `msg_serv_info_t`. -/
structure MsgServInfo where
  ip_addr1 : Bytes
  ip_addr2 : Bytes
  port : UInt16
  max_conn_cnt : UInt32
  cur_conn_cnt : UInt32
  is_health : Bool
  last_check_time : UInt64
  fail_count : UInt16
  deriving DecidableEq, Repr

def kMaxFailsCount : UInt32 := 3

def kHealthCheckTimeSpan : UInt64 := 5000

def kNextHealthCheckTimeSpan : UInt64 := 2 * 60 * 1000

inductive Report where
  | isDown (ip : Bytes) (port : UInt16) (fails_count : UInt16) (next : UInt64)
  | connectionFail (ip : Bytes) (port : UInt16) (fails_count : UInt16)
  deriving DecidableEq, Repr

def Report.text : Report → Bytes
  | isDown ip port fails_count next =>
    literal "msg_server is down, ip=" ++ ip ++ literal ",port=" ++ decimal port.toNat ++
      literal ",fails_count=" ++ decimal fails_count.toNat ++ literal ",next check=after " ++
      decimal next.toNat ++ literal " ms"
  | connectionFail ip port fails_count =>
    literal "msg_server ssl connection fail, ip=" ++ ip ++ literal ",port=" ++ decimal port.toNat ++
      literal ",fails_count=" ++ decimal fails_count.toNat

/-- A call of `sslConnect`: its time, its result and what the callback reported on it. -/
structure Probe where
  time : UInt64
  pass : Bool
  report : Option Report
  deriving DecidableEq, Repr

/-- The probe marked the server down. -/
def Probe.Down (probe : Probe) : Prop :=
  ∃ ip port fails_count next, probe.report = some (.isDown ip port fails_count next)

structure Server where
  info : MsgServInfo
  subtractions : List (UInt64 × UInt64)
  probes : List Probe
  deriving DecidableEq, Repr

/-- `msg_server_maps_`, with no key twice. -/
abbrev MsgServerMaps := List (UInt32 × Server)

def registered (msg : IMMsgServInfo) : Server where
  info :=
    { ip_addr1 := msg.ip1, ip_addr2 := msg.ip2, port := msg.port.toUInt16,
      max_conn_cnt := msg.max_conn_cnt, cur_conn_cnt := msg.cur_conn_cnt,
      is_health := true, last_check_time := 0, fail_count := 0 }
  subtractions := []
  probes := []

/-- `_HandleMsgServInfo`; `insert` leaves an entry that is there already. -/
def handleMsgServInfo (m_handle : UInt32) (msg : IMMsgServInfo) (maps : MsgServerMaps) : MsgServerMaps :=
  if m_handle ∈ maps.map Prod.fst then maps else maps ++ [(m_handle, registered msg)]

/-- The body of the callback's loop, `pass` being what `sslConnect` returns if it is called. -/
def Server.check (cur_time : UInt64) (pass : Bool) (server : Server) : Server :=
  let msgInfo := server.info
  if cur_time > msgInfo.last_check_time then
    let server :=
      { server with subtractions := (cur_time, msgInfo.last_check_time) :: server.subtractions }
    if cur_time - msgInfo.last_check_time ≥ kHealthCheckTimeSpan then
      let msgInfo := { msgInfo with last_check_time := cur_time }
      if pass then
        let msgInfo := { msgInfo with is_health := true, fail_count := 0 }
        { server with info := msgInfo, probes := ⟨cur_time, true, none⟩ :: server.probes }
      else
        let msgInfo := { msgInfo with fail_count := msgInfo.fail_count + 1 }
        if msgInfo.fail_count.toUInt32 ≥ kMaxFailsCount then
          let report :=
            .isDown msgInfo.ip_addr1 msgInfo.port msgInfo.fail_count kNextHealthCheckTimeSpan
          let msgInfo := { msgInfo with
            is_health := false
            last_check_time := cur_time + kNextHealthCheckTimeSpan
            fail_count := 0 }
          { server with info := msgInfo, probes := ⟨cur_time, false, some report⟩ :: server.probes }
        else
          let report := .connectionFail msgInfo.ip_addr1 msgInfo.port msgInfo.fail_count
          { server with info := msgInfo, probes := ⟨cur_time, false, some report⟩ :: server.probes }
    else server
  else server

/-- `check_timer_callback`; `sslConnect` answers by the key of the server. -/
def checkTimerCallback (cur_time : UInt64) (sslConnect : UInt32 → Bool) (maps : MsgServerMaps) :
    MsgServerMaps :=
  maps.map fun item => (item.1, item.2.check cur_time (sslConnect item.1))

inductive Action where
  | registration (m_handle : UInt32) (msg : IMMsgServInfo)
  | tick (cur_time : UInt64) (sslConnect : UInt32 → Bool)

/-- The balancer, with ticks in any order before the last 120 s of the clock. -/
def balancer : Lts MsgServerMaps Action where
  init maps := maps = []
  step maps action maps' :=
    match action with
    | .registration m_handle msg => maps' = handleMsgServInfo m_handle msg maps
    | .tick cur_time sslConnect =>
      cur_time.toNat < 2 ^ 64 - 120000 ∧ maps' = checkTimerCallback cur_time sslConnect maps

/-! ### Health and history -/

/-- The probes that failed since the last one that passed. -/
def failures : List Probe → Nat
  | [] => 0
  | probe :: probes => if probe.pass then 0 else failures probes + 1

namespace Server

structure Inv (server : Server) : Prop where
  health : server.info.is_health = false ↔ 3 ≤ failures server.probes
  count : server.info.fail_count.toNat = failures server.probes % 3
  ordered : ∀ p ∈ server.subtractions, p.2 < p.1
  waits : ∀ probe ∈ server.probes, probe.Down →
    probe.time.toNat + 120000 ≤ server.info.last_check_time.toNat
  spaced : server.probes.Pairwise fun newer older =>
    older.Down → older.time.toNat + 120000 ≤ newer.time.toNat

variable {server : Server} {cur_time : UInt64} {pass : Bool}

theorem inv_registered (msg : IMMsgServInfo) : (registered msg).Inv where
  health := by simp [registered, failures]
  count := rfl
  ordered := by simp [registered]
  waits := by simp [registered]
  spaced := .nil

/-- A probe later than the last check time keeps the log in order; flag, counter and next check time
are left to show. -/
theorem Inv.probe (h : server.Inv) {info : MsgServInfo} {report : Option Report}
    (htime : server.info.last_check_time < cur_time)
    (hhealth : info.is_health = false ↔ 3 ≤ failures (⟨cur_time, pass, report⟩ :: server.probes))
    (hcount : info.fail_count.toNat = failures (⟨cur_time, pass, report⟩ :: server.probes) % 3)
    (hdown : Probe.Down ⟨cur_time, pass, report⟩ →
      cur_time.toNat + 120000 ≤ info.last_check_time.toNat)
    (hlater : server.info.last_check_time.toNat ≤ info.last_check_time.toNat) :
    Inv ⟨info, (cur_time, server.info.last_check_time) :: server.subtractions,
      ⟨cur_time, pass, report⟩ :: server.probes⟩ where
  health := hhealth
  count := hcount
  ordered := by
    intro p hp
    rcases List.mem_cons.1 hp with rfl | hp
    · exact htime
    · exact h.ordered p hp
  waits := by
    intro older holder hold
    rcases List.mem_cons.1 holder with rfl | holder
    · exact hdown hold
    · exact Nat.le_trans (h.waits older holder hold) hlater
  spaced := by
    refine List.pairwise_cons.2 ⟨fun older holder hold => ?_, h.spaced⟩
    have hwait := h.waits older holder hold
    rw [UInt64.lt_iff_toNat_lt] at htime
    show _ ≤ cur_time.toNat
    omega

theorem Inv.subtract (h : server.Inv) (htime : server.info.last_check_time < cur_time) :
    Inv { server with
      subtractions := (cur_time, server.info.last_check_time) :: server.subtractions } where
  health := h.health
  count := h.count
  ordered := by
    intro p hp
    rcases List.mem_cons.1 hp with rfl | hp
    · exact htime
    · exact h.ordered p hp
  waits := h.waits
  spaced := h.spaced

theorem failures_of_fail (report : Option Report) :
    failures (⟨cur_time, false, report⟩ :: server.probes) = failures server.probes + 1 := by
  rw [failures, if_neg Bool.false_ne_true]

/-- The counter is below 3, so that its increment does not wrap. -/
theorem Inv.count_next (h : server.Inv) :
    (server.info.fail_count + 1).toNat = failures server.probes % 3 + 1 := by
  rw [UInt16.toNat_add, h.count, UInt16.toNat_one]
  omega

theorem Inv.passed (h : server.Inv) (hlt : server.info.last_check_time < cur_time) :
    Inv ⟨{ server.info with is_health := true, last_check_time := cur_time, fail_count := 0 },
      (cur_time, server.info.last_check_time) :: server.subtractions,
      ⟨cur_time, true, none⟩ :: server.probes⟩ := by
  refine h.probe hlt ?_ ?_ ?_ ?_
  · simp [failures]
  · rfl
  · rintro ⟨_, _, _, _, hreport⟩
    cases hreport
  · exact Nat.le_of_lt (UInt64.lt_iff_toNat_lt.1 hlt)

theorem Inv.marked (h : server.Inv) (hlt : server.info.last_check_time < cur_time)
    (htime : cur_time.toNat < 2 ^ 64 - 120000) (hmax : failures server.probes % 3 = 2)
    (report : Option Report) :
    Inv ⟨{ server.info with
        is_health := false
        last_check_time := cur_time + kNextHealthCheckTimeSpan
        fail_count := 0 },
      (cur_time, server.info.last_check_time) :: server.subtractions,
      ⟨cur_time, false, report⟩ :: server.probes⟩ := by
  have hwait : (cur_time + kNextHealthCheckTimeSpan).toNat = cur_time.toNat + 120000 := by
    rw [UInt64.toNat_add, kNextHealthCheckTimeSpan]
    simp only [UInt64.reduceMul, UInt64.reduceToNat]
    omega
  refine h.probe hlt ?_ ?_ ?_ ?_
  · rw [failures_of_fail]
    refine iff_of_true rfl ?_
    omega
  · rw [failures_of_fail]
    show 0 = _
    omega
  · intro _
    exact hwait.ge
  · have hlt' := UInt64.lt_iff_toNat_lt.1 hlt
    show _ ≤ (cur_time + kNextHealthCheckTimeSpan).toNat
    omega

theorem Inv.failed (h : server.Inv) (hlt : server.info.last_check_time < cur_time)
    (hfew : failures server.probes % 3 < 2) {report : Option Report}
    (hreport : ¬ Probe.Down ⟨cur_time, false, report⟩) :
    Inv ⟨{ server.info with last_check_time := cur_time, fail_count := server.info.fail_count + 1 },
      (cur_time, server.info.last_check_time) :: server.subtractions,
      ⟨cur_time, false, report⟩ :: server.probes⟩ := by
  refine h.probe hlt ?_ ?_ ?_ ?_
  · rw [failures_of_fail]
    show server.info.is_health = false ↔ _
    rw [h.health]
    omega
  · rw [failures_of_fail]
    show (server.info.fail_count + 1).toNat = _
    rw [h.count_next]
    omega
  · intro hdown
    exact absurd hdown hreport
  · exact Nat.le_of_lt (UInt64.lt_iff_toNat_lt.1 hlt)

theorem inv_check (h : server.Inv) (htime : cur_time.toNat < 2 ^ 64 - 120000) :
    (server.check cur_time pass).Inv := by
  by_cases hlt : cur_time > server.info.last_check_time
  · by_cases hspan : cur_time - server.info.last_check_time ≥ kHealthCheckTimeSpan
    · cases pass with
      | true =>
        simp only [check, if_pos hlt, if_pos hspan, if_true]
        exact h.passed hlt
      | false =>
        have hmax : (server.info.fail_count + 1).toUInt32 ≥ kMaxFailsCount ↔
            3 ≤ failures server.probes % 3 + 1 := by
          rw [ge_iff_le, UInt32.le_iff_toNat_le, UInt16.toNat_toUInt32, h.count_next]
          rfl
        simp only [check, if_pos hlt, if_pos hspan, Bool.false_eq_true, if_false, hmax]
        by_cases hthree : 3 ≤ failures server.probes % 3 + 1
        · rw [if_pos hthree]
          exact h.marked hlt htime (by omega) _
        · rw [if_neg hthree]
          refine h.failed hlt (by omega) ?_
          rintro ⟨_, _, _, _, hreport⟩
          cases hreport
    · simp only [check, if_pos hlt, if_neg hspan]
      exact h.subtract hlt
  · simp only [check, if_neg hlt]
    exact h

end Server

theorem inv_of_run {as : List Action} {maps : MsgServerMaps} (h : balancer.Run as maps) :
    ∀ item ∈ maps, item.2.Inv := by
  refine h.invariant (I := fun maps => ∀ item ∈ maps, item.2.Inv) ?_ ?_
  · rintro _ rfl item hitem
    cases hitem
  · rintro maps action maps' ih hstep item hitem
    cases action with
    | registration m_handle msg =>
      have hmaps : maps' = handleMsgServInfo m_handle msg maps := hstep
      rw [hmaps, handleMsgServInfo] at hitem
      split at hitem
      · exact ih item hitem
      · rcases List.mem_append.1 hitem with hitem | hitem
        · exact ih item hitem
        · rw [List.mem_singleton.1 hitem]
          exact Server.inv_registered msg
    | tick cur_time sslConnect =>
      obtain ⟨htime, rfl⟩ : _ ∧ maps' = checkTimerCallback cur_time sslConnect maps := hstep
      obtain ⟨before, hbefore, rfl⟩ := List.mem_map.1 hitem
      exact Server.inv_check (ih before hbefore) htime

/-! ### The choice of a server -/

/-- One round of the selection loop: `it_min_conn` and `min_user_cnt`. -/
def selectRound (acc : Option (UInt32 × Server) × UInt32) (it : UInt32 × Server) :
    Option (UInt32 × Server) × UInt32 :=
  let pMsgServInfo := it.2.info
  if pMsgServInfo.cur_conn_cnt < pMsgServInfo.max_conn_cnt ∧ pMsgServInfo.cur_conn_cnt < acc.2 ∧
      pMsgServInfo.is_health then
    (some it, pMsgServInfo.cur_conn_cnt)
  else acc

/-- The selection loop, from the largest `uint32_t` on. -/
def selectServer (maps : MsgServerMaps) : Option (UInt32 × Server) :=
  (maps.foldl selectRound (none, 0xFFFFFFFF)).1

/-- The server is neither full nor marked. -/
def Available (it : UInt32 × Server) : Bool :=
  it.2.info.cur_conn_cnt < it.2.info.max_conn_cnt && it.2.info.is_health

def load (it : UInt32 × Server) : Nat := it.2.info.cur_conn_cnt.toNat

/-- `min_user_cnt` while the loop holds this choice. -/
def minUserCnt : Option (UInt32 × Server) → UInt32
  | none => 0xFFFFFFFF
  | some it => it.2.info.cur_conn_cnt

def keepLess (choice : Option (UInt32 × Server)) (it : UInt32 × Server) : Option (UInt32 × Server) :=
  if Available it then List.argAux (fun b c => load b < load c) choice it else choice

theorem selectRound_eq (choice : Option (UInt32 × Server)) (it : UInt32 × Server) :
    selectRound (choice, minUserCnt choice) it = (keepLess choice it, minUserCnt (keepLess choice it)) := by
  have havailable : Available it = true ↔
      it.2.info.cur_conn_cnt < it.2.info.max_conn_cnt ∧ it.2.info.is_health = true := by
    simp [Available]
  rw [selectRound, keepLess]
  by_cases h : Available it
  · obtain ⟨hroom, hhealth⟩ := havailable.1 h
    simp only [h, hroom, hhealth, if_true, true_and, and_true]
    cases choice with
    | none =>
      -- a server with room has fewer connections than the largest number
      have hlt : it.2.info.cur_conn_cnt < minUserCnt none := by
        rw [UInt32.lt_iff_toNat_lt] at hroom ⊢
        exact Nat.lt_of_lt_of_le hroom (Nat.le_of_lt_succ (UInt32.toNat_lt _))
      rw [if_pos hlt]
      rfl
    | some best =>
      have hload : it.2.info.cur_conn_cnt < minUserCnt (some best) ↔ load it < load best :=
        UInt32.lt_iff_toNat_lt
      by_cases hless : load it < load best
      · rw [if_pos (hload.2 hless)]
        simp [List.argAux, hless, minUserCnt]
      · rw [if_neg (mt hload.1 hless)]
        simp [List.argAux, hless]
  · have hnot : ¬ (it.2.info.cur_conn_cnt < it.2.info.max_conn_cnt ∧
        it.2.info.cur_conn_cnt < minUserCnt choice ∧ it.2.info.is_health = true) := by
      rintro ⟨hroom, -, hhealth⟩
      exact h (havailable.2 ⟨hroom, hhealth⟩)
    rw [if_neg hnot, if_neg h]

/-- The loop picks the first of the available servers with the fewest connections. -/
theorem select_eq_argmin (maps : MsgServerMaps) :
    selectServer maps = (maps.filter Available).argmin load := by
  have hloop : ∀ choice, maps.foldl selectRound (choice, minUserCnt choice) =
      (maps.foldl keepLess choice, minUserCnt (maps.foldl keepLess choice)) := by
    induction maps with
    | nil => intro _; rfl
    | cons it maps ih =>
      intro choice
      rw [List.foldl_cons, selectRound_eq, ih, List.foldl_cons]
  rw [selectServer, List.argmin, List.foldl_filter]
  show (maps.foldl selectRound (none, minUserCnt none)).1 = _
  rw [hloop]
  rfl

/-- A server that a client may be sent to. -/
def Eligible (it : UInt32 × Server) : Prop :=
  failures it.2.probes < 3 ∧ it.2.info.cur_conn_cnt < it.2.info.max_conn_cnt

theorem Server.Inv.available_iff {it : UInt32 × Server} (h : it.2.Inv) :
    Available it = true ↔ Eligible it := by
  have hhealth : it.2.info.is_health = true ↔ failures it.2.probes < 3 := by
    rw [← not_le, ← h.health, Bool.not_eq_false]
  rw [Available, Eligible, Bool.and_eq_true, decide_eq_true_eq, hhealth, and_comm]

/-- The choice of `selectServer` among the servers, in whatever order the dictionary has them. -/
structure Selects (maps : MsgServerMaps) (choice : Option (UInt32 × Server)) : Prop where
  least : ∀ it, choice = some it → it ∈ maps ∧ Eligible it ∧
    ∀ other ∈ maps, Eligible other → it.2.info.cur_conn_cnt ≤ other.2.info.cur_conn_cnt
  found : (∃ it ∈ maps, Eligible it) → choice.isSome

theorem selects_of_inv {maps order : MsgServerMaps} (h : ∀ it ∈ maps, it.2.Inv) (hperm : order.Perm maps) :
    Selects maps (selectServer order) := by
  have hmem : ∀ it, it ∈ order.filter Available ↔ it ∈ maps ∧ Eligible it := by
    intro it
    rw [List.mem_filter, hperm.mem_iff]
    exact and_congr_right fun hit => (h it hit).available_iff
  rw [select_eq_argmin]
  constructor
  · intro it hit
    obtain ⟨hin, heligible⟩ := (hmem it).1 (List.argmin_mem hit)
    refine ⟨hin, heligible, fun other hother hfree => ?_⟩
    have hle : load it ≤ load other := List.le_of_mem_argmin ((hmem other).2 ⟨hother, hfree⟩) hit
    exact UInt32.le_iff_toNat_le.2 hle
  · rintro ⟨it, hit, heligible⟩
    have hin := (hmem it).2 ⟨hit, heligible⟩
    rw [Option.isSome_iff_ne_none, Ne, List.argmin_eq_none]
    intro hnil
    rw [hnil] at hin
    cases hin

/-! ### Every reachable dictionary -/

/-- In every run: a server is marked exactly while at least three probes have failed since the last
one that passed, its counter is their number modulo 3, times are only subtracted from later ones, no
probe comes within 120 s of one that marked the server; and the loop picks an eligible server with
the fewest connections, if there is one. -/
theorem health_of_run {as : List Action} {maps : MsgServerMaps} (h : balancer.Run as maps) :
    (∀ it ∈ maps, (it.2.info.is_health = false ↔ 3 ≤ failures it.2.probes) ∧
      it.2.info.fail_count.toNat = failures it.2.probes % 3 ∧
      (∀ p ∈ it.2.subtractions, p.2 < p.1) ∧
      it.2.probes.Pairwise fun newer older =>
        older.Down → older.time.toNat + 120000 ≤ newer.time.toNat) ∧
      ∀ order : MsgServerMaps, order.Perm maps → Selects maps (selectServer order) := by
  have hinv := inv_of_run h
  refine ⟨fun it hit => ?_, fun order hperm => selects_of_inv hinv hperm⟩
  have hit := hinv it hit
  exact ⟨hit.health, hit.count, hit.ordered, hit.spaced⟩

theorem run_registration {as : List Action} {maps : MsgServerMaps} (h : balancer.Run as maps)
    (m_handle : UInt32) (msg : IMMsgServInfo) :
    balancer.Run (as ++ [.registration m_handle msg]) (handleMsgServInfo m_handle msg maps) :=
  h.snoc (show _ = _ from rfl)

theorem run_tick {as : List Action} {maps : MsgServerMaps} (h : balancer.Run as maps)
    (cur_time : UInt64) (htime : cur_time.toNat < 2 ^ 64 - 120000) (sslConnect : UInt32 → Bool) :
    balancer.Run (as ++ [.tick cur_time sslConnect]) (checkTimerCallback cur_time sslConnect maps) :=
  h.snoc (show _ ∧ _ = _ from ⟨htime, rfl⟩)

/-- A server that never answers. -/
theorem health_of_run_down : ∃ as maps, balancer.Run as maps ∧ as.length = 4 ∧ maps.length = 1 ∧
    ∀ it ∈ maps, it.2.info.is_health = false ↔ 3 ≤ failures it.2.probes := by
  have hrun₁ := run_registration (.nil rfl) 1 ⟨[], [], 8000, 1000, 0⟩
  have hrun₂ := run_tick hrun₁ 5000 (by decide) fun _ => false
  have hrun₃ := run_tick hrun₂ 10000 (by decide) fun _ => false
  have hrun₄ := run_tick hrun₃ 15000 (by decide) fun _ => false
  exact ⟨_, _, hrun₄, rfl, rfl, fun it hit => ((health_of_run hrun₄).1 it hit).1⟩

end CoffeeChat.Balancer
