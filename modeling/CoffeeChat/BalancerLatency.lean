import CoffeeChat.Balancer
import Mathlib.Data.List.Nodup

/-!
# How soon the balancer notices

The balancer with its clock: how long a gateway that does not answer any more may still be chosen for a
client (`detects_within`), and how long one that answers again is left out (`recovers_within`).
-/

namespace CoffeeChat.Balancer

/-- The balancer with the time of the last tick, which does not go back. -/
def clocked : Lts (Nat × MsgServerMaps) Action where
  init s := s = (0, [])
  step s action s' := balancer.step s.2 action s'.2 ∧
    match action with
    | .registration _ _ => s'.1 = s.1
    | .tick cur_time _ => s.1 ≤ cur_time.toNat ∧ s'.1 = cur_time.toNat

/-- Ticks that find the gateway not answering, no more than `gap` apart. -/
def Fails (key : UInt32) (gap : Nat) (s : Nat × MsgServerMaps) : Action → Prop
  | .registration _ _ => True
  | .tick cur_time sslConnect => sslConnect key = false ∧ cur_time.toNat ≤ s.1 + gap

/-- Ticks that find it answering. -/
def Passes (key : UInt32) (_ : Nat × MsgServerMaps) : Action → Prop
  | .registration _ _ => True
  | .tick _ sslConnect => sslConnect key = true

/-! ### One gateway -/

namespace Server

variable {server : Server} {cur_time : UInt64} {pass : Bool} {now start gap : Nat}

def Due (server : Server) (cur_time : UInt64) : Prop :=
  server.info.last_check_time.toNat + 5000 ≤ cur_time.toNat

theorem due_iff : Due server cur_time ↔ cur_time > server.info.last_check_time ∧
    cur_time - server.info.last_check_time ≥ kHealthCheckTimeSpan := by
  rw [Due, gt_iff_lt, ge_iff_le, UInt64.lt_iff_toNat_lt, UInt64.le_iff_toNat_le]
  have hspan : kHealthCheckTimeSpan.toNat = 5000 := rfl
  constructor
  · intro h
    rw [UInt64.toNat_sub_of_le _ _ (by rw [UInt64.le_iff_toNat_le]; omega), hspan]
    omega
  · rintro ⟨hlt, h⟩
    rw [UInt64.toNat_sub_of_le _ _ (by rw [UInt64.le_iff_toNat_le]; omega), hspan] at h
    omega

/-- What a tick may do. -/
theorem check_cases (server : Server) (cur_time : UInt64) (pass : Bool) :
    (¬ Due server cur_time ∧ (server.check cur_time pass).info = server.info) ∨
    Due server cur_time ∧
      (pass = true ∧ (server.check cur_time pass).info =
        { server.info with is_health := true, last_check_time := cur_time, fail_count := 0 } ∨
      pass = false ∧ ((server.check cur_time pass).info =
          { server.info with
            is_health := false, last_check_time := cur_time + kNextHealthCheckTimeSpan, fail_count := 0 } ∨
        (server.check cur_time pass).info =
          { server.info with last_check_time := cur_time, fail_count := server.info.fail_count + 1 })) := by
  rw [due_iff]
  by_cases hlt : cur_time > server.info.last_check_time
  · by_cases hspan : cur_time - server.info.last_check_time ≥ kHealthCheckTimeSpan
    · refine .inr ⟨⟨hlt, hspan⟩, ?_⟩
      cases pass with
      | true => exact .inl ⟨rfl, by simp only [check, if_pos hlt, if_pos hspan, if_true]⟩
      | false =>
        refine .inr ⟨rfl, ?_⟩
        simp only [check, if_pos hlt, if_pos hspan, Bool.false_eq_true, if_false]
        split
        · exact .inl rfl
        · exact .inr rfl
    · exact .inl ⟨fun h => hspan h.2, by simp only [check, if_pos hlt, if_neg hspan]⟩
  · exact .inl ⟨fun h => hlt h.1, by simp only [check, if_neg hlt]⟩

/-- A gateway is checked next when its time has come, or two minutes after it has been marked. -/
def Timely (now : Nat) (server : Server) : Prop :=
  server.info.last_check_time.toNat ≤ now ∨
    server.info.is_health = false ∧ server.info.last_check_time.toNat ≤ now + 120000

theorem toNat_next (h : cur_time.toNat < 2 ^ 64 - 120000) :
    (cur_time + kNextHealthCheckTimeSpan).toNat = cur_time.toNat + 120000 := by
  rw [UInt64.toNat_add, kNextHealthCheckTimeSpan]
  simp only [UInt64.reduceMul, UInt64.reduceToNat]
  omega

theorem Timely.check (h : Timely now server) (hnow : now ≤ cur_time.toNat)
    (htime : cur_time.toNat < 2 ^ 64 - 120000) : Timely cur_time.toNat (server.check cur_time pass) := by
  rw [Timely]
  rcases check_cases server cur_time pass with ⟨-, heq⟩ | ⟨-, ⟨-, heq⟩ | ⟨-, heq | heq⟩⟩ <;> rw [heq]
  · exact h.imp (·.trans hnow) fun h => ⟨h.1, h.2.trans (Nat.add_le_add_right hnow _)⟩
  · exact .inl (Nat.le_refl _)
  · exact .inr ⟨rfl, (toNat_next htime).le⟩
  · exact .inl (Nat.le_refl _)

/-- A gateway that does not answer is marked, or has failed its probes about every five seconds. -/
def Failing (start gap now : Nat) (server : Server) : Prop :=
  server.info.is_health = false ∨
    server.info.last_check_time.toNat ≤ now ∧
      server.info.last_check_time.toNat ≤ start + server.info.fail_count.toNat * (5000 + gap) ∧
      (now < server.info.last_check_time.toNat + 5000 ∨ now = start)

theorem failing_start (h : Timely start server) : Failing start gap start server := by
  rcases h with h | h
  · exact .inr ⟨h, by omega, .inr rfl⟩
  · exact .inl h.1

theorem Failing.check (h : Failing start gap now server) (hinv : server.Inv) (hnow : now ≤ cur_time.toNat)
    (hgap : cur_time.toNat ≤ now + gap) : Failing start gap cur_time.toNat (server.check cur_time false) := by
  rw [Failing]
  rcases check_cases server cur_time false with ⟨hdue, heq⟩ | ⟨hdue, ⟨hpass, -⟩ | ⟨-, heq | heq⟩⟩
  · rw [heq]
    rw [Due] at hdue
    exact h.imp id fun h => ⟨h.1.trans hnow, h.2.1, .inl (by omega)⟩
  · cases hpass
  · rw [heq]
    exact .inl rfl
  · rw [heq]
    rcases h with h | ⟨-, hlast, hclose⟩
    · exact .inl h
    · have hcount : (server.info.fail_count + 1).toNat = server.info.fail_count.toNat + 1 := by
        rw [hinv.count_next, hinv.count]
      refine .inr ⟨Nat.le_refl _, ?_, .inl (by dsimp only; omega)⟩
      dsimp only
      rw [hcount, Nat.add_mul, Nat.one_mul]
      omega

theorem Failing.marked (h : Failing start gap now server) (hinv : server.Inv)
    (htime : start + 15000 + 2 * gap ≤ now) : server.info.is_health = false := by
  rcases h with h | ⟨-, hlast, hclose⟩
  · exact h
  · have hcount : server.info.fail_count.toNat ≤ 2 := by
      rw [hinv.count]
      omega
    have hmul := Nat.mul_le_mul_right (5000 + gap) hcount
    omega

/-- A gateway that answers is healthy, or its time has not come. -/
def Passing (start now : Nat) (server : Server) : Prop :=
  server.info.is_health = true ∨
    server.info.last_check_time.toNat ≤ start + 120000 ∧ now < start + 125000

theorem passing_start (h : Timely start server) : Passing start start server := by
  rcases h with h | h
  · exact .inr ⟨by omega, by omega⟩
  · exact .inr ⟨h.2, by omega⟩

theorem Passing.check (h : Passing start now server) :
    Passing start cur_time.toNat (server.check cur_time true) := by
  rw [Passing]
  rcases check_cases server cur_time true with ⟨hdue, heq⟩ | ⟨hdue, ⟨-, heq⟩ | ⟨hpass, -⟩⟩
  · rw [heq]
    rw [Due] at hdue
    exact h.imp id fun h => ⟨h.1, by omega⟩
  · rw [heq]
    exact .inl rfl
  · cases hpass

end Server

/-! ### Runs -/

variable {as as' : List Action} {s s' : Nat × MsgServerMaps} {key : UInt32} {server : Server}

theorem balancer_of_clocked (h : clocked.Run as s) : balancer.Run as s.2 := by
  induction h with
  | nil h => exact .nil (congrArg Prod.snd h)
  | snoc _ hs ih => exact ih.snoc hs.1

/-- What a step does to an entry. -/
theorem entry_step {action : Action} (hstep : clocked.step s action s') (hmem : (key, server) ∈ s.2) :
    (∃ m_handle msg, action = .registration m_handle msg ∧ s'.1 = s.1 ∧ (key, server) ∈ s'.2) ∨
    ∃ cur_time sslConnect, action = .tick cur_time sslConnect ∧ s.1 ≤ cur_time.toNat ∧
      cur_time.toNat < 2 ^ 64 - 120000 ∧ s'.1 = cur_time.toNat ∧
      (key, server.check cur_time (sslConnect key)) ∈ s'.2 := by
  cases action with
  | registration m_handle msg =>
    obtain ⟨hmaps, hclock⟩ : s'.2 = handleMsgServInfo m_handle msg s.2 ∧ s'.1 = s.1 := hstep
    refine .inl ⟨m_handle, msg, rfl, hclock, ?_⟩
    rw [hmaps, handleMsgServInfo]
    split
    · exact hmem
    · exact List.mem_append_left _ hmem
  | tick cur_time sslConnect =>
    obtain ⟨⟨htime, hmaps⟩, hnow, hclock⟩ : (cur_time.toNat < 2 ^ 64 - 120000 ∧
      s'.2 = checkTimerCallback cur_time sslConnect s.2) ∧ s.1 ≤ cur_time.toNat ∧ s'.1 = cur_time.toNat := hstep
    refine .inr ⟨cur_time, sslConnect, rfl, hnow, htime, hclock, ?_⟩
    rw [hmaps]
    exact List.mem_map.2 ⟨_, hmem, rfl⟩

/-- A property of an entry that the ticks of a path keep. -/
theorem entry_of_path {P : Nat × MsgServerMaps → Action → Prop} {J : Nat → Server → Prop} (hrun : clocked.Run as s)
    (hpath : (clocked.restrict P).Path s as' s') (hmem : (key, server) ∈ s.2) (hstart : J s.1 server)
    (hstep : ∀ s cur_time sslConnect server, P s (.tick cur_time sslConnect) → server.Inv → s.1 ≤ cur_time.toNat →
      J s.1 server → J cur_time.toNat (server.check cur_time (sslConnect key))) :
    ∃ server', (key, server') ∈ s'.2 ∧ server'.Inv ∧ J s'.1 server' := by
  induction hpath with
  | nil => exact ⟨server, hmem, inv_of_run (balancer_of_clocked hrun) _ hmem, hstart⟩
  | @snoc as' s' action s'' hpath hs ih =>
    obtain ⟨server', hmem', hinv', hJ⟩ := ih
    have hrun'' := (hrun.append hpath.of_restrict).snoc hs.1
    rcases entry_step hs.1 hmem' with ⟨_, _, rfl, hclock, hmem''⟩ | ⟨cur_time, sslConnect, rfl, hnow, -, hclock, hmem''⟩
    · exact ⟨server', hmem'', hinv', by rwa [hclock]⟩
    · refine ⟨_, hmem'', inv_of_run (balancer_of_clocked hrun'') _ hmem'', ?_⟩
      rw [hclock]
      exact hstep s' cur_time sslConnect server' hs.2 hinv' hnow hJ

theorem timely_of_run (h : clocked.Run as s) : ∀ item ∈ s.2, item.2.Timely s.1 := by
  induction h with
  | nil h =>
    rw [show _ = _ from h]
    exact nofun
  | @snoc as s action s' hrun hs ih =>
    intro item hitem
    cases action with
    | registration m_handle msg =>
      obtain ⟨hmaps, hclock⟩ : s'.2 = handleMsgServInfo m_handle msg s.2 ∧ s'.1 = s.1 := hs
      rw [hmaps, handleMsgServInfo] at hitem
      rw [hclock]
      split at hitem
      · exact ih item hitem
      · rcases List.mem_append.1 hitem with hitem | hitem
        · exact ih item hitem
        · rw [List.mem_singleton.1 hitem]
          exact .inl (Nat.zero_le _)
    | tick cur_time sslConnect =>
      obtain ⟨⟨htime, hmaps⟩, hnow, hclock⟩ : (cur_time.toNat < 2 ^ 64 - 120000 ∧
        s'.2 = checkTimerCallback cur_time sslConnect s.2) ∧ s.1 ≤ cur_time.toNat ∧ s'.1 = cur_time.toNat := hs
      rw [hmaps] at hitem
      obtain ⟨before, hbefore, rfl⟩ := List.mem_map.1 hitem
      rw [hclock]
      exact (ih before hbefore).check hnow htime

theorem keys_nodup {maps : MsgServerMaps} (h : balancer.Run as maps) : (maps.map Prod.fst).Nodup := by
  refine h.invariant (I := fun maps => (maps.map Prod.fst).Nodup) ?_ ?_
  · rintro _ rfl
    exact List.nodup_nil
  · rintro maps action maps' ih hstep
    cases action with
    | registration m_handle msg =>
      have hmaps : maps' = handleMsgServInfo m_handle msg maps := hstep
      rw [hmaps, handleMsgServInfo]
      split
      · exact ih
      next hnew =>
        rw [List.map_append, List.nodup_append]
        refine ⟨ih, List.nodup_singleton _, fun a ha b hb => ?_⟩
        rw [List.mem_singleton.1 hb]
        rintro rfl
        exact hnew ha
    | tick cur_time sslConnect =>
      obtain ⟨-, rfl⟩ : _ ∧ maps' = checkTimerCallback cur_time sslConnect maps := hstep
      rw [checkTimerCallback, List.map_map]
      exact ih

theorem not_selected {maps order : MsgServerMaps} (hnodup : (maps.map Prod.fst).Nodup) (hperm : order.Perm maps)
    (hmem : (key, server) ∈ maps) (hdown : server.info.is_health = false) :
    ∀ it, selectServer order = some it → it.1 ≠ key := by
  rintro it hit rfl
  rw [select_eq_argmin] at hit
  obtain ⟨hin, havailable⟩ := List.mem_filter.1 (List.argmin_mem hit)
  have heq : it = (it.1, server) := List.inj_on_of_nodup_map hnodup (hperm.mem_iff.1 hin) hmem rfl
  rw [heq, Available, hdown, Bool.and_false] at havailable
  cases havailable

/-- A gateway that has not answered for fifteen seconds and two ticks is marked, and not chosen. -/
theorem detects_within {gap : Nat} (hrun : clocked.Run as s) (hmem : (key, server) ∈ s.2)
    (hpath : (clocked.restrict (Fails key gap)).Path s as' s') (htime : s.1 + 15000 + 2 * gap ≤ s'.1) :
    (∃ server', (key, server') ∈ s'.2 ∧ server'.info.is_health = false) ∧
      ∀ order : MsgServerMaps, order.Perm s'.2 → ∀ it, selectServer order = some it → it.1 ≠ key := by
  obtain ⟨server', hmem', hinv, hfailing⟩ := entry_of_path hrun hpath hmem
    (Server.failing_start (timely_of_run hrun _ hmem)) fun s cur_time sslConnect server hP hinv hnow hJ => by
      obtain ⟨hfail, hgap⟩ : sslConnect key = false ∧ cur_time.toNat ≤ s.1 + gap := hP
      rw [hfail]
      exact hJ.check hinv hnow hgap
  have hdown := hfailing.marked hinv htime
  have hnodup := keys_nodup (balancer_of_clocked (hrun.append hpath.of_restrict))
  exact ⟨⟨server', hmem', hdown⟩, fun order hperm => not_selected hnodup hperm hmem' hdown⟩

/-- A gateway that has answered for 125 seconds is not marked. -/
theorem recovers_within (hrun : clocked.Run as s) (hmem : (key, server) ∈ s.2)
    (hpath : (clocked.restrict (Passes key)).Path s as' s') (htime : s.1 + 125000 ≤ s'.1) :
    ∃ server', (key, server') ∈ s'.2 ∧ server'.info.is_health = true := by
  obtain ⟨server', hmem', -, hpassing⟩ := entry_of_path hrun hpath hmem
    (Server.passing_start (timely_of_run hrun _ hmem)) fun s cur_time sslConnect server hP _ _ hJ => by
      rw [show sslConnect key = true from hP]
      exact hJ.check
  exact ⟨server', hmem', hpassing.resolve_right fun h => by omega⟩

theorem path_tick {P : Nat × MsgServerMaps → Action → Prop} (hpath : (clocked.restrict P).Path s as' s')
    (cur_time : UInt64) (sslConnect : UInt32 → Bool) (htime : cur_time.toNat < 2 ^ 64 - 120000)
    (hnow : s'.1 ≤ cur_time.toNat) (hP : P s' (.tick cur_time sslConnect)) :
    (clocked.restrict P).Path s (as' ++ [.tick cur_time sslConnect])
      (cur_time.toNat, checkTimerCallback cur_time sslConnect s'.2) :=
  hpath.snoc ⟨⟨⟨htime, rfl⟩, hnow, rfl⟩, hP⟩

theorem run_registered (m_handle : UInt32) (msg : IMMsgServInfo) :
    clocked.Run [.registration m_handle msg] (0, handleMsgServInfo m_handle msg []) := by
  have hstart : clocked.Run [] (0, []) := .nil rfl
  exact hstart.snoc ⟨show _ = _ from rfl, rfl⟩

theorem detects_within_down : ∃ as' s', (clocked.restrict (Fails 1 5000)).Path
    (0, handleMsgServInfo 1 ⟨[], [], 8000, 1000, 0⟩ []) as' s' ∧ as'.length = 5 ∧
      ∀ it, selectServer s'.2 = some it → it.1 ≠ 1 := by
  have hstart : (clocked.restrict (Fails 1 5000)).Path
    (0, handleMsgServInfo 1 ⟨[], [], 8000, 1000, 0⟩ []) [] _ := .nil
  have hpath₁ := path_tick hstart 5000 (fun _ => false) (by decide) (Nat.zero_le _) ⟨rfl, by decide⟩
  have hpath₂ := path_tick hpath₁ 10000 (fun _ => false) (by decide) (by decide) ⟨rfl, by decide⟩
  have hpath₃ := path_tick hpath₂ 15000 (fun _ => false) (by decide) (by decide) ⟨rfl, by decide⟩
  have hpath₄ := path_tick hpath₃ 20000 (fun _ => false) (by decide) (by decide) ⟨rfl, by decide⟩
  have hpath₅ := path_tick hpath₄ 25000 (fun _ => false) (by decide) (by decide) ⟨rfl, by decide⟩
  exact ⟨_, _, hpath₅, rfl,
    (detects_within (run_registered 1 ⟨[], [], 8000, 1000, 0⟩) (List.mem_singleton_self _) hpath₅ (by decide)).2 _ (.refl _)⟩

theorem recovers_within_up : ∃ as' s', (clocked.restrict (Passes 1)).Path
    (0, handleMsgServInfo 1 ⟨[], [], 8000, 1000, 0⟩ []) as' s' ∧
      ∃ server', (1, server') ∈ s'.2 ∧ server'.info.is_health = true := by
  have hstart : (clocked.restrict (Passes 1)).Path (0, handleMsgServInfo 1 ⟨[], [], 8000, 1000, 0⟩ []) [] _ := .nil
  have hpath := path_tick hstart 125000 (fun _ => true) (by decide) (Nat.zero_le _) rfl
  exact ⟨_, _, hpath,
    recovers_within (run_registered 1 ⟨[], [], 8000, 1000, 0⟩) (List.mem_singleton_self _) hpath (by decide)⟩

end CoffeeChat.Balancer
