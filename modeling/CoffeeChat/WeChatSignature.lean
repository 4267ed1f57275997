import CoffeeChat.WeChatApi
import CoffeeChat.Lib.Lts

/-!
# The freshness of the signature

Runs of `WeChatApi::getAnswer` from the initial static members, by the clock and by what the requests
for a signature come to. The record of a call has the signature that its query was made with; it is
fresh if it was delivered by a response that is still valid (`Fresh`).

`getAnswer` sets `signature_time_` also when it got no signature, and then takes the old one for
valid. So the signatures of a run are fresh, and failed requests repeated, exactly where every
request that was made was granted (`fresh_iff_granted`).
-/

namespace CoffeeChat.WeChatApi
open Cpp

/-- A call of `getAnswer`: the clock, and what a request for a signature comes to if one is made. -/
structure Call where
  now : Int
  sign : SignOutcome

structure Record where
  now : Int
  /-- The outcome of the request for a signature, where the call made one. -/
  asked : Option SignOutcome
  /-- The signature `query` was called with. -/
  used : Utf8.Text

/-- The static members after the first part of `getAnswer`; the query does not change them. -/
def Call.after (c : Call) (st : Statics) : Statics := (refresh c.sign.run c.now st).2

def Call.record (c : Call) (st : Statics) : Record :=
  ⟨c.now, if st.asks c.now then some c.sign else none, (c.after st).signature_⟩

structure History where
  statics : Statics
  records : List Record

/-- Calls at positive clock readings that do not decrease. -/
def calls : Lts History Call where
  init s := s = ⟨.initial, []⟩
  step s c s' := 0 < c.now ∧ (∀ r ∈ s.records, r.now ≤ c.now) ∧
    s' = ⟨c.after s.statics, s.records ++ [c.record s.statics]⟩

/-- The signature used in `r` was delivered in one of `rs` and had not expired. -/
def Covered (rs : List Record) (r : Record) : Prop :=
  ∃ d ∈ rs, ∃ expiresIn, d.asked = some (.delivered r.used expiresIn) ∧ r.now - d.now ≤ expiresIn

/-- Every query was made with a signature that this or an earlier call was given and that was still
valid. -/
def Fresh (rs : List Record) : Prop := ∀ pre r, pre ++ [r] <+: rs → Covered (pre ++ [r]) r

def Retries (rs : List Record) : Prop :=
  ∀ pre r r', pre ++ [r, r'] <+: rs → r.asked = some .failed → r'.asked.isSome

/-- Every request for a signature was granted, with a nonnegative `expiresIn`. -/
def Granted (rs : List Record) : Prop :=
  ∀ r ∈ rs, ∀ o, r.asked = some o → ∃ signature expiresIn, o = .delivered signature expiresIn ∧ 0 ≤ expiresIn

/-! ### One call -/

section Call

variable {c : Call} {st : Statics}

theorem after_of_not_asks (h : ¬ st.asks c.now) : c.after st = st := by
  rw [Call.after, refresh, if_neg h]

theorem after_of_failed (h : st.asks c.now) (hc : c.sign = .failed) :
    c.after st = { st with signature_time_ := c.now } := by
  rw [Call.after, refresh, if_pos h, hc]
  rfl

theorem after_of_delivered (h : st.asks c.now) {signature : Utf8.Text} {expiresIn : Int}
    (hc : c.sign = .delivered signature expiresIn) : c.after st = ⟨signature, c.now, expiresIn⟩ := by
  rw [Call.after, refresh, if_pos h, hc]
  rfl

theorem signature_time_after (h : st.asks c.now) : (c.after st).signature_time_ = c.now := by
  cases hc : c.sign with
  | failed => rw [after_of_failed h hc]
  | delivered => rw [after_of_delivered h hc]

theorem record_asked {o : SignOutcome} : (c.record st).asked = some o ↔ st.asks c.now ∧ c.sign = o := by
  by_cases h : st.asks c.now <;> simp [Call.record, h]

/-- `getAnswer` queries with the signature of the call's record and leaves the static members so. -/
theorem getAnswer_eq {parse : Parser} {signRes : Option Response}
    (h : ∀ st, getSignature parse signRes st = c.sign.run st) (queryRes : Option Response)
    (question : Bytes) : getAnswer parse signRes queryRes c.now question st =
      (query parse queryRes (c.record st).used question, c.after st) := by
  have hget : getSignature parse signRes = c.sign.run := funext h
  rw [getAnswer, hget, Call.record, Call.after, refresh]
  by_cases hasks : st.asks c.now
  · rw [if_pos hasks]
    cases c.sign <;> rfl
  · rw [if_neg hasks]

end Call

/-! ### The invariant -/

/-- What is left of the deliveries: all but the one the static members hold had expired when
`signature_time_` was set; and they do hold one where every request was granted. -/
structure Inv (s : History) : Prop where
  now_pos : ∀ d ∈ s.records, 0 < d.now
  time : s.statics.signature_time_ = 0 ∨ ∃ r ∈ s.records, r.now = s.statics.signature_time_
  expired : ∀ d ∈ s.records, ∀ signature expiresIn, d.asked = some (.delivered signature expiresIn) →
    (d.now = s.statics.signature_time_ ∧ expiresIn = s.statics.expires_in_) ∨
      expiresIn < s.statics.signature_time_ - d.now
  held : Granted s.records → s.statics.signature_time_ = 0 ∨ ∃ d ∈ s.records,
    d.asked = some (.delivered s.statics.signature_ s.statics.expires_in_) ∧
      d.now = s.statics.signature_time_

namespace Inv
variable {s : History} {c : Call}

theorem initial : Inv ⟨.initial, []⟩ := ⟨by simp, .inl rfl, by simp, fun _ => .inl rfl⟩

/-- When a call asks, everything delivered before it has expired. -/
theorem expired_of_asks (h : Inv s) (hpos : 0 < c.now) (hclock : ∀ r ∈ s.records, r.now ≤ c.now)
    (hasks : s.statics.asks c.now) {d : Record} (hd : d ∈ s.records) {signature : Utf8.Text}
    {expiresIn : Int} (hdel : d.asked = some (.delivered signature expiresIn)) :
    expiresIn < c.now - d.now := by
  have htime : s.statics.signature_time_ ≤ c.now := by
    rcases h.time with h₀ | ⟨r, hr, heq⟩
    · omega
    · exact heq ▸ hclock r hr
  have hd₀ := h.now_pos d hd
  rcases h.expired d hd signature expiresIn hdel with ⟨hnow, rfl⟩ | hlt
  · rcases hasks with h₀ | hgt <;> omega
  · omega

theorem step (h : Inv s) (hpos : 0 < c.now) (hclock : ∀ r ∈ s.records, r.now ≤ c.now) :
    Inv ⟨c.after s.statics, s.records ++ [c.record s.statics]⟩ where
  now_pos d hd := by
    rcases List.mem_append.1 hd with hd | hd
    · exact h.now_pos d hd
    · cases List.mem_singleton.1 hd; exact hpos
  time := by
    by_cases hasks : s.statics.asks c.now
    · exact .inr ⟨c.record s.statics, by simp, (signature_time_after hasks).symm⟩
    · rw [after_of_not_asks hasks]
      exact h.time.imp_right fun ⟨r, hr, heq⟩ => ⟨r, List.mem_append_left _ hr, heq⟩
  expired d hd signature expiresIn hdel := by
    rcases List.mem_append.1 hd with hd | hd
    · by_cases hasks : s.statics.asks c.now
      · have hexpired := h.expired_of_asks hpos hclock hasks hd hdel
        exact .inr (by rw [signature_time_after hasks]; exact hexpired)
      · rw [after_of_not_asks hasks]
        exact h.expired d hd signature expiresIn hdel
    · cases List.mem_singleton.1 hd
      obtain ⟨hasks, hc⟩ := record_asked.1 hdel
      rw [after_of_delivered hasks hc]
      exact .inl ⟨rfl, rfl⟩
  held hg := by
    have hlast : c.record s.statics ∈ s.records ++ [c.record s.statics] := by simp
    by_cases hasks : s.statics.asks c.now
    · obtain ⟨signature, expiresIn, hc, -⟩ := hg _ hlast _ (record_asked.2 ⟨hasks, rfl⟩)
      rw [after_of_delivered hasks hc]
      exact .inr ⟨_, hlast, record_asked.2 ⟨hasks, hc⟩, rfl⟩
    · have hgranted : Granted s.records := fun r hr => hg r (List.mem_append_left _ hr)
      rw [after_of_not_asks hasks]
      exact (h.held hgranted).imp_right fun ⟨d, hd, heq⟩ => ⟨d, List.mem_append_left _ hd, heq⟩

theorem covered (h : Inv s) (hg : Granted (s.records ++ [c.record s.statics])) :
    Covered (s.records ++ [c.record s.statics]) (c.record s.statics) := by
  have hlast : c.record s.statics ∈ s.records ++ [c.record s.statics] := by simp
  by_cases hasks : s.statics.asks c.now
  · obtain ⟨signature, expiresIn, hc, hnonneg⟩ := hg _ hlast _ (record_asked.2 ⟨hasks, rfl⟩)
    refine ⟨_, hlast, expiresIn, ?_, by simpa using hnonneg⟩
    rw [record_asked, Call.record, after_of_delivered hasks hc]
    exact ⟨hasks, hc⟩
  · have hnot := hasks
    simp only [Statics.asks, not_or] at hnot
    obtain ⟨d, hd, hdel, hnow⟩ := (h.held fun r hr => hg r (List.mem_append_left _ hr)).resolve_left hnot.1
    refine ⟨d, List.mem_append_left _ hd, s.statics.expires_in_, ?_, ?_⟩
    · rw [Call.record, after_of_not_asks hasks]; exact hdel
    · rw [hnow]; exact Int.not_lt.1 hnot.2

theorem granted_of_covered (h : Inv s) (hpos : 0 < c.now) (hclock : ∀ r ∈ s.records, r.now ≤ c.now)
    (hcov : Covered (s.records ++ [c.record s.statics]) (c.record s.statics))
    (hasks : s.statics.asks c.now) :
    ∃ signature expiresIn, c.sign = .delivered signature expiresIn ∧ 0 ≤ expiresIn := by
  obtain ⟨d, hd, expiresIn, hdel, hle⟩ := hcov
  rcases List.mem_append.1 hd with hd | hd
  · exact absurd (h.expired_of_asks hpos hclock hasks hd hdel) (Int.not_lt.2 hle)
  · cases List.mem_singleton.1 hd
    exact ⟨_, expiresIn, (record_asked.1 hdel).2, by simpa using hle⟩

end Inv

theorem inv_of_run {cs : List Call} {s : History} (h : calls.Run cs s) : Inv s := by
  refine h.invariant ?_ ?_
  · rintro _ rfl; exact .initial
  · rintro s c _ hs ⟨hpos, hclock, rfl⟩; exact hs.step hpos hclock

/-! ### Whole runs -/

theorem fresh_snoc {rs : List Record} {r : Record} :
    Fresh (rs ++ [r]) ↔ Fresh rs ∧ Covered (rs ++ [r]) r := by
  constructor
  · exact fun h => ⟨fun pre x hx => h pre x (hx.trans (List.prefix_append _ _)), h rs r List.prefix_rfl⟩
  · rintro ⟨hrs, hr⟩ pre x hx
    rcases List.prefix_concat_iff.1 hx with heq | hx
    · obtain ⟨rfl, rfl⟩ := List.append_inj' heq rfl |>.imp id List.singleton_inj.1
      exact hr
    · exact hrs pre x hx

theorem granted_snoc {rs : List Record} {r : Record} : Granted (rs ++ [r]) ↔ Granted rs ∧
    ∀ o, r.asked = some o → ∃ signature expiresIn, o = .delivered signature expiresIn ∧ 0 ≤ expiresIn := by
  simp only [Granted, List.forall_mem_append, List.forall_mem_singleton]

theorem fresh_of_run {cs : List Call} {s : History} (h : calls.Run cs s) :
    Fresh s.records ↔ Granted s.records := by
  induction h with
  | nil h => cases h; simp [Fresh, Granted]
  | snoc hrun hstep ih =>
    have hinv := inv_of_run hrun
    obtain ⟨hpos, hclock, rfl⟩ := hstep
    refine ⟨fun hfresh => ?_, fun hg => ?_⟩
    · obtain ⟨hfresh, hcov⟩ := fresh_snoc.1 hfresh
      refine granted_snoc.2 ⟨ih.1 hfresh, fun o ho => ?_⟩
      obtain ⟨hasks, rfl⟩ := record_asked.1 ho
      exact hinv.granted_of_covered hpos hclock hcov hasks
    · exact fresh_snoc.2 ⟨ih.2 (granted_snoc.1 hg).1, hinv.covered hg⟩

theorem retries_of_granted {rs : List Record} (h : Granted rs) : Retries rs := by
  intro pre r r' hpre hfailed
  obtain ⟨_, _, ho, -⟩ := h r (hpre.mem (by simp)) _ hfailed
  cases ho

/-- In every run the signatures are fresh and failed requests are repeated exactly where every request
that was made was granted. -/
theorem fresh_iff_granted {cs : List Call} {s : History} (h : calls.Run cs s) :
    (Fresh s.records ∧ Retries s.records) ↔ Granted s.records :=
  ⟨fun hf => (fresh_of_run h).1 hf.1, fun hg => ⟨(fresh_of_run h).2 hg, retries_of_granted hg⟩⟩

theorem run_snoc {cs : List Call} {s : History} {c : Call} (h : calls.Run cs s) (hpos : 0 < c.now)
    (hclock : ∀ r ∈ s.records, r.now ≤ c.now) :
    calls.Run (cs ++ [c]) ⟨c.after s.statics, s.records ++ [c.record s.statics]⟩ :=
  h.snoc ⟨hpos, hclock, rfl⟩

theorem fresh_iff_granted_hour : ∃ s, calls.Run
    [⟨1, .delivered ⟨literal "t", Utf8.valid_literal _⟩ 7200⟩, ⟨3601, .failed⟩] s ∧
      Fresh s.records ∧ Retries s.records := by
  have hrun := run_snoc (c := ⟨3601, .failed⟩) (run_snoc
    (c := ⟨1, .delivered ⟨literal "t", Utf8.valid_literal _⟩ 7200⟩)
    (.nil rfl) (by decide) (by simp)) (by decide) (by simp [Call.record])
  refine ⟨_, hrun, (fresh_iff_granted hrun).2 fun r hr o ho => ?_⟩
  rcases List.mem_append.1 hr with hr | hr <;> cases List.mem_singleton.1 hr
  · exact ⟨_, 7200, ((record_asked.1 ho).2).symm, by decide⟩
  · exact absurd (record_asked.1 ho).1 (by decide)

/-- The first request of a run that fails: the query is made with the empty signature. -/
theorem not_fresh_failed : ¬ ∀ (cs : List Call) (s : History), calls.Run cs s →
    Fresh s.records ∧ Retries s.records := by
  intro h
  have hrun := run_snoc (c := ⟨1, .failed⟩) (.nil rfl) (by decide) (by simp)
  obtain ⟨d, hd, expiresIn, hdel, -⟩ := (h _ _ hrun).1 [] _ List.prefix_rfl
  cases List.mem_singleton.1 hd
  cases (record_asked.1 hdel).2

end CoffeeChat.WeChatApi
