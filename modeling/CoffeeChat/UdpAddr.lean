import CoffeeChat.InputLoop
import CoffeeChat.UdpV2

/-!
# Typing back what is shown

A peer's address is shown twice: the peer announces its port, and whoever handles a datagram from it
prints its `ip:port`. Both are to be typed in front of a text. The announced number is bound and
accepted below 65535; the printed one is `sin_port` in network byte order, so it names the peer only
if the two bytes of the port are equal; and a line is sent as it was typed only if it has a third word
and `input` holds it (`addressed_iff`).
-/

namespace CoffeeChat
open Cpp

inductive Version where
  | v2
  | v3

def Version.onHandle : Version → Handler
  | .v2 => V2.onHandle
  | .v3 => V3.onHandle

/-- `ntohs(addr.sin_port)`. -/
def SockAddrIn.hostPort (addr : SockAddrIn) : Nat := (htons addr.sin_port.toNat).toNat

/-- The `ip:port` in a line that is printed: what stands between `来自` and the first blank. -/
def Line.shown (line : Line) : Bytes := (line.render.drop (literal "来自").length).takeWhile (· ≠ 32)

/-- The `ip:port` of a line, typed as two tokens. -/
def retype (endPoint : Bytes) : Bytes := endPoint.map fun c => if c = 58 then 32 else c

/-- What `main` has in `input_str` of a line that is typed and entered. -/
def entered (line : Bytes) : Bytes := lineText ((Istream.ofBytes (line ++ [10])).getline sizeofInput 10).1

/-- Lines that get into `input_str` as they were typed. -/
structure Typeable (line : Bytes) : Prop where
  length_le : line.length ≤ 199
  no_nul : 0 ∉ line
  no_newline : 10 ∉ line

/-- The typed line passes the checks of `main`, and the text is sent to the address. -/
def Reaches (line text : Bytes) (dest : SockAddrIn) : Prop := handleLine (entered line) = .ok (.send dest text)

/-- A peer that got `r` from `rand()`, with the address `ip` and the port `ephemeral` in case the
system chooses one, is addressed by what is shown of it, typed in front of the text. -/
structure Addressed (version : Version) (r : Nat) (ephemeral : UInt16) (ip : InAddr) (text : Bytes) : Prop where
  announced : randomPort r = (boundTo (randomPort r) ephemeral ip).hostPort
  typed : Reaches (lineTo (inetNtoa ip) (decimalInt (randomPort r)) text) text (boundTo (randomPort r) ephemeral ip)
  printed : ∀ heap payload effects line, version.onHandle heap (recvBuffer payload) (recvLen payload)
      (boundTo (randomPort r) ephemeral ip) = .ok effects → .print line ∈ effects →
    Reaches (retype line.shown ++ 32 :: text) text (boundTo (randomPort r) ephemeral ip)

/-! ### Lines that are typed -/

section Entered

variable {line : Bytes}

/-- `getline` reads up to the newline and at most 199 bytes. -/
theorem exists_entered (line : Bytes) : ∃ first, first <+: line ∧ 10 ∉ first ∧ (10 ∉ line → first = line) ∧
    entered line = lineText (first.take 199) := by
  have hread : ∀ {first rest : Bytes}, line ++ [10] = first ++ 10 :: rest → 10 ∉ first →
      entered line = lineText (first.take 199) := by
    intro first rest hline hfirst
    have hlines : linesOf 10 (line ++ [10]) = first :: linesOf 10 rest := by
      rw [hline]
      exact linesOf_append hfirst
    rw [entered, (Istream.getline_first (by decide) hlines).1]
    rfl
  by_cases hmem : (10 : UInt8) ∈ line
  · obtain ⟨first, rest, rfl, hfirst⟩ := List.eq_append_cons_of_mem hmem
    refine ⟨first, List.prefix_append .., hfirst, fun h => absurd hmem h, ?_⟩
    exact hread (by rw [List.append_assoc, List.cons_append]) hfirst
  · exact ⟨line, List.prefix_rfl, hmem, fun _ => rfl, hread rfl hmem⟩

theorem entered_isPrefix (line : Bytes) : entered line <+: line := by
  obtain ⟨first, hfirst, -, -, hentered⟩ := exists_entered line
  rw [hentered]
  exact (List.takeWhile_prefix _).trans ((List.take_prefix 199 first).trans hfirst)

/-- Exactly these lines are read as they were typed. -/
theorem entered_eq_self : entered line = line ↔ Typeable line := by
  obtain ⟨first, hfirst, hnewline, hwhole, hentered⟩ := exists_entered line
  constructor
  · intro h
    have hkept : lineText (first.take 199) = line := hentered.symm.trans h
    refine ⟨?_, fun hnul => ?_, fun hmem => ?_⟩
    · rw [← hkept]
      exact (List.takeWhile_prefix _).length_le.trans (List.length_take_le ..)
    · rw [← hkept, lineText] at hnul
      have hne := List.mem_takeWhile_imp hnul
      cases hne
    · rw [← hkept] at hmem
      exact hnewline (List.mem_of_mem_take ((List.takeWhile_prefix _).subset hmem))
  · rintro ⟨hlength, hnul, hmem⟩
    rw [hentered, hwhole hmem, List.take_of_length_le hlength, lineText, List.takeWhile_eq_self_iff]
    rintro c hc
    refine decide_eq_true ?_
    rintro rfl
    exact hnul hc

end Entered

section Words

variable {w s e : Bytes}

/-- The front of a line that begins with a word has at most this word, or all of it and the blank behind it. -/
theorem prefix_word (hw : ∀ c ∈ w, isspace c = false) (h : e <+: w ++ 32 :: s) :
    (wordsOf e).length ≤ 1 ∨ ∃ e', e = w ++ 32 :: e' ∧ e' <+: s := by
  rcases Nat.lt_or_ge w.length e.length with hlt | hle
  · right
    obtain ⟨e', rfl⟩ : w <+: e := List.prefix_of_prefix_length_le (List.prefix_append ..) h hlt.le
    have h : e' <+: 32 :: s := (List.prefix_append_right_inj w).1 h
    cases e' with
    | nil =>
      rw [List.append_nil] at hlt
      exact absurd hlt (Nat.lt_irrefl _)
    | cons c e' =>
      obtain ⟨rfl, htail⟩ := List.cons_prefix_cons.1 h
      exact ⟨e', rfl, htail⟩
  · left
    have hpre : e <+: w := List.prefix_of_prefix_length_le h (List.prefix_append ..) hle
    by_cases hnil : e = []
    · rw [hnil]
      exact Nat.zero_le _
    · have hruns : runs (!isspace ·) e = [e] := by
        have happend := @runs_append _ (!isspace ·) e [] hnil (fun c hc => by rw [hw c (hpre.subset hc)]; rfl) nofun
        rwa [List.append_nil] at happend
      rw [wordsOf_eq_runs, hruns]
      exact Nat.le_refl 1

/-- What is sent has a third word. -/
theorem lt_length_of_send {dest : SockAddrIn} {text : Bytes} (h : handleLine e = .ok (.send dest text)) :
    2 < (wordsOf e).length := by
  rw [handleLine] at h
  split at h
  · cases h
  · split at h
    next hwords =>
      rw [hwords]
      simp
    next => cases h

end Words

theorem shown_eq (line : Line) : line.shown = endPoint line.remote := by
  obtain ⟨tail, htail⟩ : ∃ tail, line.render = literal "来自" ++ (endPoint line.remote ++ 32 :: tail) := by
    cases line <;> exact ⟨_, by simp only [Line.render, Line.remote, List.append_assoc, List.cons_append]; rfl⟩
  have hkeep : ∀ c ∈ endPoint line.remote, (decide (c ≠ 32)) = true := by
    intro c hc
    refine decide_eq_true ?_
    rintro rfl
    rcases List.mem_append.1 hc with hc | hc
    · exact absurd (not_isspace_of_mem_inetNtoa hc) (by decide)
    · rcases List.mem_cons.1 hc with hc | hc
      · exact absurd hc (by decide)
      · exact absurd (not_isspace_of_mem_decimal hc) (by decide)
  rw [Line.shown, htail, List.drop_left, List.takeWhile_append_of_pos hkeep]
  exact List.append_nil _

theorem retype_endPoint (remote : SockAddrIn) (text : Bytes) :
    retype (endPoint remote) ++ 32 :: text =
      lineTo (inetNtoa remote.sin_addr) (decimal remote.sin_port.toNat) text := by
  have hkeep : ∀ s : Bytes, (58 : UInt8) ∉ s → retype s = s := by
    intro s hs
    refine (List.map_congr_left fun c hc => if_neg ?_).trans (List.map_id' s)
    rintro rfl; exact hs hc
  have hip : (58 : UInt8) ∉ inetNtoa remote.sin_addr := fun h => by
    rcases mem_inetNtoa h with h | h <;> exact absurd h (by decide)
  have hport : (58 : UInt8) ∉ decimal remote.sin_port.toNat := fun h =>
    absurd (isdigit_of_mem_decimal h) (by decide)
  have hsplit : retype (endPoint remote) =
      retype (inetNtoa remote.sin_addr) ++ 32 :: retype (decimal remote.sin_port.toNat) := by
    simp [retype, endPoint]
  rw [hsplit, hkeep _ hip, hkeep _ hport, lineTo, List.append_assoc, List.cons_append]

/-- A line with an address in front reaches it, and with the whole text, if the port is accepted and the line
has a third word and is read as it was typed. -/
theorem reaches_lineTo (ip : InAddr) {port : Nat} (hport : port < 2 ^ 31) {text : Bytes} {dest : SockAddrIn} :
    Reaches (lineTo (inetNtoa ip) (decimal port) text) text dest ↔
      (0 < port ∧ port < 65535 ∧ dest = ⟨htons port, ip⟩) ∧ wordsOf text ≠ [] ∧
        Typeable (lineTo (inetNtoa ip) (decimal port) text) := by
  constructor
  · intro h
    have hwords := lt_length_of_send h
    have hfront : entered (lineTo (inetNtoa ip) (decimal port) text) <+:
        inetNtoa ip ++ 32 :: (decimal port ++ 32 :: text) := entered_isPrefix _
    rcases prefix_word (fun _ => not_isspace_of_mem_inetNtoa) hfront with hle | ⟨e₁, heq₁, hpre₁⟩
    · omega
    rw [heq₁, wordsOf_append (inetNtoa_ne_nil ip) (fun _ => not_isspace_of_mem_inetNtoa) rfl, List.length_cons] at hwords
    rcases prefix_word (fun _ => not_isspace_of_mem_decimal) hpre₁ with hle | ⟨e₂, rfl, hpre₂⟩
    · omega
    rw [wordsOf_append (decimal_ne_nil port) (fun _ => not_isspace_of_mem_decimal) rfl, List.length_cons] at hwords
    have htext : wordsOf e₂ ≠ [] := List.ne_nil_of_length_pos (by omega)
    have heq : entered (lineTo (inetNtoa ip) (decimal port) text) = lineTo (inetNtoa ip) (decimal port) e₂ := heq₁
    rw [Reaches, heq, handleLine_lineTo ip hport htext] at h
    split at h
    · cases h
    next haccepted =>
      cases h
      exact ⟨⟨by omega, by omega, rfl⟩, htext, entered_eq_self.1 heq⟩
  · rintro ⟨⟨hpos, hlt, rfl⟩, htext, htypeable⟩
    rw [Reaches, entered_eq_self.2 htypeable, handleLine_lineTo ip hport htext, if_neg (by omega)]

/-! ### What is shown -/

theorem handled_ack (version : Version) (heap : Heap) (remote : SockAddrIn) : ∃ payload,
    version.onHandle heap (recvBuffer payload) (recvLen payload) remote = .ok [.print (.ack remote)] := by
  cases version with
  | v2 => exact ⟨_, @V2.onHandle_ack heap remote⟩
  | v3 => exact ⟨_, V3.onHandle_ack⟩

theorem remote_of_print {version : Version} {heap : Heap} {buffer : Bytes} {len : Int}
    {remote : SockAddrIn} {effects : List Effect}
    (h : version.onHandle heap buffer len remote = .ok effects) {line : Line}
    (hl : .print line ∈ effects) : line.remote = remote := by
  cases version with
  | v2 => exact @V2.onHandle_print heap remote _ _ _ h _ hl
  | v3 => exact V3.onHandleWith_print h hl

theorem htons_eq_self {p : Nat} (h : p < 2 ^ 16) : (htons p).toNat = p ↔ p % 256 = p / 256 := by
  rw [htons_natCast h]
  omega

/-- The printed number is read back as a host's one, so it names the socket if the swap keeps it. -/
theorem reaches_retype {line : Line} {ip : InAddr} {p : Nat} (hline : line.remote = ⟨htons p, ip⟩) (h : p < 2 ^ 16)
    {text : Bytes} : Reaches (retype line.shown ++ 32 :: text) text ⟨htons p, ip⟩ ↔
      (0 < p ∧ p < 65535 ∧ p % 256 = p / 256) ∧ wordsOf text ≠ [] ∧
        Typeable (lineTo (inetNtoa ip) (decimal p) text) := by
  have hlt := (htons p).toNat_lt
  have hself := htons_eq_self h
  have hswap := htons_htons h
  rw [shown_eq, hline, retype_endPoint, reaches_lineTo ip (show (htons p).toNat < _ by omega),
    SockAddrIn.mk.injEq, and_iff_left rfl, ← UInt16.toNat_inj]
  change (0 < (htons p).toNat ∧ (htons p).toNat < 65535 ∧ (htons p).toNat = (htons (htons p).toNat).toNat) ∧
    wordsOf text ≠ [] ∧ Typeable (lineTo (inetNtoa ip) (decimal (htons p).toNat) text) ↔ _
  rw [hswap]
  constructor
  · rintro ⟨⟨hpos, hless, hsame⟩, htext⟩
    rw [hsame] at hpos hless htext
    exact ⟨⟨hpos, hless, hself.1 hsame⟩, htext⟩
  · rintro ⟨⟨hpos, hless, hsame⟩, htext⟩
    rw [hself.2 hsame]
    exact ⟨⟨hpos, hless, rfl⟩, htext⟩

theorem boundTo_of_lt {p : Nat} (h₀ : 3000 ≤ p) (h : p < 2 ^ 16) (ephemeral : UInt16) (ip : InAddr) :
    boundTo p ephemeral ip = ⟨htons p, ip⟩ := by
  have hne : htons p ≠ 0 := by
    intro hzero
    have hswap := htons_natCast h
    rw [hzero] at hswap
    simp only [UInt16.reduceToNat] at hswap
    omega
  rw [boundTo, if_neg hne]

/-- What is shown of a peer addresses it exactly when its port is below 65535 and its two bytes are
equal, the text is not blank, and the line with the text is read as it is typed. -/
theorem addressed_iff (version : Version) (r : Nat) (ephemeral : UInt16) (ip : InAddr) (text : Bytes) :
    Addressed version r ephemeral ip text ↔
      (randomPort r < 65535 ∧ randomPort r % 256 = randomPort r / 256) ∧ wordsOf text ≠ [] ∧
        Typeable (lineTo (inetNtoa ip) (decimalInt (randomPort r)) text) := by
  obtain ⟨p, hp, h₀⟩ : ∃ p : Nat, randomPort r = p ∧ 3000 ≤ p := ⟨r % 65535 + 3000, rfl, by omega⟩
  have hcond : ((p : Int) < 65535 ∧ (p : Int) % 256 = p / 256) ↔ p < 65535 ∧ p % 256 = p / 256 := by omega
  rw [hp, hcond, decimalInt_natCast]
  constructor
  · rintro ⟨hannounced, htyped, hprinted⟩
    rw [hp] at hannounced htyped hprinted
    -- a port that `htons` cuts is not the one announced
    have h₁₆ : p < 2 ^ 16 := by
      have := (htons (boundTo p ephemeral ip).sin_port.toNat).toNat_lt
      rw [SockAddrIn.hostPort] at hannounced
      omega
    rw [boundTo_of_lt h₀ h₁₆] at htyped hprinted
    rw [decimalInt_natCast, reaches_lineTo ip (by omega)] at htyped
    obtain ⟨payload, hack⟩ := handled_ack version .zeroed ⟨htons p, ip⟩
    have hline := hprinted .zeroed payload _ (.ack ⟨htons p, ip⟩) hack (by simp)
    exact ⟨⟨htyped.1.2.1, ((reaches_retype rfl h₁₆).1 hline).1.2.2⟩, htyped.2⟩
  · rintro ⟨⟨hlt, hsame⟩, htext⟩
    have h₁₆ : p < 2 ^ 16 := by omega
    refine ⟨?_, ?_, ?_⟩ <;> rw [hp, boundTo_of_lt h₀ h₁₆]
    · rw [SockAddrIn.hostPort, htons_htons h₁₆]
    · rw [decimalInt_natCast, reaches_lineTo ip (by omega)]
      exact ⟨⟨by omega, hlt, rfl⟩, htext⟩
    · intro heap payload effects line hhandle hl
      rw [reaches_retype (remote_of_print hhandle hl) h₁₆]
      exact ⟨⟨by omega, hlt, hsame⟩, htext⟩

/-- `rand()` returns 21567: a peer on port 24567 is printed with 63327, and a line to that port goes
to 63327. -/
theorem not_addressed_24567 : ¬ Addressed .v3 21567 0 ⟨127, 0, 0, 1⟩ (literal "hi") := by
  intro h
  have hport : boundTo (randomPort 21567) 0 ⟨127, 0, 0, 1⟩ = ⟨htons (24567 : Nat), ⟨127, 0, 0, 1⟩⟩ :=
    boundTo_of_lt (by decide) (by decide) _ _
  obtain ⟨payload, hack⟩ := handled_ack .v3 .zeroed ⟨htons (24567 : Nat), ⟨127, 0, 0, 1⟩⟩
  have hline := h.printed .zeroed payload _ _ (by rw [hport]; exact hack) (List.mem_singleton_self _)
  rw [hport] at hline
  exact absurd ((reaches_retype rfl (by decide)).1 hline).1.2.2 (by decide)

end CoffeeChat
