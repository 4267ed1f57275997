import CoffeeChat.UdpChat
import CoffeeChat.UdpV2
import CoffeeChat.UdpV3

/-!
# From a line of input to the packet, in v2 and v3

The tokens of a line come from a tokenizer that skips whitespace, while the text that is sent starts
at an offset computed from the lengths of the first two tokens. The offset lies behind the second
token exactly if at most two whitespace bytes stand before that token (`sendsContent_iff`). It always
lies inside of the line, which bounds the text and the packets of both versions (`send_bounds`).
-/

namespace CoffeeChat
open Cpp

/-- What the checks of `main` ask for: three tokens, the second one a port in range. -/
def Accepted (line ip port : Bytes) : Prop :=
  (∃ third ws, wordsOf line = ip :: port :: third :: ws) ∧ 0 < atoi port ∧ atoi port < kUint16Max

/-- What stands behind the first token. -/
def afterWord (s : Bytes) : Bytes := (s.dropWhile isspace).dropWhile (!isspace ·)

/-- The text that is sent starts at or behind the end of the second token and at or before the start
of the third one. -/
def SendsContent (line : Bytes) : Prop :=
  ∃ dest text, handleLine line = .ok (.send dest text) ∧ text <:+ afterWord (afterWord line) ∧
    (afterWord (afterWord line)).dropWhile isspace <:+ text

/-- The whitespace before the first and between the first and the second token. -/
def blanksBeforePort (line : Bytes) : Nat :=
  (line.takeWhile isspace).length + ((afterWord line).takeWhile isspace).length

section Line

variable {line ip port : Bytes}

theorem afterWord_of_cut {s lead w rest : Bytes} (h : Cut (!isspace ·) s lead w rest) :
    afterWord s = rest ∧ s.takeWhile isspace = lead ∧ s.dropWhile isspace = w ++ rest := by
  have hdrop : s.dropWhile isspace = w ++ rest := by simpa using h.dropWhile_eq
  refine ⟨by rw [afterWord, hdrop, h.stops.dropWhile_eq h.run], ?_, hdrop⟩
  have hstop : StopsAt isspace (w ++ rest) := by simpa using h.stopsAt_run
  rw [h.eq]
  exact hstop.takeWhile_eq (by simpa using h.lead_blank)

theorem afterWord_suffix (s : Bytes) : afterWord s <:+ s :=
  (List.dropWhile_suffix _).trans (List.dropWhile_suffix _)

theorem Accepted.cuts (h : Accepted line ip port) : ∃ lead rest₁ gap rest₂ sep third rest₃,
    Cut (!isspace ·) line lead ip rest₁ ∧ Cut (!isspace ·) rest₁ gap port rest₂ ∧
      Cut (!isspace ·) rest₂ sep third rest₃ := by
  obtain ⟨⟨third, ws, hwords⟩, -⟩ := h
  rw [wordsOf_eq_runs] at hwords
  obtain ⟨lead, rest₁, hip, hwords⟩ := runs_eq_cons.1 hwords
  obtain ⟨gap, rest₂, hport, hwords⟩ := runs_eq_cons.1 hwords
  obtain ⟨sep, rest₃, hthird, -⟩ := runs_eq_cons.1 hwords
  exact ⟨lead, rest₁, gap, rest₂, sep, third, rest₃, hip, hport, hthird⟩

theorem Accepted.tokens_pos (h : Accepted line ip port) : 0 < ip.length ∧ 0 < port.length := by
  obtain ⟨lead, rest₁, gap, rest₂, sep, third, rest₃, hip, hport, -⟩ := h.cuts
  exact ⟨List.length_pos_iff.2 hip.ne_nil, List.length_pos_iff.2 hport.ne_nil⟩

theorem Accepted.length_eq (h : Accepted line ip port) : line.length =
    blanksBeforePort line + ip.length + port.length + (afterWord (afterWord line)).length := by
  obtain ⟨lead, rest₁, gap, rest₂, sep, third, rest₃, hip, hport, -⟩ := h.cuts
  obtain ⟨hafter, hlead, -⟩ := afterWord_of_cut hip
  obtain ⟨hafter', hgap, -⟩ := afterWord_of_cut hport
  have hline : line = lead ++ (ip ++ (gap ++ (port ++ rest₂))) := by rw [hip.eq, hport.eq]
  rw [blanksBeforePort, hafter, hafter', hlead, hgap, hline]
  simp only [List.length_append]
  omega

theorem Accepted.gap_pos (h : Accepted line ip port) :
    0 < ((afterWord line).takeWhile isspace).length := by
  obtain ⟨lead, rest₁, gap, rest₂, sep, third, rest₃, hip, hport, -⟩ := h.cuts
  rw [(afterWord_of_cut hip).1, (afterWord_of_cut hport).2.1]
  exact List.length_pos_iff.2 (hip.gap_ne_nil hport)

/-- A content is left, and whitespace before it. -/
theorem Accepted.content_length (h : Accepted line ip port) :
    0 < ((afterWord (afterWord line)).dropWhile isspace).length ∧
      ((afterWord (afterWord line)).dropWhile isspace).length < (afterWord (afterWord line)).length := by
  obtain ⟨lead, rest₁, gap, rest₂, sep, third, rest₃, hip, hport, hthird⟩ := h.cuts
  have hsep := List.length_pos_iff.2 (hport.gap_ne_nil hthird)
  have hw := List.length_pos_iff.2 hthird.ne_nil
  rw [(afterWord_of_cut hip).1, (afterWord_of_cut hport).1, (afterWord_of_cut hthird).2.2]
  constructor
  · rw [List.length_append]
    omega
  · rw [hthird.eq]
    simp only [List.length_append]
    omega

theorem Accepted.offset_lt (h : Accepted line ip port) : ip.length + port.length + 2 < line.length := by
  have hlen := h.length_eq
  have hgap := h.gap_pos
  have hcontent := h.content_length
  rw [blanksBeforePort] at hlen
  omega

theorem Accepted.handleLine_eq (h : Accepted line ip port) : handleLine line =
    .ok (.send ⟨htons (atoi port), inetAddr ip⟩ (line.drop (ip.length + port.length + 2))) := by
  have hoffset := h.offset_lt
  obtain ⟨⟨third, ws, hwords⟩, hpos, hmax⟩ := h
  have hexit : line ≠ literal "exit" := by
    rintro rfl
    have hone : wordsOf (literal "exit") = [literal "exit"] := by decide +kernel
    rw [hone] at hwords
    cases hwords
  have hport : ¬ (atoi port ≤ 0 ∨ atoi port ≥ kUint16Max) := by omega
  rw [handleLine, if_neg hexit, hwords]
  show (if atoi port ≤ 0 ∨ atoi port ≥ kUint16Max then _ else _) = _
  rw [if_neg hport, substr_of_le (Nat.le_of_lt hoffset), List.take_of_length_le (by simp)]
  rfl

/-- The pass never throws, and it leaves the loop for `exit` only. -/
theorem handleLine_cases (line : Bytes) : (line = literal "exit" ∧ handleLine line = .ok .exit) ∨
    (line ≠ literal "exit" ∧ ∃ pass, pass ≠ .exit ∧ handleLine line = .ok pass) := by
  by_cases hexit : line = literal "exit"
  · exact .inl ⟨hexit, by rw [handleLine, if_pos hexit]; rfl⟩
  refine .inr ⟨hexit, ?_⟩
  by_cases hthree : ∃ ip port third ws, wordsOf line = ip :: port :: third :: ws
  · obtain ⟨ip, port, third, ws, hwords⟩ := hthree
    by_cases hport : atoi port ≤ 0 ∨ atoi port ≥ kUint16Max
    · refine ⟨.badPort, Pass.noConfusion, ?_⟩
      rw [handleLine, if_neg hexit, hwords]
      exact if_pos hport
    · obtain ⟨hpos, hmax⟩ := not_or.1 hport
      have haccepted : Accepted line ip port :=
        ⟨⟨third, ws, hwords⟩, not_le.1 hpos, not_le.1 hmax⟩
      exact ⟨.send _ _, Pass.noConfusion, haccepted.handleLine_eq⟩
  · refine ⟨.badFormat, Pass.noConfusion, ?_⟩
    rw [handleLine, if_neg hexit]
    rcases hwords : wordsOf line with _ | ⟨ip, _ | ⟨port, _ | ⟨third, ws⟩⟩⟩
    · rfl
    · rfl
    · rfl
    · exact absurd ⟨ip, port, third, ws, hwords⟩ hthree

end Line

/-- The text is the content up to the whitespace before it exactly if at most two whitespace bytes
stand before the port. -/
theorem sendsContent_iff {line ip port : Bytes} (h : Accepted line ip port) :
    SendsContent line ↔ blanksBeforePort line ≤ 2 := by
  have hlen := h.length_eq
  have hbehind := (afterWord_suffix (afterWord line)).trans (afterWord_suffix line)
  have htext := List.drop_suffix (ip.length + port.length + 2) line
  have hdrop := List.length_drop (i := ip.length + port.length + 2) (l := line)
  constructor
  · rintro ⟨dest, text, hsend, hstart, -⟩
    rw [h.handleLine_eq] at hsend
    cases hsend
    have hle := hstart.length_le
    have hoffset := h.offset_lt
    omega
  · intro hblanks
    refine ⟨_, _, h.handleLine_eq, List.suffix_of_suffix_length_le htext hbehind (by omega), ?_⟩
    refine List.suffix_of_suffix_length_le ((List.dropWhile_suffix _).trans hbehind) htext ?_
    have hgap := h.gap_pos
    have hcontent := h.content_length.2
    rw [blanksBeforePort] at hlen
    omega

theorem accepted_hi (lead : Bytes) (hlead : lead = [] ∨ lead = [32, 32]) :
    Accepted (lead ++ literal "1.2.3.4 5000 hi") (literal "1.2.3.4") (literal "5000") := by
  have hport : atoi (literal "5000") = 5000 := by decide +kernel
  refine ⟨⟨literal "hi", [], ?_⟩, by rw [hport]; decide, by rw [hport]; decide⟩
  rcases hlead with rfl | rfl
  · decide +kernel
  · decide +kernel

theorem sendsContent_hi : SendsContent (literal "1.2.3.4 5000 hi") ↔
    blanksBeforePort (literal "1.2.3.4 5000 hi") ≤ 2 :=
  sendsContent_iff (accepted_hi [] (.inl rfl))

/-- Behind two leading blanks the text starts with the last digit of the port. -/
theorem not_sendsContent_indented : ¬ ∀ line ip port : Bytes, 0 ∉ line → line.length ≤ 199 →
    Accepted line ip port → SendsContent line := by
  intro h
  have hnul : 0 ∉ [32, 32] ++ literal "1.2.3.4 5000 hi" := by decide +kernel
  have hlen : ([32, 32] ++ literal "1.2.3.4 5000 hi").length ≤ 199 := by decide +kernel
  have hsends := h _ _ _ hnul hlen (accepted_hi [32, 32] (.inr rfl))
  rw [SendsContent] at hsends
  have hpass : handleLine ([32, 32] ++ literal "1.2.3.4 5000 hi") =
      .ok (.send ⟨htons 5000, ⟨1, 2, 3, 4⟩⟩ (literal "0 hi")) := by decide +kernel
  rw [hpass] at hsends
  rcases hsends with ⟨dest, text, hsend, hstart, -⟩
  rw [Except.ok.injEq, Pass.send.injEq] at hsend
  have hle := hstart.length_le
  rw [← hsend.2] at hle
  exact absurd hle (by decide +kernel)

/-- No substring of an accepted line is asked for behind its end; the text of a line that `getline`
stores fits into the packet of v2, whose last byte stays zero, and the packet of v3 is filled exactly
and received whole. -/
theorem send_bounds {line ip port : Bytes} (hlen : line.length ≤ 199) (h : Accepted line ip port) :
    ip.length + port.length + 2 < line.length ∧
      ∃ text, handleLine line = .ok (.send ⟨htons (atoi port), inetAddr ip⟩ text) ∧
        1 ≤ text.length ∧ text.length ≤ 195 ∧
        (∃ packet, V2.sendMsgPacket text = .ok packet ∧ packet.length = 200 ∧ packet[199]? = some 0) ∧
        ∀ heap : Heap, (heap.alloc (8 + text.length)).isSome → ∃ packet,
          V3.sendMsgPacket heap text = .ok packet ∧
            packet = (⟨text.length, V3.MsgType.kMsgData.code⟩ : V3.Header).bytes ++ text ∧
            packet.length = 8 + text.length ∧ packet.length ≤ 203 ∧
            recvLen packet = packet.length ∧ packet <+: recvBuffer packet := by
  have hoffset := h.offset_lt
  obtain ⟨hip, hport⟩ := h.tokens_pos
  refine ⟨hoffset, _, h.handleLine_eq, ?_⟩
  have htext : (line.drop (ip.length + port.length + 2)).length =
      line.length - (ip.length + port.length + 2) := List.length_drop ..
  generalize line.drop (ip.length + port.length + 2) = text at htext ⊢
  refine ⟨by omega, by omega, ?_, ?_⟩
  · refine ⟨_, V2.sendMsgPacket_of_le (by omega), ?_, ?_⟩
    · simp only [List.length_append, List.length_cons, List.length_nil, List.length_replicate]
      omega
    · rw [List.getElem?_append_right (by simp), List.getElem?_append_right (by simp; omega),
        List.getElem?_replicate, if_pos (by simp; omega)]
  · intro heap hgrant
    obtain ⟨buf, halloc⟩ := Option.isSome_iff_exists.1 hgrant
    refine ⟨_, V3.sendMsgPacket_of_alloc (by omega) halloc, rfl, ?_⟩
    have hsize : ((⟨text.length, V3.MsgType.kMsgData.code⟩ : V3.Header).bytes ++ text).length =
        8 + text.length := by rw [List.length_append, V3.length_bytes]
    refine ⟨hsize, by omega, recvLen_of_le (by omega), ?_⟩
    rw [recvBuffer_of_le (by omega)]
    exact List.prefix_append _ _

theorem send_bounds_hi : (literal "1.2.3.4 5000 hi").length ≤ 199 ∧
    (literal "1.2.3.4").length + (literal "5000").length + 2 < (literal "1.2.3.4 5000 hi").length :=
  ⟨by decide +kernel, (send_bounds (by decide +kernel) (accepted_hi [] (.inl rfl))).1⟩

end CoffeeChat
