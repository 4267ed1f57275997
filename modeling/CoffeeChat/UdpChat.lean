import CoffeeChat.Udp

/-!
# The chat's `main`

The port a peer announces and binds, and one pass of the input loop of `main` in v2 and v3: the
tokens of a line, the check of the port, the address the line names and the text that is sent.
-/

namespace CoffeeChat
open Cpp

def kUint16Max : Int := 65535

/-- `random_port`, `r` being what `rand()` returned. -/
def randomPort (r : Nat) : Int := r % kUint16Max + 3000

/-- The address of the socket that `listen` binds to a port, as others see it: the system chooses the
port when it is given 0. -/
def boundTo (port : Int) (ephemeral : UInt16) (ip : InAddr) : SockAddrIn :=
  ⟨if htons port = 0 then ephemeral else htons port, ip⟩

/-- `split` of v2 and v3, which leaves its delimiters unused. -/
def split (s : Bytes) (tokens : List Bytes) (_delimiters : Bytes) : List Bytes := tokens ++ wordsOf s

inductive Pass where
  | exit
  | badFormat
  | badPort
  | send (dest : SockAddrIn) (text : Bytes)
  deriving DecidableEq, Repr

/-- One pass of the loop of `main`. -/
def handleLine (input : Bytes) : Except StdException Pass :=
  if input = literal "exit" then return .exit
  else
    match wordsOf input with
    | ip :: port :: _ :: _ =>
      let remotePort := atoi port
      if remotePort ≤ 0 ∨ remotePort ≥ kUint16Max then return .badPort
      else do
        let dest : SockAddrIn := ⟨htons remotePort, inetAddr ip⟩
        let text ← substr input (ip.length + port.length + 2) input.length
        return .send dest text
    | _ => return .badFormat

theorem literal_exit : literal "exit" = [101, 120, 105, 116] := by decide +kernel

theorem nil_ne_exit : [] ≠ literal "exit" := by
  simp [literal_exit]

theorem blank_not_mem_exit : (32 : UInt8) ∉ literal "exit" := by
  simp [literal_exit]

def lineTo (ip port text : Bytes) : Bytes := ip ++ 32 :: (port ++ 32 :: text)

theorem handleLine_lineTo (ip : InAddr) {port : Nat} (hport : port < 2 ^ 31) {text : Bytes}
    (htext : wordsOf text ≠ []) : handleLine (lineTo (inetNtoa ip) (decimal port) text) =
      if port = 0 ∨ 65535 ≤ port then .ok .badPort else .ok (.send ⟨htons port, ip⟩ text) := by
  have hexit : lineTo (inetNtoa ip) (decimal port) text ≠ literal "exit" := by
    intro h
    have hmem : (32 : UInt8) ∈ literal "exit" := by rw [← h]; simp [lineTo]
    exact blank_not_mem_exit hmem
  obtain ⟨w, ws, hws⟩ := List.exists_cons_of_ne_nil htext
  have hwords : wordsOf (lineTo (inetNtoa ip) (decimal port) text) =
      inetNtoa ip :: decimal port :: w :: ws := by
    rw [lineTo, wordsOf_append (inetNtoa_ne_nil ip) (fun _ => not_isspace_of_mem_inetNtoa) rfl,
      wordsOf_append (decimal_ne_nil port) (fun _ => not_isspace_of_mem_decimal) rfl, hws]
  have hsubstr : substr (lineTo (inetNtoa ip) (decimal port) text)
      ((inetNtoa ip).length + (decimal port).length + 2)
      (lineTo (inetNtoa ip) (decimal port) text).length = .ok text := by
    have hsplit : lineTo (inetNtoa ip) (decimal port) text =
        (inetNtoa ip ++ 32 :: (decimal port ++ [32])) ++ text := by simp [lineTo]
    have hlen : (inetNtoa ip ++ 32 :: (decimal port ++ [32])).length =
        (inetNtoa ip).length + (decimal port).length + 2 := by simp; omega
    rw [← hlen, hsplit]
    exact substr_append _ _ (by simp; omega)
  simp only [handleLine, if_neg hexit, hwords, atoi_decimal hport, hsubstr, inetAddr_inetNtoa, ok_bind,
    pure_eq_ok, kUint16Max]
  have hiff : ((port : Int) ≤ 0 ∨ (port : Int) ≥ 65535) ↔ (port = 0 ∨ 65535 ≤ port) := by omega
  simp only [hiff]

end CoffeeChat
