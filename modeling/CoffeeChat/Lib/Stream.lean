import Mathlib.Data.List.Basic

/-!
# Reading from a byte stream

A reliable stream is the list of what was sent and not yet received. `recv` with a buffer of `cap`
elements takes any nonempty prefix that fits into the buffer, however the data was cut when it was
sent.
-/

universe u

/-- `recv` takes `chunk` from `stream` and leaves `rest`. -/
structure Recv {α : Type u} (cap : Nat) (stream chunk rest : List α) : Prop where
  append_eq : chunk ++ rest = stream
  ne_nil : chunk ≠ []
  length_le : chunk.length ≤ cap

namespace Recv
variable {α : Type u} {cap : Nat} {stream chunk rest : List α}

theorem whole (h : stream ≠ []) (hcap : stream.length ≤ cap) : Recv cap stream stream [] :=
  ⟨List.append_nil _, h, hcap⟩

theorem isPrefix (h : Recv cap stream chunk rest) : chunk <+: stream := ⟨rest, h.append_eq⟩

theorem mem (h : Recv cap stream chunk rest) {a : α} (ha : a ∈ chunk) : a ∈ stream := h.isPrefix.mem ha

theorem mem_rest (h : Recv cap stream chunk rest) {a : α} (ha : a ∈ rest) : a ∈ stream :=
  h.append_eq ▸ List.mem_append_right _ ha

theorem stream_ne_nil (h : Recv cap stream chunk rest) : stream ≠ [] := by
  rw [← h.append_eq]
  exact List.append_ne_nil_of_left_ne_nil h.ne_nil _

theorem rest_eq_nil (h : Recv cap stream stream rest) : rest = [] :=
  List.append_right_eq_self.1 h.append_eq

theorem not_nil (h : Recv cap [] chunk rest) : False := h.stream_ne_nil rfl

end Recv
