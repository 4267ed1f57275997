import Mathlib.Data.Multiset.Count
import Mathlib.Algebra.Order.Group.Multiset

/-!
# Datagram networks

A network that may delay, reorder, lose and duplicate what it carries: the datagrams in flight are a
multiset, any of which may be delivered next. The histories of what was sent and what was delivered
are kept beside it. Without duplication nothing is delivered more often than it was sent
(`Net.Conserving`).
-/

universe u v

structure Datagram (Addr : Type u) (Payload : Type v) where
  src : Addr
  dst : Addr
  payload : Payload
  deriving DecidableEq

structure Net (D : Type u) where
  sent : Multiset D
  inFlight : Multiset D
  delivered : Multiset D

namespace Net
variable {D : Type u}

def empty : Net D := ⟨0, 0, 0⟩

def send (n : Net D) (ds : Multiset D) : Net D :=
  { n with sent := ds + n.sent, inFlight := ds + n.inFlight }

def duplicate (n : Net D) (d : D) : Net D := { n with inFlight := d ::ₘ n.inFlight }

section Erase
variable [DecidableEq D]

def lose (n : Net D) (d : D) : Net D := { n with inFlight := n.inFlight.erase d }

def deliver (n : Net D) (d : D) : Net D :=
  { n with inFlight := n.inFlight.erase d, delivered := d ::ₘ n.delivered }

end Erase

/-- What was delivered and what is still under way was sent, each as often. -/
def Conserving (n : Net D) : Prop := n.delivered + n.inFlight ≤ n.sent

theorem conserving_empty : (empty : Net D).Conserving := le_refl _

namespace Conserving
variable {n : Net D}

theorem send (h : n.Conserving) (ds : Multiset D) : (n.send ds).Conserving := by
  show n.delivered + (ds + n.inFlight) ≤ ds + n.sent
  rw [add_left_comm]
  exact add_le_add_right h ds

section Erase
variable [DecidableEq D]

theorem lose (h : n.Conserving) (d : D) : (n.lose d).Conserving :=
  (add_le_add_right (Multiset.erase_le d _) n.delivered).trans h

theorem deliver (h : n.Conserving) {d : D} (hd : d ∈ n.inFlight) : (n.deliver d).Conserving := by
  show d ::ₘ n.delivered + n.inFlight.erase d ≤ n.sent
  rw [Multiset.cons_add, ← Multiset.add_cons, Multiset.cons_erase hd]
  exact h

end Erase

theorem countP_le (h : n.Conserving) (p : D → Prop) [DecidablePred p] :
    n.delivered.countP p ≤ n.sent.countP p :=
  Multiset.countP_le_of_le p ((Multiset.le_add_right _ _).trans h)

end Conserving

end Net
