import OperatingPoint.Capacity
import OperatingPoint.IndexSet

/-!
# Partitions of the unknowns

A partition is a set of unknowns of a system of a certain size.  It remembers the size it was built
for, and a system of another size refuses it.
-/

set_option autoImplicit false

namespace OperatingPoint

/-- A set of unknowns out of `bound` many. -/
structure Partition where
  members : IndexSet
  bound : Nat
  below_bound : ∀ i ∈ members.toList, i < bound

namespace Partition

/-- The unknowns, in order. -/
def indices (p : Partition) : List Nat := p.members.toList

def size (p : Partition) : Nat := p.members.size

def contains (p : Partition) (i : Nat) : Bool := p.members.contains i

/-- The set of the listed unknowns.  The lowest index that is out of bounds is reported. -/
def ofList (indices : List Nat) (bound : Nat) : Except Fault Partition :=
  let members := IndexSet.ofList indices
  match h : members.toList.find? (bound ≤ ·) with
  | some index => .error (.partition (.outside index bound))
  | none => .ok ⟨members, bound, fun i hi ↦ by simpa using List.find?_eq_none.1 h i hi⟩

/-- All the unknowns of a system. -/
def full (bound : Nat) : Partition :=
  ⟨IndexSet.below bound, bound, fun i hi ↦ by simpa [IndexSet.below, IndexSet.toList] using hi⟩

/-- All the unknowns of a system whose size comes from outside. -/
def full? (bound : Nat) : Except Stop Partition := do
  reserve bound
  return full bound

/-- Accepts the partition for a system of `n` unknowns; `what` says whose it is. -/
def check (p : Partition) (n : Nat) (what : String) : Except Fault Unit :=
  if p.bound = n then .ok () else .error (.partition (.otherSystem what p.bound n))

end Partition

end OperatingPoint
