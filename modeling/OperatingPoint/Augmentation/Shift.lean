import OperatingPoint.Dense.Matrix
import OperatingPoint.Partition

/-!
# Diagonal shifts

A shift is added to the diagonal of a Jacobian on a partition of the unknowns.  Each load of a
Jacobian is shifted in full once: the shift remembers the load and the amounts, so that a second
time on the same load the old amounts are taken off before the new ones go on.  Where old and new
amount agree the entry is left alone.
-/

set_option autoImplicit false

namespace OperatingPoint

/-- What was last added to a diagonal, and to which load. -/
structure Shift (α : Type) where
  load : Option Nat := none
  /-- The amounts, in the order of the partition. -/
  applied : List α := []
  deriving Repr

namespace Shift

variable {α : Type} [Scalar α] {m n : Nat}

/-- Whether a load has not been shifted yet. -/
def isFresh (s : Shift α) (load : Nat) : Bool := s.load != some load

/-- A diagonal entry `d` with `amount` on it, when the amount that is on it already may be given. -/
def shifted (d amount : α) : Option α → α
  | none => d + amount
  | some old => if amount == old then d else d - old + amount

/-- Shifts the listed entries, each with the amount that is on it already. -/
def applyAll (amount : Nat → α) : List (Nat × Option α) → Mat α m n → Except Stop (Mat α m n)
  | [], A => .ok A
  | (i, old) :: rest, A => do
    let d ← A.diagonalEntry i
    let A ← A.setDiagonalEntry i (shifted d (amount i) old)
    applyAll amount rest A

/-- Shifts a Jacobian on a partition. -/
def apply (s : Shift α) (A : Mat α m n) (indices : List Nat) (load : Nat) (amount : Nat → α) :
    Except Stop (Mat α m n × Shift α) := do
  let again := !s.isFresh load && s.applied.length == indices.length
  let entries : List (Nat × Option α) :=
    if again then indices.zip (s.applied.map some) else indices.map fun i ↦ (i, none)
  return (← applyAll amount entries A, ⟨some load, indices.map amount⟩)

end Shift

end OperatingPoint
