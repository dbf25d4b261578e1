import OperatingPoint.Dense.Access
import OperatingPoint.Dense.Matrix
import OperatingPoint.Partition

/-!
# Clamped unknowns

A clamp holds the unknowns of a partition at fixed values.  Their rows of the system are replaced by
`x_i - v_i` and by rows of the identity, so that a Newton step takes each of them to its value and
leaves it there, whatever the rest of the system.
-/

set_option autoImplicit false

namespace OperatingPoint

/-- Fixed values for the unknowns of a partition, in its order. -/
structure Clamp (α : Type) where
  partition : Partition
  values : List α
  length_eq : values.length = partition.indices.length

namespace Clamp

variable {α : Type} [Scalar α]

/-- A clamp with as many values as there are unknowns. -/
def ofValues (partition : Partition) (values : List α) : Except Fault (Clamp α) :=
  if h : values.length = partition.indices.length then .ok ⟨partition, values, h⟩
  else .error (.partition (.clampCount values.length partition.indices.length))

/-- The unknowns with their values. -/
def pairs (c : Clamp α) : List (Nat × α) := c.partition.indices.zip c.values

/-- Writes the values into a solution. -/
def impose {n : Nat} (c : Clamp α) (x : Vector α n) : Except Stop (Vector α n) := writeAll c.pairs x

/-- Replaces the rows of a residual. -/
def augmentResidual {k m : Nat} (c : Clamp α) (x : Vector α k) (f : Vector α m) :
    Except Stop (Vector α m) :=
  c.pairs.foldlM (fun f pair ↦ do writeAt f pair.1 ((← readAt x pair.1) - pair.2)) f

/-- Replaces the rows of a Jacobian. -/
def augmentJacobian {m n : Nat} (c : Clamp α) (A : Mat α m n) : Except Stop (Mat α m n) :=
  c.partition.indices.foldlM (fun A i ↦ A.setIdentityRow i) A

end Clamp

end OperatingPoint
