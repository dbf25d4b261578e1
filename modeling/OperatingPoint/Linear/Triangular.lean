import OperatingPoint.Dense.Matrix

/-!
# Triangular solves

Both triangles of one matrix: the unit lower one, whose diagonal is understood, and the upper one
with the diagonal.  Each solve goes through the rows once and subtracts the known terms of a row
from left to right.
-/

set_option autoImplicit false

namespace OperatingPoint

variable {α : Type} [Scalar α] {n : Nat}

/-- Solves `L z = x` for the unit lower triangle of `F`, from the first row to the last. -/
def solveUnitLower (F : Mat α n n) (x : Vector α n) : Vector α n :=
  (List.finRange n).foldl (fun z (i : Fin n) ↦
    z.set i (((List.finRange n).filter (· < i)).foldl (fun s j ↦ s - F i j * z.get j) (z.get i))
      i.isLt) x

/-- Solves `U y = z` for the upper triangle of `F`, from the last row to the first. -/
def solveUpper (F : Mat α n n) (z : Vector α n) : Vector α n :=
  (List.finRange n).reverse.foldl (fun y (i : Fin n) ↦
    y.set i (((List.finRange n).filter (i < ·)).foldl (fun s j ↦ s - F i j * y.get j) (y.get i)
      / F i i) i.isLt) z

end OperatingPoint
