import OperatingPoint.Capacity
import OperatingPoint.Dense.Vector

/-!
# Access to vectors by numbers

A partition holds plain numbers.  Reading or writing a vector at such a number stops when the vector
is shorter.
-/

set_option autoImplicit false

namespace OperatingPoint

variable {α : Type} {n : Nat}

/-- The entry at place `i`. -/
def readAt (x : Vector α n) (i : Nat) : Except Stop α :=
  if h : i < n then .ok x[i] else .error .breach

/-- The vector with the entry at place `i` replaced. -/
def writeAt (x : Vector α n) (i : Nat) (v : α) : Except Stop (Vector α n) :=
  if h : i < n then .ok (x.set i v) else .error .breach

/-- A list of equal entries, of a length that comes from outside. -/
def filled (length : Nat) (v : α) : Except Stop (Array α) := do
  reserve length
  return Array.replicate length v

/-- The vector with the entries at the listed places replaced, in order. -/
def writeAll : List (Nat × α) → Vector α n → Except Stop (Vector α n)
  | [], x => .ok x
  | (i, v) :: rest, x => do writeAll rest (← writeAt x i v)

end OperatingPoint
