import OperatingPoint.Capacity
import OperatingPoint.Dense.Matrix
import OperatingPoint.Linear.Stopping

/-!
# Direct solvers

A direct solver factors a square matrix once and then solves against any number of right-hand
sides.  It always answers: for a matrix without an inverse the answer holds entries that are not
finite.

`FactorCache` keeps the factors of the last matrix that was factored.
-/

set_option autoImplicit false

namespace OperatingPoint

/-- A way to factor square matrices and to solve with the factors. -/
class DirectSolver (α : Type) where
  /-- What is kept of a matrix. -/
  Factors : Nat → Type
  factor : {n : Nat} → Mat α n n → Factors n
  solve : {n : Nat} → Factors n → Vector α n → Vector α n

/-- The factors of the last matrix, if one was factored. -/
structure FactorCache (α : Type) [DirectSolver α] where
  stored : Option (Σ n, DirectSolver.Factors α n) := none

namespace FactorCache

variable {α : Type} [DirectSolver α]

/-- Whether there are factors. -/
def hasFactors (c : FactorCache α) : Bool := c.stored.isSome

/-- Factors a matrix.  One that is not square is refused, and the earlier factors stay. -/
def factor [Scalar α] (A : Table α) : Except Stop (FactorCache α) :=
  match A.square? A.rows with
  | some square => .ok ⟨some ⟨A.rows, DirectSolver.factor square⟩⟩
  | none => .error (.fault (.factor (.notSquare A.rows A.columns)))

/-- Solves with the stored factors. -/
def solve {k : Nat} (c : FactorCache α) (b : Vector α k) : Except Stop (Vector α k) :=
  match c.stored with
  | none => .error (.fault (.factor .noFactors))
  | some ⟨n, factors⟩ =>
    if h : k = n then .ok (h ▸ DirectSolver.solve factors (h ▸ b))
    else .error (.fault (.dimension n k))

/-- Factors a matrix and solves with it.  The factors stay even if the right-hand side does not
fit. -/
def factorAndSolve [Scalar α] {k : Nat} (A : Table α) (b : Vector α k) :
    Step (FactorCache α) (Vector α k × SolveStats α) := do
  set (← Step.lift (factor A))
  let x ← Step.lift ((← get).solve b)
  return (x, SolveStats.direct)

/-- Solves with the stored factors, into a vector of the given length. -/
def solveInto (c : FactorCache α) (b : Array α) (length : Nat) : Except Stop (Array α) := do
  reserve length
  match c.stored with
  | some ⟨n, _⟩ =>
    if length = b.size then (c.solve b.toVector).map Vector.toArray
    else throw (.fault (.dimension n (max b.size length)))
  | none => throw (.fault (.factor .noFactors))

end FactorCache

end OperatingPoint
