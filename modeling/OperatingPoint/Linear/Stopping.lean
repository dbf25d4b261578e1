import OperatingPoint.Scalar

/-!
# When an iterative linear solve stops

A solve stops when the residual has fallen to `tol` of its first norm, and when the budget of
iterations is used up.  Only the first is convergence.
-/

set_option autoImplicit false

namespace OperatingPoint

/-- How a linear solve went. -/
structure SolveStats (α : Type) where
  iterations : Nat
  finalResidual : α
  converged : Bool
  deriving Repr

/-- How a direct solve went: it is done in one go, and its residual is not looked at. -/
def SolveStats.direct {α : Type} [Zero α] : SolveStats α := ⟨1, 0, true⟩

/-- Tolerance and budget of an iterative solve. -/
structure Stopping (α : Type) where
  tol : α
  maxIters : Nat

namespace Stopping

variable {α : Type} [Scalar α]

/-- Whether to stop at iteration `i` with residual norm `res`, where the first one was `first`, and
the statistics at this point.  A first norm that is not positive counts as already converged. -/
def check (s : Stopping α) (res first : α) (i : Nat) : Bool × SolveStats α :=
  let relative := if 0 < first then res / first else 0
  let converged := decide (relative ≤ s.tol)
  (converged || decide (s.maxIters ≤ i), ⟨i, res, converged⟩)

end Stopping

end OperatingPoint
