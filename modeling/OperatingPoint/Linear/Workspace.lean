import OperatingPoint.Linear.Direct
import OperatingPoint.Linear.Gmres
import OperatingPoint.Options

/-!
# The linear workspace

The linear solver of an engine and what outlives a single solve: the factors of the last matrix or,
for an iterative solver, the preconditioner that was set up on it.  A reload of the matrix makes
both stale.  They are built anew by the next solve, unless the caller knows better and asks for
reuse.

An iterative solve that does not converge is reported in the statistics, not as a fault.
-/

set_option autoImplicit false

namespace OperatingPoint

/-- A linear solver with its reusable setup. -/
structure Workspace (α : Type) [DirectSolver α] where
  options : LinearOptions α
  factors : FactorCache α := {}
  preconditioner : Option (Preconditioner α) := none
  /-- Whether the preconditioner belongs to the current matrix. -/
  preconditionerCurrent : Bool := false
  /-- Whether what is kept belongs to the current matrix. -/
  current : Bool := false
  /-- How the last solve went. -/
  last : Option (SolveStats α) := none

namespace Workspace

variable {α : Type} [Scalar α] [DirectSolver α]

/-- The matrix has changed. -/
def invalidate (w : Workspace α) : Workspace α :=
  { w with current := false, preconditionerCurrent := false }

/-- Solves with factors of `A`, or with those at hand. -/
def solveDirect {n : Nat} (A : Table α) (b : Vector α n) (reuse : Bool) :
    Step (Workspace α) (Vector α n × SolveStats α) := do
  let w ← get
  unless reuse && w.current && w.factors.hasFactors do
    let factors ← Step.lift (FactorCache.factor A)
    modify fun w ↦ { w with factors := factors }
  let x ← Step.lift ((← get).factors.solve b)
  return (x, SolveStats.direct)

/-- Solves by iteration, with a preconditioner set up on `A` or with the one at hand.  A setup that
stops leaves a preconditioner that has not been set up. -/
def solveIterative {n : Nat} (restart : Nat) (tol : α) (maxIters : Nat) (A : Table α)
    (b : Vector α n) (reuse : Bool) : Step (Workspace α) (Vector α n × SolveStats α) := do
  let w ← get
  unless reuse && w.preconditionerCurrent do
    let fresh := Preconditioner.fresh w.options.preconditioner
    modify fun w ↦ { w with preconditioner := fresh }
    if let some pc := fresh then
      let pc ← Step.lift (pc.setup A)
      modify fun w ↦ { w with preconditioner := some pc }
    modify fun w ↦ { w with preconditionerCurrent := true }
  let pc := (← get).preconditioner
  Step.lift ((Gmres.new restart tol maxIters).solveTable A pc b (zeros α n))

/-- Solves `A x = b` from zero. -/
def solve {n : Nat} (A : Table α) (b : Vector α n) (reuse : Bool) :
    Step (Workspace α) (Vector α n × SolveStats α) := do
  if A.rows ≠ n then Step.fault (.dimension A.rows n)
  let (x, stats) ←
    match (← get).options.kind with
    | .directLu => solveDirect A b reuse
    | .gmres restart tol maxIters => solveIterative restart tol maxIters A b reuse
  modify fun w ↦ { w with current := true, last := some stats }
  return (x, stats)

end Workspace

end OperatingPoint
