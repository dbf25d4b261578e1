import OperatingPoint.Dense.Access
import OperatingPoint.Dense.Matrix
import OperatingPoint.Partition

/-!
# Seeds

A seed pins the unknowns of a partition, whose values are in the solution already, for one Newton
step: the first residual has zeros in their rows, and the Jacobian after it rows of the identity.
From then on the seed does nothing.
-/

set_option autoImplicit false

namespace OperatingPoint

/-- How far a seed has been used. -/
inductive SeedPhase where
  | pending
  /-- The rows of a residual have been zeroed; the next Jacobian gets its rows. -/
  | applied
  | spent
  deriving DecidableEq, Repr

/-- The name a phase is reported by. -/
def SeedPhase.name : SeedPhase → String
  | pending => "Pending"
  | applied => "Applied"
  | spent => "Spent"

/-- Unknowns pinned for one step. -/
structure Seed where
  partition : Partition
  phase : SeedPhase := .pending

namespace Seed

variable {α : Type} [Scalar α]

/-- Zeroes the rows of the first residual. -/
def augmentResidual {m : Nat} (s : Seed) (f : Vector α m) : Except Stop (Seed × Vector α m) :=
  match s.phase with
  | .pending => do
    let f ← writeAll (s.partition.indices.map fun i ↦ (i, 0)) f
    return ({ s with phase := .applied }, f)
  | _ => .ok (s, f)

/-- Replaces the rows of the first Jacobian after that. -/
def augmentJacobian {m n : Nat} (s : Seed) (A : Mat α m n) : Except Stop (Seed × Mat α m n) :=
  match s.phase with
  | .applied => do
    let A ← s.partition.indices.foldlM (fun A i ↦ A.setIdentityRow i) A
    return ({ s with phase := .spent }, A)
  | _ => .ok (s, A)

end Seed

end OperatingPoint
