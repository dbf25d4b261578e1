import OperatingPoint.Capacity
import OperatingPoint.Linear.IncompleteFactors
import OperatingPoint.Linear.Triangular

/-!
# Preconditioners

A preconditioner is chosen by its kind, set up on a matrix and then applied to vectors.  Before its
first setup it stands for a system without unknowns.

A diagonal preconditioner passes a row whose diagonal entry is zero through unscaled; rows of ideal
voltage sources and of inductor branches are such rows.
-/

set_option autoImplicit false

namespace OperatingPoint

/-- Which preconditioner. -/
inductive PreconditionerKind where
  | none
  | jacobi
  | ilu0
  deriving DecidableEq, Repr

/-- A preconditioner with what its setup left. -/
inductive Preconditioner (α : Type) where
  /-- The inverses of the diagonal entries. -/
  | diagonal (inverses : Array α)
  /-- Both incomplete factors. -/
  | incomplete {n : Nat} (factors : Mat α n n)

namespace Preconditioner

variable {α : Type} [Scalar α]

/-- A preconditioner of the given kind, not yet set up. -/
def fresh : PreconditionerKind → Option (Preconditioner α)
  | .none => .none
  | .jacobi => some (diagonal #[])
  | .ilu0 => some (incomplete (Mat.zero α 0 0))

/-- Sets the preconditioner up on a matrix.  Incomplete factors are those of the leading square
block, which is as large as there are rows. -/
def setup (A : Table α) : Preconditioner α → Except Stop (Preconditioner α)
  | diagonal _ =>
    .ok (diagonal (A.entries.diagonal.map fun d ↦ if d == 0 then 1 else 1 / d).toArray)
  | incomplete _ =>
    if h : A.rows ≤ A.columns then do
      let F ← incompleteFactors (Mat.ofFn fun i j ↦ A.entries i ⟨j, Nat.lt_of_lt_of_le j.2 h⟩)
      return incomplete F
    else .error .breach

/-- The preconditioner applied to `x`. -/
def apply {n : Nat} (x : Vector α n) : Preconditioner α → Except Stop (Vector α n)
  | diagonal inverses =>
    if h : inverses.size = n then .ok (Vector.zipWith (· * ·) ⟨inverses, h⟩ x)
    else .error (.fault (.dimension inverses.size n))
  | incomplete (n := m) factors =>
    if h : n = m then .ok (h ▸ solveUpper factors (solveUnitLower factors (h ▸ x)))
    else .error (.fault (.dimension m n))

/-- The preconditioner applied to `x`, into a vector `y` of any length.  A diagonal one writes as
much of `y` as both have; incomplete factors replace it. -/
def applyInto (x y : Array α) (p : Preconditioner α) : Except Stop (Array α) := do
  let z := (← p.apply x.toVector).toArray
  match p with
  | diagonal _ => return y.mapIdx fun i v ↦ z.getD i v
  | incomplete _ => return z

end Preconditioner

end OperatingPoint
