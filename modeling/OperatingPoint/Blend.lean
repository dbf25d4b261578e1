import OperatingPoint.Dense.Matrix

/-!
# Blends

Homotopy continuation solves `λ F(x) + (1 - λ) (x - x₀) = 0` for a blend `λ` that goes from zero to
one.  At zero the start point `x₀` is the solution, at one the solutions are those of `F`.
-/

set_option autoImplicit false

namespace OperatingPoint

/-- A blend of the system with the distance from a start point. -/
structure Blend (α : Type) where
  start : Array α
  lambda : α
  deriving Repr

namespace Blend

variable {α : Type} [Scalar α]

/-- The start of a homotopy. -/
def atStart (start : Array α) : Blend α := ⟨start, 0⟩

/-- Sets the blend, between zero and one. -/
def setLambda (b : Blend α) (lambda : α) : Blend α := { b with lambda := Scalar.clamp lambda 0 1 }

/-- Blends a residual computed at `x`, as far as all three vectors go. -/
def augmentResidual {k m : Nat} (b : Blend α) (x : Vector α k) (f : Vector α m) : Vector α m :=
  Vector.ofFn fun i ↦
    if h : i.val < k ∧ i.val < b.start.size then
      b.lambda * f.get i + (1 - b.lambda) * (x[i.val] - b.start[i.val])
    else f.get i

/-- Blends a Jacobian with the identity.  At the end there is nothing to do. -/
def augmentJacobian {m n : Nat} (b : Blend α) (A : Mat α m n) : Mat α m n :=
  if b.lambda == 1 then A
  else
    Mat.ofFn fun i j ↦
      if (i : Nat) = j then A i j * b.lambda + (1 - b.lambda) else A i j * b.lambda

end Blend

end OperatingPoint
