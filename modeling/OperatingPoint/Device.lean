import OperatingPoint.Dense.Matrix

/-!
# The device layer

The engine never evaluates an element of the circuit.  A device layer assembles the residual and the
Jacobian for a given solution.  It may have state of its own, so that every call returns the device
layer as it is afterwards, and it may be unable to evaluate, which is a result like any other.

A load writes into a buffer that it is given and leaves it at its length.  The Jacobian arrives
zeroed; its load relies on what the last residual load at the same solution has left in the device
layer.
-/

set_option autoImplicit false

namespace OperatingPoint

/-- What a load leaves: the buffer, the device layer, and whether it could evaluate. -/
structure Load (δ β : Type) where
  ok : Bool
  buffer : β
  device : δ

/-- A device layer with scalars in `α`. -/
class Device (δ : Type) (α : outParam Type) where
  /-- The number of unknowns. -/
  unknowns : δ → Nat
  /-- Assembles the residual at `x`, with `previous` the solution of the previous point. -/
  loadResidual : {n : Nat} → δ → (x previous buffer : Vector α n) → Load δ (Vector α n)
  /-- Assembles the Jacobian at `x`. -/
  loadJacobian : {n : Nat} → δ → (x previous : Vector α n) → (buffer : Mat α n n) →
    Load δ (Mat α n n)
  /-- Takes the value of a parameter, or refuses a name that it does not know. -/
  setParameter : δ → String → α → Bool × δ := fun d _ _ ↦ (false, d)
  /-- The value of a parameter, of those that can be read. -/
  parameter? : δ → String → Option α := fun _ _ ↦ none
  /-- The unknowns that are node voltages; all of them where none are told apart. -/
  voltageUnknowns : δ → Option (List Nat) := fun _ ↦ none
  /-- The unknown of a name. -/
  unknown? : δ → String → Option Nat := fun _ _ ↦ none
  /-- Whether every device reports that it has converged. -/
  devicesConverged : δ → Bool := fun _ ↦ true
  /-- Whether a nested solve failed in the last load. -/
  innerSolveFailed : δ → Bool := fun _ ↦ false
  /-- A point of a continuation was accepted at `x`. -/
  accept : δ → (x : Array α) → δ := fun d _ ↦ d
  /-- The point in progress was given up. -/
  abandon : δ → δ := id

end OperatingPoint
