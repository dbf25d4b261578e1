import OperatingPoint.Augmentation.Shift

/-!
# Pseudo-time

The term that makes a Newton step a step of implicit Euler in pseudo-time: the inverse of the step,
with one scale on the unknowns of the voltage partition and another elsewhere, on the diagonal of
the Jacobian.  The residual stays as it is, so a march that has come to rest rests at a solution of
the system as it is without the term.

The step grows as the residual falls, in proportion, between two bounds.
-/

set_option autoImplicit false

namespace OperatingPoint

/-- A step in pseudo-time between two bounds. -/
structure PseudoTime (α : Type) [LE α] where
  voltage : Partition
  /-- The unknowns that are shifted at all. -/
  all : Partition
  step : α
  minStep : α
  maxStep : α
  voltageScale : α
  otherScale : α
  /-- The residual norm after the last accepted step. -/
  lastNorm : Option α := none
  shift : Shift α := {}
  min_le_max : minStep ≤ maxStep

namespace PseudoTime

variable {α : Type} [Scalar α]

/-- A term for `n` unknowns.  Bounds that are not in order are refused. -/
def ofStep (voltage : Partition) (n : Nat) (step minStep maxStep voltageScale otherScale : α) :
    Except Stop (PseudoTime α) := do
  let all ← Partition.full? n
  if h : minStep ≤ maxStep then
    return {
      voltage := voltage
      all := all
      step := Scalar.clamp step minStep maxStep
      minStep := minStep
      maxStep := maxStep
      voltageScale := voltageScale
      otherScale := otherScale
      min_le_max := h }
  else throw .breach

/-- Sets the step, as far as the bounds allow. -/
def setStep (p : PseudoTime α) (step : α) : PseudoTime α :=
  { p with step := Scalar.clamp step p.minStep p.maxStep }

/-- Accepts a step that ended with the given residual norm. -/
def accept (p : PseudoTime α) (norm : α) : PseudoTime α :=
  let p :=
    match p.lastNorm with
    | some last =>
      if decide (0 < norm) && Scalar.isFinite last then p.setStep (p.step * last / norm) else p
    | none => p
  { p with lastNorm := some norm }

/-- Halves the step.  Nothing comes of it at the lower bound. -/
def halve (p : PseudoTime α) : Option (PseudoTime α) :=
  if p.step ≤ p.minStep then none else some (p.setStep (p.step * 0.5))

/-- Whether the step is at its upper bound. -/
def reachedMax (p : PseudoTime α) : Bool := decide (p.maxStep ≤ p.step)

/-- What goes onto the diagonal at an unknown. -/
def amount (p : PseudoTime α) (i : Nat) : α :=
  let inverse := 1 / p.step
  if p.voltage.contains i then p.voltageScale * inverse else p.otherScale * inverse

/-- The term on the diagonal of a Jacobian. -/
def augmentJacobian {m n : Nat} (p : PseudoTime α) (A : Mat α m n) (load : Nat) :
    Except Stop (PseudoTime α × Mat α m n) := do
  let (A, shift) ← p.shift.apply A p.all.indices load p.amount
  return ({ p with shift := shift }, A)

end PseudoTime

end OperatingPoint
