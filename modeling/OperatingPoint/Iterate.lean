import OperatingPoint.Store

/-!
# Iterates

An iterate is a solution vector together with what is known about the quantities that were computed
at it.  The quantities themselves are in the store.  A quantity is *valid* for an iterate if the
iterate's own flag says so and the iterate still owns it.

Moving the solution starts a new generation, in which nothing is valid.
-/

set_option autoImplicit false

namespace OperatingPoint

/-- The state of a cached quantity. -/
inductive Validity where
  | stale
  | computing
  | valid
  deriving DecidableEq, Repr

/-- The state of each cached quantity. -/
structure Flags where
  residual : Validity := .stale
  jacobian : Validity := .stale
  newton : Validity := .stale
  gradient : Validity := .stale
  deriving DecidableEq, Repr

/-- Norms of a residual, taken when it was computed, so that they can be read when another iterate
has taken the residual. -/
structure ResidualNorms (α : Type) where
  two : α
  max : α
  /-- Global index of the greatest entry. -/
  maxIndex : Nat
  finite : Bool
  deriving Repr

/-- What is known about the residual of an iterate. -/
inductive Measured (α : Type) where
  /-- Nothing. -/
  | no
  /-- The device layer could not evaluate it. -/
  | failed
  | norms (values : ResidualNorms α)
  deriving Repr

namespace Measured

variable {α : Type}

/-- The norms, of a residual that was loaded. -/
def norms? : Measured α → Option (ResidualNorms α)
  | norms values => some values
  | _ => none

/-- Whether the residual was loaded and is finite. -/
def isFinite (m : Measured α) : Bool := m.norms?.any ResidualNorms.finite

/-- The norms as reported: those of a residual that could not be loaded are undefined. -/
def report [Scalar α] : Measured α → Option (ResidualNorms α)
  | no => none
  | failed => some ⟨Scalar.undefined, Scalar.undefined, 0, false⟩
  | norms values => some values

end Measured

/-- A solution vector and what is known about the quantities computed at it. -/
structure Iterate (α : Type) (n : Nat) where
  id : OwnerId
  x : Vector α n
  generation : Nat := 0
  flags : Flags := {}
  measured : Measured α := .no

namespace Iterate

variable {δ α : Type} [Scalar α] [DirectSolver α] {n : Nat}

/-- The flag of a set of quantities: that of its only member, if it has just one and that is cached,
else that of the residual. -/
def flag (it : Iterate α n) (qs : QuantitySet) : Validity :=
  match qs.only? with
  | some .jacobian => it.flags.jacobian
  | some .newton => it.flags.newton
  | some .gradient => it.flags.gradient
  | _ => it.flags.residual

/-- Whether a set of quantities is valid for the iterate. -/
def isValid (it : Iterate α n) (s : Store δ α n) (qs : QuantitySet) : Bool :=
  it.flag qs == .valid && s.owns it.id qs

def ownsJacobian (it : Iterate α n) (s : Store δ α n) : Bool := s.owns it.id Quantity.jacobian

/-- Makes everything stale and starts a new generation. -/
def invalidate (it : Iterate α n) : Iterate α n :=
  { it with generation := it.generation + 1, flags := {}, measured := .no }

/-- Makes everything stale that comes from the Jacobian. -/
def invalidateDerivatives (it : Iterate α n) : Iterate α n :=
  { it with flags := { residual := it.flags.residual } }

/-- Moves the iterate. -/
def setX (it : Iterate α n) (x : Vector α n) : Iterate α n := { it with x := x }.invalidate

/-- Moves the iterate to `base + step · direction`. -/
def moveAlong (it : Iterate α n) (base direction : Vector α n) (step : α) : Iterate α n :=
  it.setX (addScaled base step direction)

/-- A new iterate at `x`. -/
def new (s : Store δ α n) (x : Vector α n) : Iterate α n × Store δ α n :=
  let (id, s) := s.register
  ({ id := id, x := x }, s)

/-- A new iterate at zero. -/
def zero (s : Store δ α n) : Iterate α n × Store δ α n := new s (zeros α n)

/-- A copy that takes over everything the iterate owns. -/
def deepClone (it : Iterate α n) (s : Store δ α n) : Iterate α n × Store δ α n :=
  let (id, s) := s.register
  ({ it with id := id }, s.transfer it.id id)

/-- Insists that a quantity is valid. -/
def require (it : Iterate α n) (s : Store δ α n) (q : Quantity) : Except Fault Unit :=
  if it.isValid s q then .ok () else .error (.stale q)

/-- The residual, if it is the iterate's. -/
def residual (it : Iterate α n) (s : Store δ α n) : Except Fault (Vector α n) := do
  it.require s .residual
  return s.residual

/-- The Newton direction, if it is the iterate's. -/
def newton (it : Iterate α n) (s : Store δ α n) : Except Fault (Vector α n) := do
  it.require s .newton
  return s.newton

/-- The gradient, if it is the iterate's. -/
def gradient (it : Iterate α n) (s : Store δ α n) : Except Fault (Vector α n) := do
  it.require s .gradient
  return s.gradient

/-- `J v` with the iterate's Jacobian. -/
def applyJacobian (it : Iterate α n) (s : Store δ α n) (v : Array α) (length : Nat) :
    Except Fault (Vector α n) := do
  it.require s .jacobian
  s.applyJacobian v length

/-- `Jᵀ v` with the iterate's Jacobian. -/
def applyTranspose (it : Iterate α n) (s : Store δ α n) (v : Array α) (length : Nat) :
    Except Fault (Vector α n) := do
  it.require s .jacobian
  s.applyTranspose v length

end Iterate

end OperatingPoint
