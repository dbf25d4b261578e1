import OperatingPoint.Augmentation.Shift
import OperatingPoint.Dense.Access

/-!
# Conductances to reference

Gmin stepping connects every unknown of a partition to reference by one conductance, and lets it go
to almost nothing.  The progress variable is its decimal logarithm.  At the end of the sweep only
the floor is left.

An unknown whose Jacobian row comes back empty from the device layer has no element attached.  It
stays tied to reference by the conductance of the end of the sweep, lest the last system be
singular.
-/

set_option autoImplicit false

namespace OperatingPoint

/-- A conductance to reference on a partition. -/
structure Gmin (α : Type) where
  partition : Partition
  progress : α
  stop : α
  floor : α
  shift : Shift α := {}
  /-- The members whose row was empty on the last fresh load. -/
  floating : IndexSet := IndexSet.ofList []

namespace Gmin

variable {α : Type} [Scalar α]

/-- The conductance at a progress: what the powers of ten leave above the one at the end, and the
floor. -/
def conductanceAt (progress stop floor : α) : α :=
  Scalar.max (Scalar.exp10 progress - Scalar.exp10 stop + floor) floor

def conductance (g : Gmin α) : α := conductanceAt g.progress g.stop g.floor

/-- The conductance at one unknown. -/
def tie (g : Gmin α) (i : Nat) : α :=
  if g.floating.contains i then Scalar.max g.conductance (Scalar.exp10 g.stop) else g.conductance

/-- The currents to reference, added to a residual. -/
def augmentResidual {k m : Nat} (g : Gmin α) (x : Vector α k) (f : Vector α m) :
    Except Stop (Vector α m) :=
  g.partition.indices.foldlM
    (fun f i ↦ do writeAt f i ((← readAt f i) + g.tie i * (← readAt x i))) f

/-- Whether a row has no entry at all. -/
def rowIsEmpty {m n : Nat} (A : Mat α m n) (i : Nat) : Bool :=
  if h : i < m then A.rowIsZero ⟨i, h⟩ else true

/-- The conductance at each unknown, added to the diagonal of a Jacobian. -/
def augmentJacobian {m n : Nat} (g : Gmin α) (A : Mat α m n) (load : Nat) :
    Except Stop (Gmin α × Mat α m n) := do
  let floating :=
    if g.shift.isFresh load then g.partition.members.filter (rowIsEmpty A) else g.floating
  let g := { g with floating := floating }
  let (A, shift) ← g.shift.apply A g.partition.indices load g.tie
  return ({ g with shift := shift }, A)

end Gmin

end OperatingPoint
