import OperatingPoint.Augmentation.Clamp
import OperatingPoint.Augmentation.Gmin
import OperatingPoint.Augmentation.PseudoTime
import OperatingPoint.Augmentation.Seed

/-!
# Augmentations

The strategies that change the linear system to make Newton converge from farther away.  Each acts
on a residual and a Jacobian that are already computed: it adds to the residual and to the diagonal
on a partition of the unknowns, or replaces rows by those of the identity.

A residual is changed whenever it is computed.  A Jacobian is told apart from the next by the number
of its load, so that changing the same load twice is changing it once.
-/

set_option autoImplicit false

namespace OperatingPoint

/-- A strategy that changes the linear system. -/
inductive Augmentation (α : Type) [LE α] where
  | gmin (g : Gmin α)
  | pseudoTransient (p : PseudoTime α)
  | clamp (c : Clamp α)
  /-- Conductances on one partition, and a clamp on another, which has the last word. -/
  | clampWithGmin (g : Gmin α) (c : Clamp α)
  | seed (s : Seed)

namespace Augmentation

variable {α : Type} [Scalar α]

def name : Augmentation α → String
  | gmin _ => "gmin-stepping"
  | pseudoTransient _ => "pseudo-transient"
  | clamp _ => "initial-condition-clamp"
  | clampWithGmin _ _ => "initial-condition-clamp-with-gmin"
  | seed _ => "operating-point-seed"

/-- Accepts the strategy for a system of `n` unknowns. -/
def validate (n : Nat) : Augmentation α → Except Fault Unit
  | gmin g => g.partition.check n "gmin"
  | pseudoTransient p => p.voltage.check n "pseudo-transient"
  | clamp c => c.partition.check n "clamp"
  | clampWithGmin g c => do
    g.partition.check n "gmin"
    c.partition.check n "clamp"
  | seed s => s.partition.check n "seed"

/-- Sets the progress variable. -/
def setProgress (value : α) : Augmentation α → Except Fault (Augmentation α)
  | gmin g => .ok (gmin { g with progress := value })
  | clampWithGmin g c => .ok (clampWithGmin { g with progress := value } c)
  | pseudoTransient p => .ok (pseudoTransient (p.setStep value))
  | a => .error (.dispatch (.noProgress a.name))

/-- The progress variable, of those that have one. -/
def progress : Augmentation α → Option α
  | gmin g => some g.progress
  | clampWithGmin g _ => some g.progress
  | pseudoTransient p => some p.step
  | clamp _ => none
  | seed _ => none

/-- Changes a residual computed at `x`. -/
def augmentResidual {k m : Nat} (x : Vector α k) (f : Vector α m) :
    Augmentation α → Except Stop (Augmentation α × Vector α m)
  | gmin g => do return (gmin g, ← g.augmentResidual x f)
  | pseudoTransient p => .ok (pseudoTransient p, f)
  | clamp c => do return (clamp c, ← c.augmentResidual x f)
  | clampWithGmin g c => do
    return (clampWithGmin g c, ← c.augmentResidual x (← g.augmentResidual x f))
  | seed s => do
    let (s, f) ← s.augmentResidual f
    return (seed s, f)

/-- Changes the Jacobian of a load. -/
def augmentJacobian {m n : Nat} (A : Mat α m n) (load : Nat) :
    Augmentation α → Except Stop (Augmentation α × Mat α m n)
  | gmin g => do
    let (g, A) ← g.augmentJacobian A load
    return (gmin g, A)
  | pseudoTransient p => do
    let (p, A) ← p.augmentJacobian A load
    return (pseudoTransient p, A)
  | clamp c => do return (clamp c, ← c.augmentJacobian A)
  | clampWithGmin g c => do
    let (g, A) ← g.augmentJacobian A load
    return (clampWithGmin g c, ← c.augmentJacobian A)
  | seed s => do
    let (s, A) ← s.augmentJacobian A
    return (seed s, A)

/-- The step in pseudo-time, of the one strategy that has it. -/
def pseudoTime? : Augmentation α → Except Fault (PseudoTime α)
  | pseudoTransient p => .ok p
  | a => .error (.dispatch (.notPseudoTransient a.name))

end Augmentation

end OperatingPoint
