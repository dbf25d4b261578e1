import OperatingPoint.Augmentation
import OperatingPoint.Blend
import OperatingPoint.Parameters

/-!
# Overlays

What is laid over the device equations while a continuation is under way: parameters, a strategy
that changes the linear system, and a blend with the distance from a start point.  The empty overlay
leaves the device equations as they are.

Parameters reach the device layer, the strategy and the blend only while the overlay is *forwarding*
them, which it then does before every residual load.
-/

set_option autoImplicit false

namespace OperatingPoint

/-- What is laid over the device equations. -/
structure Overlay (α : Type) [LE α] where
  parameters : Parameters α := {}
  strategy : Option (Augmentation α) := none
  blend : Option (Blend α) := none
  forwarding : Bool := false

namespace Overlay

variable {α : Type} [Scalar α]

/-- Gives the progress variable to the strategy. -/
def setProgress (o : Overlay α) (value : α) : Except Fault (Overlay α) :=
  match o.strategy with
  | some a => do return { o with strategy := some (← a.setProgress value) }
  | none => .error (.dispatch (.progressUnattached Parameters.progressName))

/-- Gives the blend its value. -/
def setBlend (o : Overlay α) (value : α) : Except Fault (Overlay α) :=
  match o.blend with
  | some b => .ok { o with blend := some (b.setLambda value) }
  | none => .error (.dispatch (.blendUnattached Parameters.blendName))

/-- Changes a residual computed at `x`: the strategy first, then the blend. -/
def augmentResidual {n : Nat} (o : Overlay α) (x f : Vector α n) :
    Except Stop (Overlay α × Vector α n) := do
  let (strategy, f) ← match o.strategy with
    | some a => do
      let (a, f) ← a.augmentResidual x f
      pure (some a, f)
    | none => pure (none, f)
  let f := match o.blend with
    | some b => b.augmentResidual x f
    | none => f
  return ({ o with strategy := strategy }, f)

/-- Changes the Jacobian of a load: the strategy first, then the blend. -/
def augmentJacobian {n : Nat} (o : Overlay α) (load : Nat) (A : Mat α n n) :
    Except Stop (Overlay α × Mat α n n) := do
  let (strategy, A) ← match o.strategy with
    | some a => do
      let (a, A) ← a.augmentJacobian A load
      pure (some a, A)
    | none => pure (none, A)
  let A := match o.blend with
    | some b => b.augmentJacobian A
    | none => A
  return ({ o with strategy := strategy }, A)

end Overlay

end OperatingPoint
