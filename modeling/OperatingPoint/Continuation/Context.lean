import OperatingPoint.Continuation.Stepper
import OperatingPoint.InitialConditions

/-!
# The context of a continuation

What all the continuations of a session share, read from the device layer once: which unknowns are
voltages, which of them initial conditions hold, and the end values of those parameters whose end
was left open.
-/

set_option autoImplicit false

namespace OperatingPoint

/-- What the continuations of a session share. -/
structure ContinuationContext (α : Type) where
  voltage : Partition
  initialConditions : Option (Partition × List α)
  /-- End values read from the device layer, the latest first. -/
  endValues : List (String × α)

namespace ContinuationContext

variable {δ α : Type}

/-- The sweeps of a mode that may have an open end. -/
def sweeps (o : ModeOptions α) : List (Sweep α) :=
  let c := o.continuation
  c.parameters ++ [c.device.gain, c.device.nonlinear, c.device.size, c.source, c.homotopy]

/-- The conditions as they are on the unknowns, if there are any. -/
def resolveConditions [Device δ α] (device : δ) (conditions : InitialConditions α) :
    Except Fault (Option (Partition × List α)) :=
  if conditions.isEmpty then .ok none else (conditions.resolve device).map some

/-- The unknowns that are voltages. -/
def voltageOf [Device δ α] (device : δ) : Except Stop Partition :=
  match Device.voltageUnknowns device with
  | some indices => Stop.ofFault (Partition.ofList indices (Device.unknowns device))
  | none => Partition.full? (Device.unknowns device)

/-- Reads everything from the device layer. -/
def build [Device δ α] (device : δ) (modes : List (ModeOptions α))
    (conditions : InitialConditions α) : Except Stop (ContinuationContext α) := do
  let voltage ← voltageOf device
  let initialConditions ← Stop.ofFault (resolveConditions device conditions)
  let openEnds := (modes.flatMap sweeps).filter fun sweep ↦ sweep.stop.isNone
  let endValues := openEnds.filterMap fun sweep ↦
    (Device.parameter? device sweep.name).map fun value ↦ (sweep.name, value)
  return ⟨voltage, initialConditions, endValues.reverse⟩

/-- The end value of a sweep: configured, or read. -/
def endOf (c : ContinuationContext α) (sweep : Sweep α) : Except Fault α :=
  match sweep.stop with
  | some value => .ok value
  | none =>
    match c.endValues.lookup sweep.name with
    | some value => .ok value
    | none => .error (.config (.noEnd sweep.name))

/-- The way of a sweep. -/
def path (c : ContinuationContext α) (sweep : Sweep α) : Except Fault (ParameterPath α) := do
  return ⟨sweep.name, sweep.start, ← c.endOf sweep⟩

end ContinuationContext

end OperatingPoint
