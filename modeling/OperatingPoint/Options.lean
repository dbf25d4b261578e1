import OperatingPoint.Linear.Preconditioner
import OperatingPoint.Parameters
import OperatingPoint.Verdict

/-!
# Options

What a user can configure: the budget and tolerances of the Newton iteration, the linear solver, the
continuation, each for the three modes of analysis, the table of codes and a window for detailed
output.  `standard` is the value of a record whose every field is left alone.

A `Sweep` is a parameter and the control of its steps.  Its end may be left open; it is then the
value that the device layer holds.
-/

set_option autoImplicit false

namespace OperatingPoint

/-- The kind of an analysis. -/
inductive Mode where
  | dcOperatingPoint
  | dcSweep
  | transient
  deriving DecidableEq, Repr

/-- The strategies of a solve. -/
inductive SolveType where
  /-- Plain Newton, perhaps with a clamp on initial conditions or a seed. -/
  | newton
  /-- The first configured parameter. -/
  | naturalParameter
  /-- Each configured parameter in turn. -/
  | multiParameter
  /-- All configured parameters together. -/
  | vectorParameter
  | deviceGainThenNonlinear
  | deviceNonlinearThenGain
  | deviceSizeGainNonlinear
  | deviceSimultaneous
  /-- One gain phase for each block of devices, then the nonlinear phase. -/
  | blockGainscale
  | sourceStepping
  | gminStepping
  /-- A march in pseudo-time, then Newton. -/
  | pseudoTransient
  | artificialHomotopy
  deriving DecidableEq, Repr

namespace SolveType

/-- The strategies, in order. -/
def all : List SolveType :=
  [newton, naturalParameter, multiParameter, vectorParameter, deviceGainThenNonlinear,
    deviceNonlinearThenGain, deviceSizeGainNonlinear, deviceSimultaneous, blockGainscale,
    sourceStepping, gminStepping, pseudoTransient, artificialHomotopy]

def isContinuation (t : SolveType) : Bool := decide (t ≠ newton)

end SolveType

/-- How Newton's iteration uses Jacobians. -/
inductive NewtonMethod where
  /-- A new Jacobian in every iteration. -/
  | full
  /-- A new Jacobian every so many iterations. -/
  | chord (refreshEvery : Nat)
  deriving DecidableEq, Repr

/-- How far a Newton direction is followed. -/
inductive LineSearch where
  /-- All the way. -/
  | full
  /-- Halved until the residual norm decreases enough. -/
  | backtrack
  deriving DecidableEq, Repr

/-- Budget and tolerances of the Newton iteration. -/
structure NewtonOptions (α : Type) where
  maxSteps : Nat
  method : NewtonMethod
  lineSearch : LineSearch
  maxLineSearchSteps : Nat
  /-- Absolute part of the weights of an update. -/
  absTol : α
  /-- Relative part of the weights of an update. -/
  relTol : α
  /-- Weighted norm below which an update is converged. -/
  deltaXTol : α
  /-- Maximum norm below which a residual is converged. -/
  rhsTol : α
  /-- A residual below this is nothing but rounding. -/
  machPrecTol : α
  smallUpdateTol : α
  /-- Greatest growth of the residual since the first iterate. -/
  maxNormFRatio : α
  maxConvergenceRate : α
  maxRelativeConvergenceRate : α
  /-- An iteration stagnates if its rate is nearer to one than this. -/
  stagnationTolerance : α
  stagnationSteps : Nat
  checkDeviceConvergence : Bool
  /-- Honour the device layer's report that an inner solve failed. -/
  twoLevel : Bool

/-- The linear solver of the Newton correction. -/
inductive LinearSolverKind (α : Type) where
  | directLu
  | gmres (restart : Nat) (tol : α) (maxIters : Nat)

structure LinearOptions (α : Type) where
  kind : LinearSolverKind α
  /-- Only iterative solvers use it. -/
  preconditioner : PreconditionerKind

/-- A parameter and the control of its steps. -/
structure Sweep (α : Type) where
  name : String
  start : α
  /-- Nothing stands for the value that the device layer holds. -/
  stop : Option α
  /-- Size of the first step; it goes from start to end. -/
  initialStep : α
  minStep : α
  maxStep : α
  /-- Growth of the step after a success. -/
  growthFactor : α
  maxSteps : Nat

/-- The sweeps of the device families. -/
structure DeviceSweeps (α : Type) where
  gain : Sweep α
  nonlinear : Sweep α
  size : Sweep α
  /-- The gain parameter of each block. -/
  blockGainNames : List String

/-- Stepping of a conductance to reference: its decimal logarithm goes from start to end. -/
structure GminOptions (α : Type) where
  start : α
  stop : α
  initialStep : α
  minStep : α
  maxStep : α
  maxSteps : Nat
  /-- The conductance that stays at the end. -/
  residualConductance : α

/-- The march in pseudo-time. -/
structure MarchOptions (α : Type) where
  initialStep : α
  minStep : α
  maxStep : α
  maxSteps : Nat
  /-- Maximum norm of the residual below which Newton takes over. -/
  switchTol : α
  voltageScale : α
  otherScale : α

structure ContinuationOptions (α : Type) where
  solveType : SolveType
  /-- For the strategies that step configured parameters. -/
  parameters : List (Sweep α)
  device : DeviceSweeps α
  source : Sweep α
  gmin : GminOptions α
  pseudoTransient : MarchOptions α
  homotopy : Sweep α
  /-- Clamp initial conditions when there are any. -/
  useInitialConditions : Bool

/-- The options of one mode. -/
structure ModeOptions (α : Type) where
  nonlinear : NewtonOptions α
  linear : LinearOptions α
  continuation : ContinuationOptions α

/-- The points at which detailed output is wanted: those in every range that is set, if any is. -/
structure Window (α : Type) where
  timeRange : Option (α × α)
  stepRange : Option (Nat × Nat)

structure SolverOptions (α : Type) where
  dcOp : ModeOptions α
  dcSweep : ModeOptions α
  transient : ModeOptions α
  codes : CodeTable
  window : Window α

section

variable {α : Type} [Scalar α]

def NewtonOptions.standard : NewtonOptions α where
  maxSteps := 200
  method := .full
  lineSearch := .full
  maxLineSearchSteps := 9
  absTol := 1e-12
  relTol := 1e-3
  deltaXTol := 1
  rhsTol := 1e-6
  machPrecTol := 1e-20
  smallUpdateTol := 1e-6
  maxNormFRatio := 1e10
  maxConvergenceRate := 1
  maxRelativeConvergenceRate := 1e-2
  stagnationTolerance := 0.05
  stagnationSteps := 3
  checkDeviceConvergence := false
  twoLevel := false

def LinearOptions.standard : LinearOptions α := ⟨.directLu, .jacobi⟩

/-- A scale factor that goes from zero to one. -/
def Sweep.ramp (name : String) : Sweep α where
  name := name
  start := 0
  stop := some 1
  initialStep := 0.2
  minStep := 1e-4
  maxStep := 1
  growthFactor := (2 : Nat)
  maxSteps := 100

def Sweep.standard : Sweep α := Sweep.ramp ""

def DeviceSweeps.standard : DeviceSweeps α where
  gain := Sweep.ramp "mosfet:gainscale"
  nonlinear := Sweep.ramp "mosfet:nltermscale"
  size := Sweep.ramp "mosfet:sizescale"
  blockGainNames := []

def GminOptions.standard : GminOptions α where
  start := (4 : Nat)
  stop := -(12 : Nat)
  initialStep := 1
  minStep := 1e-3
  maxStep := (4 : Nat)
  maxSteps := 200
  residualConductance := 0

/-- The sweep of the logarithm of the conductance. -/
def GminOptions.sweep (g : GminOptions α) : Sweep α where
  name := Parameters.progressName
  start := g.start
  stop := some g.stop
  initialStep := g.initialStep
  minStep := g.minStep
  maxStep := g.maxStep
  growthFactor := (2 : Nat)
  maxSteps := g.maxSteps

def MarchOptions.standard : MarchOptions α where
  initialStep := 1e-3
  minStep := 1e-14
  maxStep := 1e12
  maxSteps := 200
  switchTol := 1e-8
  voltageScale := 1
  otherScale := 1

def ContinuationOptions.standard : ContinuationOptions α where
  solveType := .newton
  parameters := []
  device := DeviceSweeps.standard
  source := Sweep.ramp "vsrcscale"
  gmin := GminOptions.standard
  pseudoTransient := MarchOptions.standard
  homotopy := Sweep.ramp Parameters.blendName
  useInitialConditions := true

def ModeOptions.standard : ModeOptions α :=
  ⟨NewtonOptions.standard, LinearOptions.standard, ContinuationOptions.standard⟩

def Window.standard : Window α := ⟨none, none⟩

/-- Whether a range holds a value; a range that is not set holds every value. -/
def Window.holds {β : Type} [LE β] [DecidableLE β] (range : Option (β × β)) (b : β) : Bool :=
  range.all fun r ↦ decide (r.1 ≤ b) && decide (b ≤ r.2)

/-- Whether a point is in the window. -/
def Window.contains (w : Window α) (time : α) (step : Nat) : Bool :=
  (w.timeRange.isSome || w.stepRange.isSome) && Window.holds w.timeRange time &&
    Window.holds w.stepRange step

/-- A transient has a smaller Newton budget. -/
def SolverOptions.standard : SolverOptions α where
  dcOp := ModeOptions.standard
  dcSweep := ModeOptions.standard
  transient := { ModeOptions.standard with
    nonlinear := { NewtonOptions.standard with maxSteps := 20 } }
  codes := {}
  window := Window.standard

/-- The options of a mode. -/
def SolverOptions.ofMode (o : SolverOptions α) : Mode → ModeOptions α
  | .dcOperatingPoint => o.dcOp
  | .dcSweep => o.dcSweep
  | .transient => o.transient

end

end OperatingPoint
