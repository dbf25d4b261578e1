import OperatingPoint.Continuation.Context
import OperatingPoint.PseudoTransient

/-!
# Strategies

One solve on an engine, by one of the strategies.  Each of them attaches what it needs to the track,
drives the solve, takes off again what it attached, and returns one signed code.  A continuation
that does not come to its end has the code `CodeTable.continuationFailed`, wherever it stopped.

The strategies in parameters are made of *phases*.  A phase steps its first sweep and takes the
others along.  Before the first phase every parameter is at its start; a solve that ends in anything
but success hands every parameter back to the device layer at its end value.

Initial conditions, where they are in use, are clamped by plain Newton and by Gmin stepping.  A seed
is used by the first plain Newton solve without a clamp.
-/

set_option autoImplicit false

namespace OperatingPoint

/-- A solve on an engine. -/
structure Drive (δ α : Type) [LE α] [DirectSolver α] (n : Nat) where
  engine : Engine δ α n
  /-- The seed that is waiting for a plain Newton solve. -/
  seed : Option Partition := none
  /-- The outcome of the last Newton solve. -/
  last : Option (Outcome α) := none

namespace Drive

variable {δ α : Type} [Scalar α] [DirectSolver α] {n : Nat}

/-- A step on the engine of a drive. -/
def onEngine {β : Type} (act : Step (Engine δ α n) β) : Step (Drive δ α n) β :=
  Step.zoom Drive.engine (fun d e ↦ { d with engine := e }) act

/-- A change of the track. -/
def modifyTrack (change : Track α n → Track α n) : Step (Drive δ α n) Unit :=
  onEngine (Engine.modifyTrack change)

/-- Attaches a strategy to the track. -/
def attach (a : Augmentation α) : Step (Drive δ α n) Unit := do
  let d ← get
  let track ← Step.orFault (d.engine.rig.track.attach a)
  modifyTrack fun _ ↦ track

/-- The clamp on the initial conditions in use, if there are any. -/
def clamp? (options : ModeOptions α) (ctx : ContinuationContext α) :
    Except Fault (Option (Clamp α)) :=
  match ctx.initialConditions with
  | some (partition, values) =>
    if options.continuation.useInitialConditions then
      (Clamp.ofValues partition values).map some
    else .ok none
  | none => .ok none

/-- Moves the iterate to where a clamp holds it. -/
def impose (c : Clamp α) : Step (Drive δ α n) Unit := do
  let x ← Step.lift (c.impose (← get).engine.iterate.x)
  modifyTrack fun t ↦ t.setX x

/-- The code of a continuation, whose last outcome is noted. -/
def conclude (report : ContinuationReport α) : Step (Drive δ α n) Int := do
  modify fun d ↦ { d with last := report.last }
  match report.last with
  | some outcome => return if report.finished then outcome.code else CodeTable.continuationFailed
  | none => return CodeTable.continuationFailed

variable [Device δ α]

/-- A plain Newton solve. -/
def solveNewton : Step (Drive δ α n) Int := do
  let outcome ← onEngine Engine.solve
  modify fun d ↦ { d with last := some outcome }
  return outcome.code

/-- A Newton solve under an attached strategy, which comes off whatever becomes of the solve. -/
def solveUnder (a : Augmentation α) : Step (Drive δ α n) Int := do
  attach a
  let code ← Step.attempt solveNewton
  modifyTrack Track.detach
  Step.lift code

/-- Newton's iteration, with initial conditions clamped, or else with a seed if one is waiting. -/
def newton (options : ModeOptions α) (ctx : ContinuationContext α) : Step (Drive δ α n) Int := do
  match ← Step.orFault (clamp? options ctx) with
  | some clamp =>
    impose clamp
    solveUnder (.clamp clamp)
  | none =>
    match (← get).seed with
    | some partition =>
      modify fun d ↦ { d with seed := none }
      solveUnder (.seed { partition := partition })
    | none => solveNewton

/-! ## Phases -/

/-- Runs phases in turn, up to the first that does not come to its end.  The code is that of the
last one that was run. -/
def runPhases (ctx : ContinuationContext α) (code : Int) :
    List (List (Sweep α)) → Step (Drive δ α n) Int
  | [] => pure code
  | [] :: phases => runPhases ctx code phases
  | (lead :: rest) :: phases => do
    let coupled ← Step.orFault (rest.mapM ctx.path)
    let stop ← Step.orFault (ctx.endOf lead)
    let report ← onEngine (Stepper.run ⟨lead, stop, coupled⟩)
    let code ← conclude report
    if code = CodeTable.continuationFailed then return code
    else runPhases ctx code phases

/-- Hands parameters back to the device layer at their end values. -/
def restoreEnds (ctx : ContinuationContext α) : List (Sweep α) → Step (Drive δ α n) Unit
  | [] => pure ()
  | sweep :: sweeps => do
    let stop ← Step.orFault (ctx.endOf sweep)
    onEngine (Engine.onRig (Rig.pushParameter sweep.name stop))
    restoreEnds ctx sweeps

/-- A continuation in phases.  If it fails for a fault, that fault is reported, and one in restoring
the parameters only if there was none before. -/
def phases (ctx : ContinuationContext α) (list : List (List (Sweep α))) :
    Step (Drive δ α n) Int := do
  modifyTrack fun t ↦ list.flatten.foldl (fun t sweep ↦ t.setParameter sweep.name sweep.start) t
  modifyTrack fun t ↦ t.setForwarding true
  let result ← Step.attempt (runPhases ctx CodeTable.continuationFailed list)
  modifyTrack fun t ↦ t.setForwarding false
  match result with
  | .ok code =>
    if CodeTable.isSuccess code then return code
    else
      restoreEnds ctx list.flatten
      return code
  | .error stop =>
    let _ ← Step.attempt (restoreEnds ctx list.flatten)
    throw stop

/-! ## Other continuations -/

/-- A stepper whose run is cleaned up after, whatever becomes of it. -/
def runStepper (s : Stepper α) (cleanUp : Track α n → Track α n) : Step (Drive δ α n) Int := do
  let report ← Step.attempt (onEngine s.run)
  modifyTrack fun t ↦ cleanUp (t.setForwarding false)
  let report ← Step.lift report
  conclude report

/-- Stepping of a conductance to reference on the voltages. -/
def gmin (options : ModeOptions α) (ctx : ContinuationContext α) : Step (Drive δ α n) Int := do
  let g := options.continuation.gmin
  let conductance : Gmin α := {
    partition := ctx.voltage
    progress := g.start
    stop := g.stop
    floor := g.residualConductance }
  match ← Step.orFault (clamp? options ctx) with
  | some clamp =>
    impose clamp
    attach (.clampWithGmin conductance clamp)
  | none => attach (.gmin conductance)
  modifyTrack fun t ↦ t.setForwarding true
  runStepper ⟨g.sweep, g.stop, []⟩ fun t ↦ (t.removeParameter Parameters.progressName).detach

/-- A march in pseudo-time, then Newton. -/
def pseudoTransient (options : ModeOptions α) (ctx : ContinuationContext α) :
    Step (Drive δ α n) Int := do
  let o := options.continuation.pseudoTransient
  let term ← Step.lift <|
    PseudoTime.ofStep ctx.voltage n o.initialStep o.minStep o.maxStep o.voltageScale o.otherScale
  attach (.pseudoTransient term)
  let report ← Step.attempt (onEngine (Engine.onRig (March.run o)))
  modifyTrack Track.detach
  let report ← Step.lift report
  if report.status = .failed then return CodeTable.continuationFailed
  else solveNewton

/-- Homotopy from the solution at hand. -/
def homotopy (options : ModeOptions α) (ctx : ContinuationContext α) :
    Step (Drive δ α n) Int := do
  let sweep := options.continuation.homotopy
  let stop ← Step.orFault (ctx.endOf sweep)
  modifyTrack fun t ↦ t.attachBlend (Blend.atStart t.x.toArray)
  runStepper ⟨sweep, stop, []⟩ fun t ↦ (t.removeParameter Parameters.blendName).detachBlend

/-- The phases of a strategy that is made of phases.  Such a strategy may lack what it steps. -/
def phasesOf (c : ContinuationOptions α) : SolveType → Except Fault (Option (List (List (Sweep α))))
  | .naturalParameter =>
    match c.parameters with
    | [] => .error (.config (.noParameters "natural"))
    | first :: _ => .ok (some [[first]])
  | .multiParameter =>
    if c.parameters.isEmpty then .error (.config (.noParameters "multi-parameter"))
    else .ok (some (c.parameters.map fun sweep ↦ [sweep]))
  | .vectorParameter =>
    if c.parameters.isEmpty then .error (.config (.noParameters "vector"))
    else .ok (some [c.parameters])
  | .deviceGainThenNonlinear => .ok (some [[c.device.gain], [c.device.nonlinear]])
  | .deviceNonlinearThenGain => .ok (some [[c.device.nonlinear], [c.device.gain]])
  | .deviceSizeGainNonlinear =>
    .ok (some [[c.device.size], [c.device.gain], [c.device.nonlinear]])
  | .deviceSimultaneous => .ok (some [[c.device.gain, c.device.nonlinear]])
  | .blockGainscale =>
    if c.device.blockGainNames.isEmpty then .error (.config .noBlocks)
    else
      let blocks := c.device.blockGainNames.map fun name ↦ [{ c.device.gain with name := name }]
      .ok (some (blocks ++ [[c.device.nonlinear]]))
  | .sourceStepping => .ok (some [[c.source]])
  | .newton | .gminStepping | .pseudoTransient | .artificialHomotopy => .ok none

/-- A solve by one of the strategies. -/
def run (options : ModeOptions α) (ctx : ContinuationContext α) (solveType : SolveType) :
    Step (Drive δ α n) Int := do
  match ← Step.orFault (phasesOf options.continuation solveType) with
  | some list => phases ctx list
  | none =>
    match solveType with
    | .gminStepping => gmin options ctx
    | .pseudoTransient => pseudoTransient options ctx
    | .artificialHomotopy => homotopy options ctx
    | _ => newton options ctx

end Drive

end OperatingPoint
