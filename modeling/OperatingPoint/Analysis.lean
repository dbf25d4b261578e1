import OperatingPoint.Options.Writing
import OperatingPoint.Strategy

/-!
# Analyses

An analysis is what a simulator holds: the options, an engine on the device layer, and a session
that lasts until it is reset.  A solve takes the options of the current mode, builds the engine anew
if the mode has changed since it was built, reads the context of the session if that has not been
done, and runs a strategy.

Building anew keeps the solution, the previous point and the device layer.  If the number of
unknowns has changed in between, the solution does not fit and the engine is lost; what needs it
then fails.
-/

set_option autoImplicit false

namespace OperatingPoint

/-- What is remembered from solve to solve. -/
structure Session where
  mode : Mode := .dcOperatingPoint
  /-- The mode that the engine was built for. -/
  builtMode : Option Mode := none
  /-- Whether the context has been read from the device layer. -/
  contextRead : Bool := false
  /-- Whether any solve has produced a result. -/
  firstSolveComplete : Bool := false
  lastSolveType : Option SolveType := none
  /-- How often the engine was built anew. -/
  rebuilds : Nat := 0
  deriving Repr

/-- An engine of some number of unknowns. -/
structure SizedEngine (δ α : Type) [LE α] [DirectSolver α] where
  unknowns : Nat
  engine : Engine δ α unknowns

structure Analysis (δ α : Type) [LE α] [DirectSolver α] where
  options : SolverOptions α
  communicator : Communicator α
  engine : Option (SizedEngine δ α)
  session : Session
  context : Option (ContinuationContext α) := none
  conditions : InitialConditions α := {}
  /-- The seed that is waiting for a plain Newton solve. -/
  seed : Option Partition := none
  last : Option (Outcome α) := none
  lastCode : Int := 0
  time : α
  stepNumber : Nat := 0

namespace Analysis

variable {δ α : Type} [Scalar α] [DirectSolver α] [Device δ α]

/-- The Newton driver for a mode. -/
def newtonFor (communicator : Communicator α) (options : SolverOptions α) (mode : Mode) :
    Newton α where
  battery := Battery.new communicator (options.ofMode mode).nonlinear options.codes
    (decide (mode = .transient))

/-- An engine for a mode, at zero. -/
def engineAtZero (device : δ) (communicator : Communicator α) (options : SolverOptions α)
    (mode : Mode) : Except Stop (SizedEngine δ α) := do
  let n := Device.unknowns device
  let store ← Store.new? device communicator (options.ofMode mode).linear n
  let (iterate, store) := Iterate.zero store
  return ⟨n, ⟨⟨store, { iterate := iterate }⟩, newtonFor communicator options mode⟩⟩

/-- An engine for a mode, at a solution and after a point, which must have as many entries as there
are unknowns. -/
def engineAt (device : δ) (communicator : Communicator α) (options : SolverOptions α)
    (mode : Mode) (x previous : Array α) : Except Stop (SizedEngine δ α) := do
  let n := Device.unknowns device
  Store.reserveSquare n
  let x : Vector α n ← Stop.ofFault (Store.sized x)
  let previous : Vector α n ← Stop.ofFault (Store.sized previous)
  let store := Store.new device communicator (options.ofMode mode).linear n
  let (iterate, store) := Iterate.new store x
  return ⟨n, ⟨⟨store.setPrevious previous, { iterate := iterate }⟩,
    newtonFor communicator options mode⟩⟩

/-- An analysis at its beginning. -/
def new (device : δ) (communicator : Communicator α) (options : SolverOptions α) :
    Except Stop (Analysis δ α) := do
  let engine ← engineAtZero device communicator options .dcOperatingPoint
  return {
    options := options
    communicator := communicator
    engine := some engine
    session := { builtMode := some .dcOperatingPoint }
    time := 0 }

/-! ## Looking at an analysis -/

def iterations (a : Analysis δ α) : Nat := a.last.elim 0 Outcome.iterations

def maxResidual (a : Analysis δ α) : α := a.last.elim Scalar.infinity Outcome.maxResidual

def maxIndex (a : Analysis δ α) : Nat := a.last.elim 0 Outcome.maxIndex

/-- The solution, which is empty if the engine is lost. -/
def solution (a : Analysis δ α) : Array α :=
  match a.engine with
  | some e => e.engine.iterate.x.toArray
  | none => #[]

/-- The device layer, unless it went with the engine. -/
def device? (a : Analysis δ α) : Option δ := a.engine.map fun e ↦ e.engine.rig.store.device

/-- Whether detailed output is wanted at the current point. -/
def windowActive (a : Analysis δ α) : Bool := a.options.window.contains a.time a.stepNumber

/-- The strategy of the next solve.  A sweep uses the configured one only until a solve has
produced a result, and a transient never. -/
def effectiveSolveType (a : Analysis δ α) : SolveType :=
  match a.session.mode with
  | .transient => .newton
  | .dcSweep =>
    if a.session.firstSolveComplete then .newton else a.options.dcSweep.continuation.solveType
  | .dcOperatingPoint => a.options.dcOp.continuation.solveType

/-! ## Changing an analysis -/

def setMode (a : Analysis δ α) (mode : Mode) : Analysis δ α :=
  { a with session := { a.session with mode := mode } }

/-- Forgets the session.  The engine and its solution stay. -/
def resetSession (a : Analysis δ α) : Analysis δ α :=
  { a with
    session := {
      mode := a.session.mode
      builtMode := a.session.builtMode
      rebuilds := a.session.rebuilds }
    context := none }

def setTimePoint (a : Analysis δ α) (time : α) (step : Nat) : Analysis δ α :=
  { a with time := time, stepNumber := step }

/-- A change of the device layer from outside. -/
def modifyDevice (a : Analysis δ α) (change : δ → δ) : Analysis δ α :=
  { a with engine := a.engine.map fun e ↦ ⟨e.unknowns, { e.engine with
      rig := { e.engine.rig with
        store := { e.engine.rig.store with device := change e.engine.rig.store.device } } }⟩ }

/-- A step on the engine, which must not be lost. -/
def onEngine {β : Type} (act : {n : Nat} → Step (Engine δ α n) β) : Step (Analysis δ α) β := fun a ↦
  match a.engine with
  | none => .error (.fault (.config .tornDown)) a
  | some e =>
    match act e.engine with
    | .ok b engine => .ok b { a with engine := some ⟨e.unknowns, engine⟩ }
    | .error stop engine => .error stop { a with engine := some ⟨e.unknowns, engine⟩ }

/-- Sets the initial conditions.  If the context has been read they are resolved at once, and
refused if that fails. -/
def setInitialConditions (conditions : InitialConditions α) : Step (Analysis δ α) Unit := do
  let a ← get
  match a.context, a.engine with
  | some context, some e =>
    let resolved ← Step.orFault
      (ContinuationContext.resolveConditions e.engine.rig.store.device conditions)
    modify fun a ↦ { a with
      context := some { context with initialConditions := resolved }
      conditions := conditions }
  | _, _ => modify fun a ↦ { a with conditions := conditions }

/-- Takes a part of a solution from a restart file.  The values go into the solution, and their
unknowns are pinned for the first step of the next plain Newton solve. -/
def setSeed (seed : InitialConditions α) : Step (Analysis δ α) Unit := do
  let partition ← onEngine do
    let e ← get
    let (partition, values) ← Step.orFault (seed.resolve e.rig.store.device)
    let x ← Step.lift (writeAll (partition.indices.zip values) e.iterate.x)
    Engine.modifyTrack fun t ↦ t.setX x
    return partition
  modify fun a ↦ { a with seed := some partition }

/-- Moves the solution. -/
def setSolution (x : Array α) : Step (Analysis δ α) Unit :=
  onEngine do
    let x ← Step.orFault (Store.sized x)
    Engine.modifyTrack fun t ↦ t.setX x

/-- Sets the solution of the previous point. -/
def setPrevious (x : Array α) : Step (Analysis δ α) Unit :=
  onEngine do
    let x ← Step.orFault (Store.sized x)
    modify fun e ↦ { e with
      rig := { store := e.rig.store.setPrevious x, track := e.rig.track.invalidate } }

/-- Makes sure that the engine is the one for the current mode. -/
def ensureBuilt : Step (Analysis δ α) Unit := do
  let a ← get
  if a.session.builtMode ≠ some a.session.mode then
    match a.engine with
    | none => Step.fault (.config .tornDown)
    | some e =>
      set ({ a with engine := none } : Analysis δ α)
      let store := e.engine.rig.store
      let rebuilt ← Step.lift <| engineAt store.device a.communicator a.options a.session.mode
        e.engine.iterate.x.toArray store.previous.toArray
      let session := { a.session with
        builtMode := some a.session.mode
        rebuilds := a.session.rebuilds + 1 }
      set ({ a with engine := some rebuilt, session := session } : Analysis δ α)

/-- Makes sure that the context has been read. -/
def ensureContext : Step (Analysis δ α) (ContinuationContext α) := do
  let a ← get
  match a.context with
  | some context => return context
  | none =>
    match a.engine with
    | none => Step.fault (.config .tornDown)
    | some e =>
      let context ← Step.lift <| ContinuationContext.build e.engine.rig.store.device
        [a.options.dcOp, a.options.dcSweep, a.options.transient] a.conditions
      let session := { a.session with contextRead := true }
      set ({ a with context := some context, session := session } : Analysis δ α)
      return context

/-- One whole solve.  The code is positive for a success. -/
def solve : Step (Analysis δ α) Int := do
  ensureBuilt
  let context ← ensureContext
  let solveType := (← get).effectiveSolveType
  modify fun a ↦ { a with session := { a.session with lastSolveType := some solveType } }
  let a ← get
  match a.engine with
  | none => Step.fault (.config .tornDown)
  | some e =>
    let drive : Drive δ α e.unknowns := { engine := e.engine, seed := a.seed }
    let options := a.options.ofMode a.session.mode
    let after (d : Drive δ α e.unknowns) : Analysis δ α := { a with
      engine := some ⟨e.unknowns, d.engine⟩
      seed := d.seed
      last := d.last.or a.last }
    match Drive.run options context solveType drive with
    | .ok code d =>
      set { after d with
        session := { a.session with firstSolveComplete := true }
        lastCode := code }
      return code
    | .error stop d =>
      set (after d)
      throw stop

/-- One Newton iteration from the solution at hand.  The code is zero while nothing is decided. -/
def step : Step (Analysis δ α) Int := do
  ensureBuilt
  let (status, outcome) ← onEngine do
    if (← get).newton.status.isDecided then
      Engine.modifyNewton Newton.reset
    let status ← Engine.advance
    return (status, (← get).newton.outcome)
  modify fun a ↦ { a with
    last := some outcome
    lastCode := outcome.code
    session := { a.session with
      firstSolveComplete := a.session.firstSolveComplete || status.isDecided } }
  return outcome.code

/-- Makes sure that the Jacobian at the solution is there. -/
def ensureJacobian {n : Nat} : Step (Engine δ α n) Unit := do
  unless ← Engine.onRig Rig.computeJacobian do
    Step.fault (.solve "jacobian load failed")

/-- `J v` at the solution, into a vector of the given length. -/
def applyJacobian (v : Array α) (length : Nat) : Step (Analysis δ α) (Array α) :=
  onEngine do
    ensureJacobian
    let e ← get
    return (← Step.orFault (e.iterate.applyJacobian e.rig.store v length)).toArray

/-- `Jᵀ v` at the solution, into a vector of the given length. -/
def applyTranspose (v : Array α) (length : Nat) : Step (Analysis δ α) (Array α) :=
  onEngine do
    ensureJacobian
    let e ← get
    return (← Step.orFault (e.iterate.applyTranspose e.rig.store v length)).toArray

end Analysis

end OperatingPoint
