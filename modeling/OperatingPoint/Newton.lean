import OperatingPoint.Battery
import OperatingPoint.Track

/-!
# Newton's iteration

One iteration takes the Jacobian, or keeps the factors of an earlier one, solves for the direction,
follows it all the way or only as far as a line search allows, and puts the new iterate to the
battery.  `Newton.solve` iterates until the battery decides.

The iteration never tries again after a failure.  Trouble with the numbers is a verdict:

* a residual or a Jacobian that cannot be loaded is a `nanFail`;
* a direction that is nothing, or not finite, at an iterate where all is finite means that the
  Jacobian bounds no update: `updateTooBig`;
* a direction that an iterative solver has left unconverged is followed as it is.

An *engine* is a track at a store with a Newton driver.
-/

set_option autoImplicit false

namespace OperatingPoint

/-- The result of a Newton solve. -/
structure Outcome (α : Type) where
  status : Status
  code : Int
  iterations : Nat
  maxResidual : α
  maxIndex : Nat
  deriving Repr

namespace Outcome

variable {α : Type}

def converged (o : Outcome α) : Bool := CodeTable.isSuccess o.code

end Outcome

/-- A Newton driver between two iterations. -/
structure Newton (α : Type) where
  battery : Battery α
  iteration : Nat := 0
  status : Status := .unconverged
  started : Bool := false

namespace Newton

variable {α : Type} [Scalar α]

def options (w : Newton α) : NewtonOptions α := w.battery.options

/-- Forgets the solve in progress. -/
def reset (w : Newton α) : Newton α := { battery := w.battery.reset }

def outcome (w : Newton α) : Outcome α where
  status := w.status
  code := w.battery.code w.status
  iterations := w.iteration
  maxResidual := w.battery.maxResidual
  maxIndex := w.battery.maxIndex

/-- The part of the expected decrease of the residual norm that a step has to achieve. -/
def sufficientDecrease (α : Type) [Scalar α] : α := 1e-4

/-- Whether a trial at `step` decreases the residual norm enough. -/
def accepts (step old : α) (trial : Measured α) : Bool :=
  trial.norms?.any fun norms ↦
    Scalar.isFinite norms.two && decide (norms.two ≤ (1 - sufficientDecrease α * step) * old)

end Newton

/-- A track at a store with a Newton driver. -/
structure Engine (δ α : Type) [LE α] [DirectSolver α] (n : Nat) where
  rig : Rig δ α n
  newton : Newton α

namespace Engine

variable {δ α : Type} [Scalar α] [DirectSolver α] {n : Nat}

/-- A step on the rig of an engine. -/
def onRig {β : Type} (act : Step (Rig δ α n) β) : Step (Engine δ α n) β :=
  Step.zoom Engine.rig (fun e r ↦ { e with rig := r }) act

/-- A change of the track. -/
def modifyTrack (change : Track α n → Track α n) : Step (Engine δ α n) Unit :=
  modify fun e ↦ { e with rig := { e.rig with track := change e.rig.track } }

/-- A change of the Newton driver. -/
def modifyNewton (change : Newton α → Newton α) : Step (Engine δ α n) Unit :=
  modify fun e ↦ { e with newton := change e.newton }

/-- The iterate of an engine. -/
def iterate (e : Engine δ α n) : Iterate α n := e.rig.track.iterate

/-- Notes where the iteration stands. -/
def finish (status : Status) : Step (Engine δ α n) Status := do
  modifyNewton fun w ↦ { w with status := status }
  return status

variable [Device δ α]

/-- The Newton direction at the iterate as it stands, if there is one. -/
def direction : Step (Engine δ α n) (Option (Array α)) := do
  if !(← onRig Rig.computeJacobian) then return none
  if !(← onRig Rig.computeResidual) then return none
  if !(← onRig (Rig.computeNewton false)) then return none
  let e ← get
  let d ← Step.orFault (e.iterate.newton e.rig.store)
  return some d.toArray

/-- What the battery sees of the iterate, `previous` being the one before it. -/
def snapshot (e : Engine δ α n) (residual previous : Vector α n) : Snapshot α where
  iteration := e.newton.iteration
  x := e.iterate.x.toArray
  previousIterate := previous.toArray
  previousPoint := e.rig.store.previous.toArray
  residual := residual.toArray
  devicesConverged := Device.devicesConverged e.rig.store.device
  innerSolveFailed := Device.innerSolveFailed e.rig.store.device

/-- Puts the iterate to the battery. -/
def classify (previous : Vector α n) : Step (Engine δ α n) Status := do
  let e ← get
  let residual ← Step.orFault (e.iterate.residual e.rig.store)
  let snap := e.snapshot residual previous
  let answer ←
    if e.newton.battery.needsDirection snap then Step.attempt direction else pure (.ok none)
  let (battery, status) := e.newton.battery.check snap answer
  modifyNewton fun w ↦ { w with battery := battery }
  Step.lift status

/-- Starts a solve: evaluates the initial guess. -/
def begin : Step (Engine δ α n) Status := do
  modifyNewton fun w ↦ { w.reset with started := true }
  if ← onRig Rig.computeResidual then
    let status ← classify (← get).iterate.x
    finish status
  else finish (.failed .nanFail)

/-- Halves the step until a trial is accepted or the trials are used up. -/
def backtrack (base direction : Vector α n) (old : α) : (trials : Nat) → (step : α) →
    Step (Engine δ α n) α
  | 0, step => pure step
  | trials + 1, step => do
    if Newton.accepts step old (← get).iterate.measured then return step
    else
      let step := step * 0.5
      modifyTrack fun t ↦ { t with iterate := t.iterate.moveAlong base direction step }
      let _ ← onRig Rig.computeResidual
      backtrack base direction old trials step

/-- Follows a direction from `base`, where the residual norm is `old`, and hands back how far. -/
def lineSearch (base direction : Vector α n) (old : α) : Step (Engine δ α n) α := do
  modifyTrack fun t ↦ { t with iterate := t.iterate.moveAlong base direction 1 }
  let _ ← onRig Rig.computeResidual
  let options := (← get).newton.options
  match options.lineSearch with
  | .full => return 1
  | .backtrack => backtrack base direction old options.maxLineSearchSteps 1

/-- Whether the next iteration keeps the factors at hand. -/
def keepsFactors (e : Engine δ α n) : Bool :=
  match e.newton.options.method with
  | .full => false
  | .chord k =>
    decide (1 < k) && e.newton.iteration % k != 0 && e.rig.store.factorsCurrentFor e.iterate.id

/-- The direction to follow from the iterate: the Newton direction, or what an unconverged linear
solve has left.  If neither is of use, the verdict on that. -/
def usableDirection (reuse : Bool) : Step (Engine δ α n) (Except Verdict (Vector α n)) := do
  let solved ← onRig (Rig.computeNewton reuse)
  let e ← get
  if solved then return .ok (← Step.orFault (e.iterate.newton e.rig.store))
  else
    let partly := e.rig.store.newton
    let c := e.rig.store.communicator
    if !c.allFinite partly.toArray || c.normInf partly.toArray == 0 then
      let finite := e.iterate.measured.isFinite && c.allFinite e.iterate.x.toArray
      return .error (if finite then .updateTooBig else .nanFail)
    else return .ok partly

/-- Moves the iterate along a direction and puts it to the battery. -/
def follow (direction : Vector α n) : Step (Engine δ α n) Status := do
  let e ← get
  let base := e.iterate.x
  let old := (e.iterate.measured.norms?.map ResidualNorms.two).getD Scalar.infinity
  let _ ← lineSearch base direction old
  modifyNewton fun w ↦ { w with iteration := w.iteration + 1 }
  match (← get).iterate.measured.norms? with
  | some norms =>
    if Scalar.isUndefined norms.two then finish (.failed .nanFail)
    else
      let status ← classify base
      finish status
  | none => finish (.failed .nanFail)

/-- One iteration of a solve that is under way and undecided. -/
def iterateOnce : Step (Engine δ α n) Status := do
  let reuse := (← get).keepsFactors
  if !reuse then
    if !(← onRig Rig.computeJacobian) then return ← finish (.failed .nanFail)
  if !(← onRig Rig.computeResidual) then return ← finish (.failed .nanFail)
  match ← usableDirection reuse with
  | .error verdict => finish (.failed verdict)
  | .ok d => follow d

/-- One iteration.  A solve that is not under way is started first; one that is decided stays so. -/
def advance : Step (Engine δ α n) Status := do
  if !(← get).newton.started then
    let status ← begin
    if status.isDecided then return status
  let status := (← get).newton.status
  if status.isDecided then return status
  iterateOnce

/-- Iterates while the battery is undecided, `budget` times at most. -/
def iterateWhile : (budget : Nat) → Status → Step (Engine δ α n) Unit
  | 0, _ => pure ()
  | budget + 1, status =>
    if status.isDecided then pure ()
    else do
      let status ← advance
      iterateWhile budget status

/-- A whole solve.  The battery decides at the latest when the iterations have used up the
budget. -/
def solve : Step (Engine δ α n) (Outcome α) := do
  let status ← begin
  iterateWhile (← get).newton.options.maxSteps status
  return (← get).newton.outcome

end Engine

end OperatingPoint
