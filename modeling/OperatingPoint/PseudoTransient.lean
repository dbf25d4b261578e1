import OperatingPoint.Newton

/-!
# The march in pseudo-time

A march takes steps of implicit Euler in pseudo-time: Newton steps on a system whose Jacobian has
the inverse of the step on its diagonal.  The term comes from the attached strategy; the march
controls the step and decides when the residual is small enough for Newton.

A step that leads to where the residual cannot be loaded, or is not finite, is taken back and the
step in pseudo-time is halved.  Between two accepted steps there are no more such cuts than halvings
from the step to its lower bound, and one for the cut at the bound; a march that has made them all
stands still.
-/

set_option autoImplicit false

namespace OperatingPoint

/-- How a march ended. -/
inductive MarchStatus where
  /-- The residual is small enough for Newton. -/
  | switched
  /-- The step is so large that the march is Newton's iteration already. -/
  | maxPseudoStep
  /-- The steps are used up. -/
  | maxSteps
  /-- There is no usable step. -/
  | failed
  deriving DecidableEq, Repr

/-- The name a status is reported by. -/
def MarchStatus.name : MarchStatus → String
  | switched => "Switched"
  | maxPseudoStep => "MaxPseudoStep"
  | maxSteps => "MaxSteps"
  | failed => "Failed"

/-- What a march hands back. -/
structure MarchReport (α : Type) where
  status : MarchStatus
  /-- Accepted steps. -/
  steps : Nat
  finalStep : α
  maxResidual : α
  deriving Repr

namespace March

variable {δ α : Type} [Scalar α] [DirectSolver α] {n : Nat} [Device δ α]

/-- A report on a march that ends here. -/
def reportAt (status : MarchStatus) (steps : Nat) (maxResidual : α) :
    Step (Rig δ α n) (MarchReport α) := do
  let step := ((← get).track.progress).getD Scalar.undefined
  return ⟨status, steps, step, maxResidual⟩

/-- Whether there is a residual here, and it is finite. -/
def evaluates : Step (Rig δ α n) Bool := do
  if ← Rig.computeResidual then return (← get).track.iterate.measured.isFinite
  else return false

/-- Takes a change of the step in pseudo-time that may be refused. -/
def changeStep (change : Track α n → Except Fault (Track α n)) : Step (Rig δ α n) Unit := do
  let r ← get
  let t ← Step.orFault (change r.track)
  set { r with track := t }

/-- Accepts the point that the march is at. -/
def acceptPoint : Step (Rig δ α n) Unit := do
  let norms := (← get).track.iterate.measured.norms?
  changeStep fun t ↦ t.acceptPseudoStep ((norms.map ResidualNorms.two).getD Scalar.undefined)

/-- Halves the step in pseudo-time, and hands back whether there was anything to halve. -/
def cut : Step (Rig δ α n) Bool := do
  let r ← get
  let (t, halved) ← Step.orFault r.track.halvePseudoStep
  set { r with track := t }
  return halved

/-- Tries one step from where the march is.  A step that does not evaluate is taken back. -/
def tryStep : Step (Rig δ α n) Bool := do
  let base := (← get).track.x
  let solved ←
    if ← Rig.computeJacobian then Rig.computeNewton false else pure false
  let taken ←
    if solved then do
      let r ← get
      let d ← Step.orFault (r.track.iterate.newton r.store)
      Rig.modifyIterate fun it ↦ it.moveAlong base d 1
      evaluates
    else pure false
  if !taken then Rig.modifyTrack fun t ↦ t.setX base
  return taken

/-- What becomes of a march before its next step: its end, or the residual norm it goes on from. -/
def survey (options : MarchOptions α) (steps : Nat) : Step (Rig δ α n) (MarchReport α ⊕ α) := do
  if !(← evaluates) then return .inl (← reportAt .failed steps Scalar.undefined)
  let norms := (← get).track.iterate.measured.norms?
  let greatest := (norms.map ResidualNorms.max).getD Scalar.undefined
  if steps = 0 then acceptPoint
  if greatest < options.switchTol then return .inl (← reportAt .switched steps greatest)
  if (← get).track.progress.any fun step ↦ decide (options.maxStep ≤ step) then
    return .inl (← reportAt .maxPseudoStep steps greatest)
  return .inr greatest

/-- The number of cuts that a march can make before its next accepted step, and one more. -/
def cutBudget (r : Rig δ α n) : Nat :=
  match r.track.pseudoTime? with
  | .ok p => Scalar.halvings p.step p.minStep + Scalar.halvings p.maxStep p.minStep + 2
  | .error _ => 1

/-- Halves the step until one is accepted, in `tries` tries at most.  Hands back the end of the
march, or the residual norm where the accepted step was taken. -/
def stepOrCut (options : MarchOptions α) (steps : Nat) : (tries : Nat) →
    Step (Rig δ α n) (MarchReport α ⊕ α)
  | 0 => throw .endless
  | tries + 1 => do
    match ← survey options steps with
    | .inl report => return .inl report
    | .inr greatest =>
      if ← tryStep then
        acceptPoint
        return .inr greatest
      else if ← cut then stepOrCut options steps tries
      else return .inl (← reportAt .failed steps greatest)

/-- Marches on after `steps` accepted steps, for at most `budget` more.  The residual norm where the
last accepted step was taken is `greatest`. -/
def marchFrom (options : MarchOptions α) : (budget steps : Nat) → (greatest : α) →
    Step (Rig δ α n) (MarchReport α)
  | 0, steps, greatest => reportAt .maxSteps steps greatest
  | budget + 1, steps, _ => do
    match ← stepOrCut options steps (cutBudget (← get)) with
    | .inl report => return report
    | .inr greatest => marchFrom options budget (steps + 1) greatest

/-- Marches until one of the ends is reached. -/
def run (options : MarchOptions α) : Step (Rig δ α n) (MarchReport α) :=
  marchFrom options options.maxSteps 0 Scalar.infinity

end March

end OperatingPoint
