import OperatingPoint.Newton

/-!
# Stepping a parameter

Natural continuation takes a parameter from its start to its end and solves at every point, each
time from the last accepted solution.  The *lead* parameter is stepped; coupled parameters move by
the same fraction of their own ranges.

After a solve that converges the step grows.  After one that does not, the solution and the
parameters go back to the last accepted point and the step is halved.  A stepper ends at the end
value, when the step has become too small, and when its attempts are used up.
-/

set_option autoImplicit false

namespace OperatingPoint

/-- The straight way of a parameter from its start to its end. -/
structure ParameterPath (α : Type) where
  name : String
  start : α
  stop : α
  deriving Repr

/-- The value at a fraction of the way. -/
def ParameterPath.at {α : Type} [Scalar α] (p : ParameterPath α) (fraction : α) : α :=
  p.start + fraction * (p.stop - p.start)

/-- How a continuation ended. -/
inductive ContinuationStatus where
  /-- With a solution at the end value. -/
  | finished
  /-- With a step too small, or without a solution at the start. -/
  | failed
  /-- With the attempts used up. -/
  | maxSteps
  deriving DecidableEq, Repr

/-- The name a status is reported by. -/
def ContinuationStatus.name : ContinuationStatus → String
  | finished => "Finished"
  | failed => "Failed"
  | maxSteps => "MaxSteps"

/-- What a continuation hands back. -/
structure ContinuationReport (α : Type) where
  status : ContinuationStatus
  /-- Accepted points, with the start. -/
  accepted : Nat
  rejected : Nat
  /-- The lead value of the last accepted point. -/
  value : α
  /-- The outcome of the last solve. -/
  last : Option (Outcome α)
  deriving Repr

def ContinuationReport.finished {α : Type} (r : ContinuationReport α) : Bool :=
  r.status == .finished

/-- A lead parameter with a known end, and the parameters coupled to it. -/
structure Stepper (α : Type) where
  lead : Sweep α
  stop : α
  coupled : List (ParameterPath α) := []

namespace Stepper

variable {δ α : Type} [Scalar α] [DirectSolver α] {n : Nat}

/-- The part of its way that the lead has gone at a value.  A way of no length is all gone. -/
def fraction (s : Stepper α) (value : α) : α :=
  let span := s.stop - s.lead.start
  if span == 0 then 1 else (value - s.lead.start) / span

/-- The direction of the way. -/
def direction (s : Stepper α) : α := if s.lead.start ≤ s.stop then 1 else -1

/-- Sets the lead to a value, and the coupled parameters to what goes with it. -/
def setAll (s : Stepper α) (value : α) (t : Track α n) : Track α n :=
  s.coupled.foldl (fun t path ↦ t.setParameter path.name (path.at (s.fraction value)))
    (t.setParameter s.lead.name value)

/-- The value one step further, or the end if it is not beyond that. -/
def next (s : Stepper α) (value step : α) : α :=
  let ahead := value + s.direction * step
  if 0 ≤ s.direction * (ahead - s.stop) then s.stop else ahead

variable [Device δ α]

/-- Solves at a lead value, and tells the device layer what came of it. -/
def solveAt (s : Stepper α) (value : α) : Step (Engine δ α n) (Outcome α) := do
  Engine.modifyTrack (s.setAll value)
  let outcome ← Engine.solve
  if outcome.converged then Engine.onRig Rig.succeed else Engine.onRig Rig.fail
  return outcome

/-- Attempts points, at most `attempts` of them, from the last accepted solution `x` and what has
been reported on it. -/
def attempt (s : Stepper α) : (attempts : Nat) → (step : α) → (x : Vector α n) →
    ContinuationReport α → Step (Engine δ α n) (ContinuationReport α)
  | 0, _, _, report => return { report with status := .maxSteps }
  | attempts + 1, step, x, report => do
    let value := s.next report.value step
    let outcome ← s.solveAt value
    if outcome.converged then
      let report := { report with
        accepted := report.accepted + 1
        value := value
        last := some outcome }
      if value == s.stop then return { report with status := .finished }
      else
        let x := (← get).iterate.x
        attempt s attempts (Scalar.min (step * s.lead.growthFactor) s.lead.maxStep) x report
    else
      Engine.modifyTrack fun t ↦ s.setAll report.value (t.setX x)
      let report := { report with rejected := report.rejected + 1, last := some outcome }
      let step := step * 0.5
      if step < s.lead.minStep then return { report with status := .failed }
      else attempt s attempts step x report

/-- Runs the continuation.  Forwarding is turned on, and left on. -/
def run (s : Stepper α) : Step (Engine δ α n) (ContinuationReport α) := do
  Engine.modifyTrack fun t ↦ t.setForwarding true
  let start := s.lead.start
  let outcome ← s.solveAt start
  let report : ContinuationReport α := ⟨.failed, 0, 0, start, some outcome⟩
  if !outcome.converged then return report
  let report := { report with accepted := 1 }
  if start == s.stop then return { report with status := .finished }
  let step := Scalar.min (Scalar.abs s.lead.initialStep) s.lead.maxStep
  attempt s s.lead.maxSteps step (← get).iterate.x report

end Stepper

end OperatingPoint
