import OperatingPoint.Options
import OperatingPoint.Reduction

/-!
# The convergence battery

A fixed sequence of tests is put to an iterate, and the first that decides has the last word:

0. numbers that are not finite;
1. a residual that is nothing but rounding;
2. an update and a residual that are both small enough;
3. the end of the budget of a transient, with rates that may still be acceptable;
4. an update too small to go on with;
5. the end of the budget of a steady state;
6. growth of the residual since the first iterate;
7. stagnation of the rate in a transient.

A failed inner solve is a failure after test 0, and devices that have not converged put the tests
off, while there is budget.

An update that is exactly zero says nothing about the iterate.  Then, and only then, the battery
asks for the Newton direction at the iterate and judges that instead.  `needsDirection` tells when
it will ask, and `check` takes the answer.
-/

set_option autoImplicit false

namespace OperatingPoint

/-- What the battery sees of an iteration. -/
structure Snapshot (α : Type) where
  /-- Zero for the initial guess. -/
  iteration : Nat
  x : Array α
  /-- The iterate before the last update. -/
  previousIterate : Array α
  /-- The solution of the previous point. -/
  previousPoint : Array α
  residual : Array α
  devicesConverged : Bool
  innerSolveFailed : Bool

/-- The battery, with what it remembers of the iterations since its last reset. -/
structure Battery (α : Type) where
  communicator : Communicator α
  options : NewtonOptions α
  codes : CodeTable
  transient : Bool
  firstNorm : Option α
  lastNorm : Option α
  maxResidual : α
  maxIndex : Nat
  /-- Weighted norm of the last update. -/
  wrms : α
  /-- The residual norm over that of the iteration before. -/
  rate : α
  /-- The residual norm over the first. -/
  relativeRate : α
  /-- How many iterations in a row have stagnated. -/
  stagnant : Nat

namespace Battery

variable {α : Type} [Scalar α]

/-- A battery without memory. -/
def new (communicator : Communicator α) (options : NewtonOptions α) (codes : CodeTable)
    (transient : Bool) : Battery α where
  communicator := communicator
  options := options
  codes := codes
  transient := transient
  firstNorm := none
  lastNorm := none
  maxResidual := Scalar.infinity
  maxIndex := 0
  wrms := Scalar.infinity
  rate := 1
  relativeRate := 1
  stagnant := 0

/-- Forgets everything. -/
def reset (b : Battery α) : Battery α := new b.communicator b.options b.codes b.transient

def code (b : Battery α) (s : Status) : Int := b.codes.statusCode s

/-- Records the norms of a residual. -/
def record (b : Battery α) (residual : Array α) : Battery α :=
  let (greatest, index) := b.communicator.maxAbs residual
  let two := b.communicator.norm2 residual
  let first := b.firstNorm.getD two
  { b with
    maxResidual := greatest
    maxIndex := index
    firstNorm := some first
    rate :=
      match b.lastNorm with
      | some last => if 0 < last then two / last else 1
      | none => 1
    relativeRate := if 0 < first then two / first else 0
    lastNorm := some two }

/-- The tests that come before any norm of an update is needed: a decision, or nothing yet. -/
def screen (b : Battery α) (snap : Snapshot α) : Battery α × Option Status :=
  let o := b.options
  if !b.communicator.allFinite snap.residual || !b.communicator.allFinite snap.x then
    ({ b with maxResidual := Scalar.undefined }, some (.failed .nanFail))
  else if o.twoLevel && snap.innerSolveFailed then (b, some (.failed .innerSolveFailed))
  else
    let b := b.record snap.residual
    if o.checkDeviceConvergence && !snap.devicesConverged
        && decide (snap.iteration < o.maxSteps) then
      (b, some .unconverged)
    else if b.maxResidual < o.rhsTol ∧ b.maxResidual < o.machPrecTol then
      (b, some (.converged .normTooSmall))
    else (b, none)

/-- Weighted norm of a move from an iterate. -/
def weigh (b : Battery α) (snap : Snapshot α) (move : Array α) : Except Stop α :=
  b.communicator.weighted move snap.x snap.previousPoint b.options.absTol b.options.relTol

/-- The last update, as far as both iterates go. -/
def update (snap : Snapshot α) : Array α := Array.zipWith (· - ·) snap.x snap.previousIterate

/-- Whether the battery will ask for the Newton direction at the iterate. -/
def needsDirection (b : Battery α) (snap : Snapshot α) : Bool :=
  match b.screen snap with
  | (b, none) =>
    match b.weigh snap (update snap) with
    | .ok w => decide (0 < snap.iteration) && w == 0
    | .error _ => false
  | _ => false

/-- The tests after those on the update. -/
def conclude (b : Battery α) (iteration : Nat) : Battery α × Status :=
  let o := b.options
  let spent := decide (o.maxSteps ≤ iteration)
  if b.transient && spent then
    if b.rate ≤ o.maxConvergenceRate ∧ b.relativeRate ≤ o.maxRelativeConvergenceRate then
      (b, .converged .nearConvergence)
    else (b, .failed .tooManySteps)
  else if 0 < iteration ∧ iteration < o.maxSteps ∧ b.wrms < o.smallUpdateTol then
    (b, if b.transient then .converged .smallUpdate else .unconverged)
  else if !b.transient && spent then (b, .failed .tooManySteps)
  else if o.maxNormFRatio < b.relativeRate then (b, .failed .updateTooBig)
  else if b.transient && decide (0 < iteration) then
    let stagnates := decide (Scalar.abs (b.rate - 1) < o.stagnationTolerance)
    let b := { b with stagnant := if stagnates then b.stagnant + 1 else 0 }
    if o.stagnationSteps ≤ b.stagnant then
      if b.relativeRate ≤ o.maxRelativeConvergenceRate then (b, .converged .nearConvergence)
      else (b, .failed .stalled)
    else (b, .unconverged)
  else (b, .unconverged)

/-- The tests on an update of known weighted norm, and those after it. -/
def judge (b : Battery α) (iteration : Nat) (wrms : α) : Battery α × Status :=
  let b := { b with wrms := wrms }
  if wrms < b.options.deltaXTol ∧ b.maxResidual < b.options.rhsTol then
    (b, .converged .normalConvergence)
  else b.conclude iteration

/-- Puts the tests to an iterate.  `direction` is the answer to a request for the Newton direction:
none if there is none.  A stop in getting it stops the check, with the norms recorded. -/
def check (b : Battery α) (snap : Snapshot α) (direction : Except Stop (Option (Array α))) :
    Battery α × Except Stop Status :=
  match b.screen snap with
  | (b, some status) => (b, .ok status)
  | (b, none) =>
    if snap.iteration = 0 then
      let (b, status) := b.conclude 0
      (b, .ok status)
    else
      match b.weigh snap (update snap) with
      | .error e => (b, .error e)
      | .ok wrms =>
        if wrms == 0 then
          match direction with
          | .error e => (b, .error e)
          | .ok none => ({ b with wrms := 0 }, .ok (.failed .wrmsExactZero))
          | .ok (some d) =>
            if 0 < b.communicator.normInf d then
              match b.weigh snap d with
              | .error e => (b, .error e)
              | .ok wrms =>
                let (b, status) := b.judge snap.iteration wrms
                (b, .ok status)
            else ({ b with wrms := 0 }, .ok (.failed .wrmsExactZero))
        else
          let (b, status) := b.judge snap.iteration wrms
          (b, .ok status)

end Battery

end OperatingPoint
