import OperatingPoint.Analysis

/-!
# What can be asked of an analysis

The operations of an analysis as data, each with the type of its answer.  A history of an analysis
is a list of such commands, and what is said of every analysis that is ever reached is said of
`perform`.
-/

set_option autoImplicit false

namespace OperatingPoint

namespace Analysis

/-- A command, with the type of its answer. -/
inductive Command (α : Type) : Type → Type where
  /-- A whole solve, which answers its code. -/
  | solve : Command α Int
  /-- One Newton iteration, which answers the code so far. -/
  | step : Command α Int
  | setMode (mode : Mode) : Command α Unit
  | resetSession : Command α Unit
  | setInitialConditions (conditions : InitialConditions α) : Command α Unit
  | setSeed (seed : InitialConditions α) : Command α Unit
  | setSolution (x : Array α) : Command α Unit
  | setPrevious (x : Array α) : Command α Unit
  | setTimePoint (time : α) (stepNumber : Nat) : Command α Unit
  | applyJacobian (v : Array α) (length : Nat) : Command α (Array α)
  | applyTranspose (v : Array α) (length : Nat) : Command α (Array α)

variable {δ α : Type} [Scalar α] [DirectSolver α] [Device δ α]

/-- Carries out a command. -/
def perform {β : Type} : Command α β → Step (Analysis δ α) β
  | .solve => solve
  | .step => step
  | .setMode mode => modify fun a ↦ a.setMode mode
  | .resetSession => modify resetSession
  | .setInitialConditions conditions => setInitialConditions conditions
  | .setSeed seed => setSeed seed
  | .setSolution x => setSolution x
  | .setPrevious x => setPrevious x
  | .setTimePoint time stepNumber => modify fun a ↦ a.setTimePoint time stepNumber
  | .applyJacobian v length => do
    Step.lift (reserve length)
    applyJacobian v length
  | .applyTranspose v length => do
    Step.lift (reserve length)
    applyTranspose v length

end Analysis

end OperatingPoint
