import OperatingPoint.Quantity

/-!
# Faults

A *fault* is a breach of consistency that an operation reports: a mismatch of sizes, a partition of
another system, a quantity asked for before it is valid, an option that cannot be honoured.
Trouble with the numbers themselves, such as a load that fails or a matrix without an inverse, is
never a fault; it is a result.

A fault says what is wrong and nothing else.  The wording is in `Fault.message` alone.
-/

set_option autoImplicit false

namespace OperatingPoint

/-- Why a dense factorisation was refused. -/
inductive FactorFault where
  /-- The matrix is not square. -/
  | notSquare (rows columns : Nat)
  /-- A solve was asked for before any matrix was factored. -/
  | noFactors
  deriving DecidableEq, Repr

/-- Why a set of unknowns does not fit. -/
inductive PartitionFault where
  /-- A member is not an unknown of the system. -/
  | outside (index bound : Nat)
  /-- The set was built for a system of another size. -/
  | otherSystem (what : String) (built system : Nat)
  /-- The device layer does not know the name. -/
  | unknownNode (name : String)
  /-- Two names stand for one unknown. -/
  | sharedUnknown
  /-- The number of values is not that of the unknowns. -/
  | clampCount (values unknowns : Nat)
  deriving DecidableEq, Repr

/-- Why a parameter or a request went to the wrong place. -/
inductive DispatchFault where
  /-- The strategy has nothing to step. -/
  | noProgress (strategy : String)
  /-- The strategy is not a pseudo-transient one. -/
  | notPseudoTransient (strategy : String)
  /-- There is no strategy. -/
  | noStrategy
  /-- A strategy was attached on top of another. -/
  | attached (new old : String)
  /-- The reserved progress parameter is set, and there is no strategy. -/
  | progressUnattached (parameter : String)
  /-- The reserved blend parameter is set, and there is no blend. -/
  | blendUnattached (parameter : String)
  deriving DecidableEq, Repr

/-- Why the options cannot be honoured. -/
inductive ConfigFault where
  /-- The end value of the parameter is neither configured nor known to the device layer. -/
  | noEnd (parameter : String)
  /-- The device layer does not take the parameter. -/
  | rejected (parameter : String)
  /-- A continuation in parameters, of which there are none. -/
  | noParameters (continuation : String)
  /-- Block gain stepping without blocks. -/
  | noBlocks
  /-- The engine was lost in an earlier call. -/
  | tornDown
  deriving DecidableEq, Repr

/-- A breach of consistency. -/
inductive Fault where
  | factor (cause : FactorFault)
  /-- A solve could not be carried out, with the reason in words. -/
  | solve (reason : String)
  /-- The pivot of a row vanishes. -/
  | zeroPivot (row : Nat)
  /-- `wanted` was asked for before `required` was valid. -/
  | prerequisite (wanted required : Quantity)
  /-- The quantity is not valid. -/
  | stale (quantity : Quantity)
  /-- A write to the quantity by a state that does not own it. -/
  | notOwner (quantity : Quantity)
  /-- A computation of the quantity inside its own computation. -/
  | reentrant (what : String)
  | partition (cause : PartitionFault)
  | dispatch (cause : DispatchFault)
  | config (cause : ConfigFault)
  /-- A vector of the wrong length. -/
  | dimension (expected found : Nat)
  deriving DecidableEq, Repr

namespace FactorFault

def message : FactorFault → String
  | notSquare rows columns => s!"LU needs a square matrix, got {rows}x{columns}"
  | noFactors => "solve_cached called before factorization"

end FactorFault

namespace PartitionFault

def message : PartitionFault → String
  | outside index bound => s!"index {index} outside 0..{bound}"
  | otherSystem what built system =>
    s!"{what} partition built for {built} unknowns, system has {system}"
  | unknownNode name => "unknown initial-condition node '" ++ name ++ "'"
  | sharedUnknown => "two initial conditions name the same unknown"
  | clampCount values unknowns => s!"{values} clamp values for {unknowns} clamped unknowns"

end PartitionFault

namespace DispatchFault

def message : DispatchFault → String
  | noProgress strategy => s!"{strategy} has no progress variable"
  | notPseudoTransient strategy => s!"expected pseudo-transient, found {strategy}"
  | noStrategy => "no strategy attached"
  | attached new old => s!"{new} attached while {old} is still attached"
  | progressUnattached parameter => s!"{parameter} set with no strategy attached"
  | blendUnattached parameter => s!"{parameter} set with no homotopy attached"

end DispatchFault

namespace ConfigFault

def message : ConfigFault → String
  | noEnd parameter => s!"no end value for parameter {parameter}"
  | rejected parameter => s!"device layer rejected parameter {parameter}"
  | noParameters continuation => s!"{continuation} continuation with no parameters"
  | noBlocks => "block gain stepping with no block parameters"
  | tornDown => "engine torn down"

end ConfigFault

namespace Fault

/-- The fault in words. -/
def message : Fault → String
  | factor cause => s!"factorization error: {cause.message}"
  | solve reason => s!"solve error: {reason}"
  | zeroPivot row => s!"zero pivot at row {row}"
  | prerequisite wanted required =>
    s!"{wanted.describe} requested before {required.describe} is valid for the current solution"
  | stale quantity => s!"{quantity.describe} is not valid for the current solution"
  | notOwner quantity => s!"write to {quantity.describe} by a state that does not own it"
  | reentrant what => s!"reentrant compute of {what}"
  | partition cause => s!"inconsistent partition: {cause.message}"
  | dispatch cause => s!"invalid dispatch: {cause.message}"
  | config cause => s!"invalid configuration: {cause.message}"
  | dimension expected found => s!"dimension mismatch: expected {expected}, found {found}"

end Fault

end OperatingPoint
