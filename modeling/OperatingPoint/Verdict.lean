/-!
# Verdicts and their codes

What a convergence check can decide, and the signed code that each verdict is reported by.  A
positive code is a success, zero means that nothing is decided yet, a negative code is a failure.
The table of codes is configurable; a continuation that does not come to its end has a fixed code.
-/

set_option autoImplicit false

namespace OperatingPoint

/-- What a convergence check decides. -/
inductive Verdict where
  | normTooSmall
  | normalConvergence
  | nearConvergence
  | smallUpdate
  | tooManySteps
  | updateTooBig
  | stalled
  | wrmsExactZero
  | innerSolveFailed
  | nanFail
  deriving DecidableEq, Repr

/-- The verdicts, in order. -/
def Verdict.all : List Verdict :=
  [.normTooSmall, .normalConvergence, .nearConvergence, .smallUpdate, .tooManySteps, .updateTooBig,
    .stalled, .wrmsExactZero, .innerSolveFailed, .nanFail]

/-- The name a verdict is reported by. -/
def Verdict.name : Verdict → String
  | normTooSmall => "NormTooSmall"
  | normalConvergence => "NormalConvergence"
  | nearConvergence => "NearConvergence"
  | smallUpdate => "SmallUpdate"
  | tooManySteps => "TooManySteps"
  | updateTooBig => "UpdateTooBig"
  | stalled => "Stalled"
  | wrmsExactZero => "WrmsExactZero"
  | innerSolveFailed => "InnerSolveFailed"
  | nanFail => "NanFail"

/-- Where an iteration stands. -/
inductive Status where
  | unconverged
  | converged (verdict : Verdict)
  | failed (verdict : Verdict)
  deriving DecidableEq, Repr

namespace Status

def isDecided : Status → Bool
  | unconverged => false
  | _ => true

def verdict? : Status → Option Verdict
  | unconverged => none
  | converged v => some v
  | failed v => some v

/-- The status in words. -/
def describe : Status → String
  | unconverged => "Unconverged"
  | converged v => "Converged(" ++ v.name ++ ")"
  | failed v => "Failed(" ++ v.name ++ ")"

end Status

/-- The code of each verdict. -/
structure CodeTable where
  normTooSmall : Int := 1
  normalConvergence : Int := 2
  nearConvergence : Int := 3
  smallUpdate : Int := 4
  tooManySteps : Int := -1
  updateTooBig : Int := -2
  stalled : Int := -3
  wrmsExactZero : Int := -4
  innerSolveFailed : Int := -5
  nanFail : Int := -6
  deriving DecidableEq, Repr

namespace CodeTable

/-- The code of any continuation that did not come to its end. -/
def continuationFailed : Int := -1

def code (t : CodeTable) : Verdict → Int
  | .normTooSmall => t.normTooSmall
  | .normalConvergence => t.normalConvergence
  | .nearConvergence => t.nearConvergence
  | .smallUpdate => t.smallUpdate
  | .tooManySteps => t.tooManySteps
  | .updateTooBig => t.updateTooBig
  | .stalled => t.stalled
  | .wrmsExactZero => t.wrmsExactZero
  | .innerSolveFailed => t.innerSolveFailed
  | .nanFail => t.nanFail

/-- The code of a status, zero while nothing is decided. -/
def statusCode (t : CodeTable) (s : Status) : Int := s.verdict?.elim 0 t.code

def isSuccess (code : Int) : Bool := decide (0 < code)

/-- Whether a caller may still accept the iterate of a failure. -/
def isBorderline (t : CodeTable) (code : Int) : Bool := code == t.stalled || code == t.wrmsExactZero

end CodeTable

end OperatingPoint
