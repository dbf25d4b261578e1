import OperatingPoint.Fault

/-!
# Steps

A *step* is a computation on a state that may stop before its end.  When it stops, the state it has
reached by then stays: a caller that goes on after a fault goes on from there.

Besides faults there are two more ways to stop.  A *breach* is the end of a run: a length or an
index that the caller promised is not the one that was promised.  An *endless* loop is one that was
cut off because its state had stopped moving.
-/

set_option autoImplicit false

namespace OperatingPoint

/-- Why a step did not come to its end. -/
inductive Stop where
  | fault (cause : Fault)
  /-- A promise about lengths or indices is broken. -/
  | breach
  /-- A loop made no headway. -/
  | endless
  deriving DecidableEq, Repr

/-- A result that may be a fault, as one that may be a stop. -/
def Stop.ofFault {β : Type} : Except Fault β → Except Stop β
  | .ok b => .ok b
  | .error cause => .error (.fault cause)

/-- A step on states `σ` with results in `β`. -/
abbrev Step (σ β : Type) := EStateM Stop σ β

namespace Step

variable {σ τ β : Type}

/-- Stops with a fault. -/
def fault (cause : Fault) : Step σ β := throw (.fault cause)

/-- A result that may be a stop, as a step. -/
def lift : Except Stop β → Step σ β
  | .ok b => pure b
  | .error e => throw e

/-- A result that may be a fault, as a step. -/
def orFault : Except Fault β → Step σ β
  | .ok b => pure b
  | .error cause => fault cause

/-- A step on a part of the state.  The part is written back whether or not the step stops. -/
def zoom (part : σ → τ) (put : σ → τ → σ) (act : Step τ β) : Step σ β := fun s ↦
  match act (part s) with
  | .ok b t => .ok b (put s t)
  | .error e t => .error e (put s t)

/-- Runs a step and hands back how it ended; this step itself always comes to its end. -/
def attempt (act : Step σ β) : Step σ (Except Stop β) := fun s ↦
  match act s with
  | .ok b t => .ok (.ok b) t
  | .error e t => .ok (.error e) t

end Step

end OperatingPoint
