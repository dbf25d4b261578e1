import OperatingPoint.Device
import OperatingPoint.Scalar.Machine

/-!
# Circuits of elementary terms

A small device layer.  A circuit is a list of terms, each of which adds an elementary function of
one or two unknowns to a row of the residual and its derivatives to the Jacobian.  A term may be
scaled by a parameter.  Loads can be made to fail beyond a threshold, and devices to report that
they have not converged, or that a nested solve failed, depending on how many residuals have been
loaded.

A term or a threshold may name an unknown that is not there.  The first load that comes to it breaks
the circuit: this load fails, and so does every later one, and there is no report any more.

A circuit records what is asked of it, so that an engine can be observed from below.
-/

set_option autoImplicit false

namespace OperatingPoint

/-- The elementary functions, of `y = x[column]`. -/
inductive TermKind where
  /-- `s` -/
  | const
  /-- `s y` -/
  | lin
  /-- `s (y - y')`, with `y'` the value at the previous point -/
  | prev
  /-- `s y ^ k` -/
  | pow
  /-- `s (exp (y / a) - 1)` -/
  | exp
  /-- `s arctan (y - a)` -/
  | atan
  /-- `s y z`, with `z = x[column2]` -/
  | mul
  /-- `s √y` -/
  | sqrt
  deriving DecidableEq, Repr

/-- A term of a circuit equation. -/
structure Term where
  row : Nat
  kind : TermKind
  scale : Float := 1.0
  column : Nat := 0
  column2 : Nat := 0
  exponent : Nat := 0
  a : Float := 1.0
  /-- The parameter that the scale is multiplied by. -/
  parameter : Option String := none

/-- Whether the unknowns that a term names are among `n`. -/
def Term.fits (t : Term) (n : Nat) : Bool :=
  decide (t.row < n ∧ t.column < n ∧ (t.kind = .mul → t.column2 < n))

/-- An unknown and a value above which a load fails. -/
structure Threshold where
  column : Nat
  above : Float

/-- Whether the unknown of a threshold is among `n`. -/
def Threshold.fits (t : Threshold) (n : Nat) : Bool := decide (t.column < n)

/-- What was asked of a circuit since its last report. -/
structure CircuitEvents where
  residualLoads : Nat := 0
  jacobianLoads : Nat := 0
  /-- Parameter writes, equal ones in a row taken together with their number; the latest first. -/
  writes : List (String × Float × Nat) := []
  /-- The accepted points, the latest first. -/
  accepted : List (Array Float) := []
  abandoned : Nat := 0

structure Circuit where
  unknowns : Nat
  terms : List Term
  parameters : List (String × Float) := []
  /-- Parameters that are taken and forgotten. -/
  writeOnly : List String := []
  names : List (String × Nat) := []
  /-- The unknowns that are node voltages; all of them if there is no list. -/
  voltage : Option (List Nat) := none
  failResidual : Option Threshold := none
  failJacobian : Option Threshold := none
  /-- The devices have converged from this number of residual loads on. -/
  convergedFrom : Nat := 0
  /-- Nested solves fail from this number of residual loads on. -/
  innerFailFrom : Option Nat := none
  /-- Whether the circuit records anything. -/
  recording : Bool := true
  totalResidualLoads : Nat := 0
  /-- Whether a load came to an unknown that is not there. -/
  broken : Bool := false
  events : CircuitEvents := {}

namespace Circuit

/-- A circuit of one unknown with the equation `x = 3`. -/
def bare : Circuit where
  unknowns := 1
  terms := [{ row := 0, kind := .lin }, { row := 0, kind := .const, scale := -3.0 }]
  recording := false

/-- The value that a term is scaled by. -/
def scaleOf (c : Circuit) (t : Term) : Float :=
  match t.parameter with
  | some name => t.scale * (c.parameters.lookup name).getD 1.0
  | none => t.scale

/-- `y` multiplied by itself. -/
def power (y : Float) (k : Nat) : Float := Nat.repeat (· * y) k 1.0

/-- The value of a term. -/
def value (c : Circuit) (x previous : Array Float) (t : Term) : Float :=
  let s := c.scaleOf t
  let y := x.getD t.column 0.0
  match t.kind with
  | .const => s
  | .lin => s * y
  | .prev => s * (y - previous.getD t.column 0.0)
  | .pow => s * power y t.exponent
  | .exp => s * (Float.exp (y / t.a) - 1.0)
  | .atan => s * Float.atan (y - t.a)
  | .mul => s * y * x.getD t.column2 0.0
  | .sqrt => s * Float.sqrt y

/-- The derivatives of a term, each with its column. -/
def slopes (c : Circuit) (x : Array Float) (t : Term) : List (Nat × Float) :=
  let s := c.scaleOf t
  let y := x.getD t.column 0.0
  match t.kind with
  | .const => []
  | .lin => [(t.column, s)]
  | .prev => [(t.column, s)]
  | .pow =>
    [(t.column,
      if t.exponent = 0 then 0.0
      else s * Float.ofNat t.exponent * power y (t.exponent - 1))]
  | .exp => [(t.column, s * Float.exp (y / t.a) / t.a)]
  | .atan => [(t.column, s / (1.0 + (y - t.a) * (y - t.a)))]
  | .mul => [(t.column, s * x.getD t.column2 0.0), (t.column2, s * y)]
  | .sqrt => [(t.column, s * 0.5 / Float.sqrt y)]

/-- Whether a load fails at `x`. -/
def fails (threshold : Option Threshold) (x : Array Float) : Bool :=
  threshold.any fun t ↦ decide (t.above < x.getD t.column 0.0)

/-- What a load leaves that came to an unknown that is not there. -/
def breaks {β : Type} (c : Circuit) (buffer : β) : Load Circuit β :=
  ⟨false, buffer, { c with broken := true }⟩

/-- Adds to an entry, if there is such an entry. -/
def addAt {n : Nat} (f : Vector Float n) (i : Nat) (v : Float) : Vector Float n :=
  if h : i < n then f.set i (f[i] + v) else f

/-- Adds to an entry of a matrix, if there is such an entry. -/
def addEntry {n : Nat} (A : Mat Float n n) (i j : Nat) (v : Float) : Mat Float n n :=
  if h : i < n ∧ j < n then A.set ⟨i, h.1⟩ ⟨j, h.2⟩ (A ⟨i, h.1⟩ ⟨j, h.2⟩ + v) else A

/-- Notes an event, if the circuit records. -/
def note (c : Circuit) (change : CircuitEvents → CircuitEvents) : Circuit :=
  if c.recording then { c with events := change c.events } else c

def loadResidual {n : Nat} (c : Circuit) (x previous buffer : Vector Float n) :
    Load Circuit (Vector Float n) :=
  let c := { c with totalResidualLoads := c.totalResidualLoads + 1 }
  let c := c.note fun e ↦ { e with residualLoads := e.residualLoads + 1 }
  if c.broken || !c.failResidual.all (·.fits n) then c.breaks buffer
  else if fails c.failResidual x.toArray then ⟨false, buffer, c⟩
  else if !c.terms.all (·.fits n) then c.breaks buffer
  else
    let f := c.terms.foldl (fun f t ↦ addAt f t.row (c.value x.toArray previous.toArray t))
      (Vector.replicate n 0.0)
    ⟨true, f, c⟩

def loadJacobian {n : Nat} (c : Circuit) (x : Vector Float n) (buffer : Mat Float n n) :
    Load Circuit (Mat Float n n) :=
  let c := c.note fun e ↦ { e with jacobianLoads := e.jacobianLoads + 1 }
  if c.broken || !c.failJacobian.all (·.fits n) then c.breaks buffer
  else if fails c.failJacobian x.toArray then ⟨false, buffer, c⟩
  else if !c.terms.all (·.fits n) then c.breaks buffer
  else
    let A := c.terms.foldl (fun A t ↦
      (c.slopes x.toArray t).foldl (fun A slope ↦ addEntry A t.row slope.1 slope.2) A) buffer
    ⟨true, A, c⟩

/-- A write added to those recorded. -/
def recordWrite (name : String) (value : Float) :
    List (String × Float × Nat) → List (String × Float × Nat)
  | (last, v, count) :: rest =>
    if last = name ∧ v == value then (last, v, count + 1) :: rest
    else (name, value, 1) :: (last, v, count) :: rest
  | [] => [(name, value, 1)]

def setParameter (c : Circuit) (name : String) (value : Float) : Bool × Circuit :=
  let c := c.note fun e ↦ { e with writes := recordWrite name value e.writes }
  if (c.parameters.lookup name).isSome then
    (true, { c with
      parameters := c.parameters.map fun p ↦ if p.1 = name then (name, value) else p })
  else (c.writeOnly.contains name, c)

/-- What was recorded, and the circuit with nothing recorded. -/
def report (c : Circuit) : Except Stop (CircuitEvents × Circuit) :=
  if c.broken then .error .breach else .ok (c.events, { c with events := {} })

end Circuit

instance Circuit.instDevice : Device Circuit Float where
  unknowns := Circuit.unknowns
  loadResidual := Circuit.loadResidual
  loadJacobian c x _ A := Circuit.loadJacobian c x A
  setParameter := Circuit.setParameter
  parameter? c name := c.parameters.lookup name
  voltageUnknowns := Circuit.voltage
  unknown? c name := c.names.lookup name
  devicesConverged c := decide (c.convergedFrom ≤ c.totalResidualLoads)
  innerSolveFailed c := c.innerFailFrom.any fun k ↦ decide (k ≤ c.totalResidualLoads)
  accept c x := c.note fun e ↦ { e with accepted := x :: e.accepted }
  abandon c := c.note fun e ↦ { e with abandoned := e.abandoned + 1 }

end OperatingPoint
