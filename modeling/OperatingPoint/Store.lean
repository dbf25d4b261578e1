import OperatingPoint.Device
import OperatingPoint.Linear.Workspace
import OperatingPoint.Reduction

/-!
# The shared store

One analysis has a single residual, Jacobian, Newton direction and gradient, however many iterates
there are.  The store holds them, together with the device layer that fills them and the linear
workspace that factors the Jacobian, and it records which iterate owns each of them.

To write to the store an iterate needs the identity that the store gave it on registration, and it
must own what it writes to or computes from.  A load makes the loader owner of what was loaded; a
load that fails leaves no owner.  The factors in the workspace have an owner of their own: the
iterate whose Jacobian they came from.
-/

set_option autoImplicit false

namespace OperatingPoint

/-- The identity of a registered iterate. -/
abbrev OwnerId := Nat

/-- The owner of each quantity. -/
structure Owners where
  residual : Option OwnerId := none
  jacobian : Option OwnerId := none
  newton : Option OwnerId := none
  gradient : Option OwnerId := none
  auxState : Option OwnerId := none
  deriving DecidableEq, Repr

namespace Owners

def of (o : Owners) : Quantity → Option OwnerId
  | .residual => o.residual
  | .jacobian => o.jacobian
  | .newton => o.newton
  | .gradient => o.gradient
  | .auxState => o.auxState

/-- Gives one quantity an owner, or none. -/
def put (o : Owners) (q : Quantity) (id : Option OwnerId) : Owners :=
  match q with
  | .residual => { o with residual := id }
  | .jacobian => { o with jacobian := id }
  | .newton => { o with newton := id }
  | .gradient => { o with gradient := id }
  | .auxState => { o with auxState := id }

@[simp] theorem of_put (o : Owners) (q q' : Quantity) (id : Option OwnerId) :
    (o.put q id).of q' = if q = q' then id else o.of q' := by
  cases q <;> cases q' <;> rfl

/-- Gives the listed quantities an owner, or none. -/
def putAll (o : Owners) (qs : List Quantity) (id : Option OwnerId) : Owners :=
  qs.foldl (fun o q ↦ o.put q id) o

@[simp] theorem of_putAll (o : Owners) (qs : List Quantity) (id : Option OwnerId) (q : Quantity) :
    (o.putAll qs id).of q = if q ∈ qs then id else o.of q := by
  induction qs generalizing o with
  | nil => simp [putAll]
  | cons head rest ih =>
    have h := ih (o.put head id)
    simp only [putAll, List.foldl_cons] at h ⊢
    rw [h, of_put]
    by_cases hr : q ∈ rest
    · simp [hr]
    · by_cases hh : head = q
      · simp [hh]
      · simp [hr, hh, Ne.symm hh]

end Owners

/-- The shared store of an analysis with `n` unknowns. -/
structure Store (δ α : Type) [DirectSolver α] (n : Nat) where
  device : δ
  communicator : Communicator α
  workspace : Workspace α
  residual : Vector α n
  jacobian : Mat α n n
  newton : Vector α n
  gradient : Vector α n
  /-- The solution of the previous point, which loads depend on. -/
  previous : Vector α n
  owners : Owners := {}
  /-- The iterate whose Jacobian the factors came from. -/
  factorOwner : Option OwnerId := none
  /-- The last identity given out. -/
  lastId : Nat := 0
  /-- The number of Jacobian loads. -/
  jacobianLoads : Nat := 0

namespace Store

variable {δ α : Type} [Scalar α] [DirectSolver α] {n : Nat}

/-- A store for a device layer, with zeros in it and no owners. -/
def new (device : δ) (communicator : Communicator α) (linear : LinearOptions α) (n : Nat) :
    Store δ α n where
  device := device
  communicator := communicator
  workspace := { options := linear }
  residual := zeros α n
  jacobian := Mat.zero α n n
  newton := zeros α n
  gradient := zeros α n
  previous := zeros α n

/-- Insists that a square matrix of `n` rows can be held. -/
def reserveSquare (n : Nat) : Except Stop Unit := reserve (n * n)

/-- A store for a device layer whose number of unknowns comes from outside. -/
def new? (device : δ) (communicator : Communicator α) (linear : LinearOptions α) (n : Nat) :
    Except Stop (Store δ α n) := do
  reserveSquare n
  return new device communicator linear n

/-- Whether an iterate owns every quantity of a set. -/
def owns (s : Store δ α n) (id : OwnerId) (qs : QuantitySet) : Bool :=
  qs.toList.all fun q ↦ s.owners.of q == some id

/-- The quantities that an iterate owns. -/
def ownedBy (s : Store δ α n) (id : OwnerId) : List Quantity :=
  Quantity.all.filter fun q ↦ s.owners.of q == some id

/-- The owner of the first quantity of a set, which must not be empty. -/
def owner (s : Store δ α n) (qs : QuantitySet) : Except Stop (Option OwnerId) :=
  match qs.first? with
  | some q => .ok (s.owners.of q)
  | none => .error .breach

def claim (s : Store δ α n) (id : OwnerId) (qs : List Quantity) : Store δ α n :=
  { s with owners := s.owners.putAll qs (some id) }

def disown (s : Store δ α n) (qs : List Quantity) : Store δ α n :=
  { s with owners := s.owners.putAll qs none }

/-- Gives out a new identity. -/
def register (s : Store δ α n) : OwnerId × Store δ α n :=
  (s.lastId + 1, { s with lastId := s.lastId + 1 })

/-- Moves what one iterate owns, its factors included, to another. -/
def transfer (s : Store δ α n) (source target : OwnerId) : Store δ α n :=
  let moved := s.claim target (s.ownedBy source)
  { moved with
    factorOwner := if s.factorOwner = some source then some target else s.factorOwner }

/-- Takes everything an iterate owns away from it. -/
def release (s : Store δ α n) (id : OwnerId) : Store δ α n :=
  let freed := s.disown (s.ownedBy id)
  { freed with factorOwner := if s.factorOwner = some id then none else s.factorOwner }

/-- Sets the solution of the previous point.  Nothing in the store survives it. -/
def setPrevious (s : Store δ α n) (x : Vector α n) : Store δ α n :=
  { s.disown Quantity.all with previous := x, factorOwner := none }

/-- Whether the factors at hand are those of an iterate's Jacobian. -/
def factorsCurrentFor (s : Store δ α n) (id : OwnerId) : Bool :=
  s.factorOwner == some id && s.workspace.current

/-- A vector that must have as many entries as there are unknowns. -/
def sized (x : Array α) : Except Fault (Vector α n) :=
  if h : x.size = n then .ok ⟨x, h⟩ else .error (.dimension n x.size)

variable [Device δ α]

/-- Loads the residual at `x`. -/
def loadResidual (id : OwnerId) (x : Vector α n) : Step (Store δ α n) Bool := do
  let s ← get
  let load := Device.loadResidual s.device x s.previous s.residual
  let s := { s with device := load.device, residual := load.buffer }
  set (if load.ok then s.claim id [.residual, .auxState] else s.disown [.residual, .auxState])
  return load.ok

/-- Loads the Jacobian at `x`.  The device state must be the iterate's own. -/
def loadJacobian (id : OwnerId) (x : Vector α n) : Step (Store δ α n) Bool := do
  let s ← get
  unless s.owns id Quantity.auxState do
    Step.fault (.prerequisite .jacobian .auxState)
  let load := Device.loadJacobian s.device x s.previous (Mat.zero α n n)
  let s := { s with
    device := load.device
    jacobian := load.buffer
    jacobianLoads := s.jacobianLoads + 1
    workspace := s.workspace.invalidate
    factorOwner := none }
  set (if load.ok then s.claim id [.jacobian] else s.disown [.jacobian])
  return load.ok

/-- Changes the residual.  Only its owner may. -/
def editResidual {β : Type} (id : OwnerId) (edit : Vector α n → Except Stop (β × Vector α n)) :
    Step (Store δ α n) β := do
  let s ← get
  unless s.owns id Quantity.residual do
    Step.fault (.notOwner .residual)
  let (b, f) ← Step.lift (edit s.residual)
  set { s with residual := f }
  return b

/-- Changes the Jacobian.  Only its owner may, and the factors are no longer those of the matrix. -/
def editJacobian {β : Type} (id : OwnerId) (edit : Mat α n n → Except Stop (β × Mat α n n)) :
    Step (Store δ α n) β := do
  let s ← get
  unless s.owns id Quantity.jacobian do
    Step.fault (.notOwner .jacobian)
  let s := { s with workspace := s.workspace.invalidate }
  set s
  let (b, A) ← Step.lift (edit s.jacobian)
  set { s with jacobian := A }
  return b

/-- The direction that a linear solve left, if it left one: the solve came to its end, converged,
and has finite entries. -/
def acceptDirection (id : OwnerId) (x : Vector α n) (stats : SolveStats α) :
    Step (Store δ α n) Bool := do
  let s ← get
  let s := { s with newton := x, factorOwner := some id }
  let good := s.communicator.allFinite x.toArray && stats.converged
  set (if good then s.claim id [.newton] else s.disown [.newton])
  return good

/-- Solves for the Newton direction, with the factors at hand if they are the iterate's and it asks
for reuse.  A fault of the linear solver is no fault of the store: there is just no direction. -/
def solveNewton (id : OwnerId) (reuse : Bool) : Step (Store δ α n) Bool := do
  let s ← get
  unless s.owns id Quantity.residual do
    Step.fault (.prerequisite .newton .residual)
  let cached := reuse && s.factorsCurrentFor id
  unless cached || s.owns id Quantity.jacobian do
    Step.fault (.prerequisite .newton .jacobian)
  let solved ← Step.attempt <| Step.zoom Store.workspace (fun s w ↦ { s with workspace := w }) <|
    Workspace.solve (Table.ofSquare s.jacobian) (Vector.ofFn fun i ↦ -s.residual.get i) cached
  match solved with
  | .ok (x, stats) => acceptDirection id x stats
  | .error (.fault _) =>
    modify fun s ↦ { s with newton := zeros α n }.disown [.newton]
    return false
  | .error stop => throw stop

/-- Computes the gradient of half the squared residual norm. -/
def computeGradient (id : OwnerId) : Step (Store δ α n) Unit := do
  let s ← get
  for q in [Quantity.residual, Quantity.jacobian] do
    unless s.owns id q do
      Step.fault (.prerequisite .gradient q)
  set ({ s with gradient := s.jacobian.transposeMulVec s.residual }.claim id [.gradient])

/-- `J v` with the stored Jacobian, into a vector of the given length. -/
def applyJacobian (s : Store δ α n) (v : Array α) (length : Nat) : Except Fault (Vector α n) := do
  let v ← sized v
  if length = n then .ok (s.jacobian.mulVec v) else .error (.dimension n length)

/-- `Jᵀ v` with the stored Jacobian, into a vector of the given length. -/
def applyTranspose (s : Store δ α n) (v : Array α) (length : Nat) : Except Fault (Vector α n) := do
  let v ← sized v
  if length = n then .ok (s.jacobian.transposeMulVec v) else .error (.dimension n length)

end Store

end OperatingPoint
