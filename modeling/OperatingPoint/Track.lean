import OperatingPoint.Iterate
import OperatingPoint.Overlay

/-!
# Tracks

A track is an iterate on its way through a continuation: the iterate, the overlay, and a note of the
last point that was handed to the device layer.  Whatever changes the equations, such as a
parameter, a strategy or a blend, makes everything computed so far stale.

A *rig* is a track at a store.  The computations are steps on it.  Each of them does nothing if its
quantity is valid already; otherwise it loads what it needs first, and it hands back whether there
is a result.
-/

set_option autoImplicit false

namespace OperatingPoint

/-- An iterate with what is laid over the device equations. -/
structure Track (α : Type) [LE α] (n : Nat) where
  iterate : Iterate α n
  overlay : Overlay α := {}
  /-- The generation of the last point that was handed over. -/
  captured : Option Nat := none

namespace Track

variable {δ α : Type} [Scalar α] [DirectSolver α] {n : Nat}

def x (t : Track α n) : Vector α n := t.iterate.x

/-- Makes everything stale. -/
def invalidate (t : Track α n) : Track α n := { t with iterate := t.iterate.invalidate }

/-- Moves the iterate. -/
def setX (t : Track α n) (x : Vector α n) : Track α n := { t with iterate := t.iterate.setX x }

/-- Sets a parameter.  The value it has already changes nothing. -/
def setParameter (t : Track α n) (name : String) (value : α) : Track α n :=
  if (t.overlay.parameters.get? name).any (· == value) then t
  else
    { t with
      overlay := { t.overlay with parameters := t.overlay.parameters.set name value } }.invalidate

/-- Takes a parameter out, if it is there. -/
def removeParameter (t : Track α n) (name : String) : Track α n :=
  if (t.overlay.parameters.get? name).isSome then
    { t with
      overlay := { t.overlay with parameters := t.overlay.parameters.remove name } }.invalidate
  else t

/-- Turns the forwarding of parameters on or off. -/
def setForwarding (t : Track α n) (forwarding : Bool) : Track α n :=
  if t.overlay.forwarding = forwarding then t
  else { t with overlay := { t.overlay with forwarding := forwarding } }.invalidate

/-- Attaches a strategy, where there is none. -/
def attach (t : Track α n) (a : Augmentation α) : Except Fault (Track α n) :=
  match t.overlay.strategy with
  | some old => .error (.dispatch (.attached a.name old.name))
  | none => do
    a.validate n
    return { t with overlay := { t.overlay with strategy := some a } }.invalidate

/-- Detaches the strategy, if there is one. -/
def detach (t : Track α n) : Track α n :=
  if t.overlay.strategy.isSome then
    { t with overlay := { t.overlay with strategy := none } }.invalidate
  else t

/-- Lays a blend over the equations, in place of an earlier one. -/
def attachBlend (t : Track α n) (b : Blend α) : Track α n :=
  { t with overlay := { t.overlay with blend := some b } }.invalidate

/-- Takes the blend away, if there is one. -/
def detachBlend (t : Track α n) : Track α n :=
  if t.overlay.blend.isSome then
    { t with overlay := { t.overlay with blend := none } }.invalidate
  else t

/-- The attached step in pseudo-time. -/
def pseudoTime? (t : Track α n) : Except Fault (PseudoTime α) :=
  match t.overlay.strategy with
  | some a => a.pseudoTime?
  | none => .error (.dispatch .noStrategy)

/-- Replaces the attached step in pseudo-time.  The residual stays valid, since the step does not
enter it. -/
def putPseudoTime (t : Track α n) (p : PseudoTime α) : Track α n :=
  { t with
    overlay := { t.overlay with strategy := some (.pseudoTransient p) }
    iterate := t.iterate.invalidateDerivatives }

/-- Accepts a step in pseudo-time that ended with the given residual norm. -/
def acceptPseudoStep (t : Track α n) (norm : α) : Except Fault (Track α n) := do
  let p ← t.pseudoTime?
  return t.putPseudoTime (p.accept norm)

/-- Halves the step in pseudo-time.  Returns also whether there was anything left to halve. -/
def halvePseudoStep (t : Track α n) : Except Fault (Track α n × Bool) := do
  let p ← t.pseudoTime?
  match p.halve with
  | some p => return (t.putPseudoTime p, true)
  | none => return (t.putPseudoTime p, false)

/-- The progress variable of the attached strategy. -/
def progress (t : Track α n) : Option α := t.overlay.strategy.bind Augmentation.progress

/-- A copy that takes over everything the track's iterate owns. -/
def deepClone (t : Track α n) (s : Store δ α n) : Track α n × Store δ α n :=
  let (iterate, s) := t.iterate.deepClone s
  ({ t with iterate := iterate, captured := none }, s)

/-- A track at zero with the same parameters. -/
def shallowClone (t : Track α n) (s : Store δ α n) : Track α n × Store δ α n :=
  let (iterate, s) := Iterate.zero s
  ({ iterate := iterate
     overlay := { parameters := t.overlay.parameters, forwarding := t.overlay.forwarding } }, s)

end Track

/-- A track at a store. -/
structure Rig (δ α : Type) [LE α] [DirectSolver α] (n : Nat) where
  store : Store δ α n
  track : Track α n

namespace Rig

variable {δ α : Type} [Scalar α] [DirectSolver α] {n : Nat}

/-- A step on the store of a rig. -/
def onStore {β : Type} (act : Step (Store δ α n) β) : Step (Rig δ α n) β :=
  Step.zoom Rig.store (fun r s ↦ { r with store := s }) act

/-- A change of the track. -/
def modifyTrack (change : Track α n → Track α n) : Step (Rig δ α n) Unit :=
  modify fun r ↦ { r with track := change r.track }

/-- A change of the iterate. -/
def modifyIterate (change : Iterate α n → Iterate α n) : Step (Rig δ α n) Unit :=
  modifyTrack fun t ↦ { t with iterate := change t.iterate }

/-- A change of the flags. -/
def modifyFlags (change : Flags → Flags) : Step (Rig δ α n) Unit :=
  modifyIterate fun it ↦ { it with flags := change it.flags }

/-- Whether a quantity is valid. -/
def isValid (r : Rig δ α n) (q : Quantity) : Bool := r.track.iterate.isValid r.store q

variable [Device δ α]

/-- Gives a parameter to the device layer, which may refuse it. -/
def giveToDevice (name : String) (value : α) : Step (Rig δ α n) Unit := do
  let r ← get
  let (taken, device) := Device.setParameter r.store.device name value
  set { r with store := { r.store with device := device } }
  unless taken do
    Step.fault (.config (.rejected name))

/-- Forwards one parameter to where it belongs. -/
def forwardOne (name : String) (value : α) : Step (Rig δ α n) Unit := do
  let r ← get
  if name = Parameters.progressName ∨ name = Parameters.blendName then
    let changed :=
      if name = Parameters.progressName then r.track.overlay.setProgress value
      else r.track.overlay.setBlend value
    let overlay ← Step.orFault changed
    set { r with track := { r.track with overlay := overlay } }
  else giveToDevice name value

/-- Forwards the listed parameters in turn. -/
def forwardAll : List (String × α) → Step (Rig δ α n) Unit
  | [] => pure ()
  | entry :: rest => do
    forwardOne entry.1 entry.2
    forwardAll rest

/-- Forwards the parameters, if that is turned on. -/
def forward : Step (Rig δ α n) Unit := do
  let overlay := (← get).track.overlay
  if overlay.forwarding then forwardAll overlay.parameters.entries

/-- Sets a parameter and gives it to the device layer at once. -/
def pushParameter (name : String) (value : α) : Step (Rig δ α n) Unit := do
  modifyTrack fun t ↦ t.setParameter name value
  giveToDevice name value

/-- Takes the norms of the residual. -/
def measure : Step (Rig δ α n) Unit := do
  let s := (← get).store
  let f := s.residual.toArray
  let (max, index) := s.communicator.maxAbs f
  let norms := ⟨s.communicator.norm2 f, max, index, s.communicator.allFinite f⟩
  modifyIterate fun it ↦ { it with measured := .norms norms }

/-- Loads the residual, lays the overlay over it and takes its norms. -/
def loadResidual : Step (Rig δ α n) Bool := do
  forward
  let it := (← get).track.iterate
  if ← onStore (Store.loadResidual it.id it.x) then
    let overlay := (← get).track.overlay
    let overlay ← onStore (Store.editResidual it.id (overlay.augmentResidual it.x))
    modifyTrack fun t ↦ { t with overlay := overlay }
    measure
    return true
  else
    modifyIterate fun it ↦ { it with measured := .failed }
    return false

/-- Computes the residual. -/
def computeResidual : Step (Rig δ α n) Bool := do
  if (← get).isValid .residual then return true
  if (← get).track.iterate.flags.residual = .computing then
    Step.fault (.reentrant "residual")
  modifyFlags fun f ↦ { f with residual := .computing }
  match ← Step.attempt loadResidual with
  | .ok true =>
    -- The device state has moved: nothing that came from a Jacobian is the iterate's any more.
    modifyFlags fun _ ↦ { residual := .valid }
    return true
  | .ok false =>
    modifyFlags fun f ↦ { f with residual := .stale }
    return false
  | .error stop =>
    modifyFlags fun f ↦ { f with residual := .stale }
    throw stop

/-- Loads the Jacobian and lays the overlay over it. -/
def loadJacobian : Step (Rig δ α n) Bool := do
  let it := (← get).track.iterate
  if ← onStore (Store.loadJacobian it.id it.x) then
    let r ← get
    let overlay ← onStore <|
      Store.editJacobian it.id (r.track.overlay.augmentJacobian r.store.jacobianLoads)
    modifyTrack fun t ↦ { t with overlay := overlay }
    return true
  else return false

/-- Computes the Jacobian.  If the device state is another iterate's, or was refreshed at another
solution, the residual is computed first. -/
def computeJacobian : Step (Rig δ α n) Bool := do
  if (← get).isValid .jacobian then return true
  if (← get).track.iterate.flags.jacobian = .computing then
    Step.fault (.reentrant "jacobian")
  let r ← get
  if !r.isValid .residual || !r.store.owns r.track.iterate.id Quantity.auxState then
    modifyFlags fun f ↦ { f with residual := .stale }
    unless ← computeResidual do
      return false
  let r ← get
  unless r.store.owns r.track.iterate.id Quantity.auxState do
    Step.fault (.prerequisite .jacobian .auxState)
  modifyFlags fun f ↦ { f with jacobian := .computing }
  match ← Step.attempt loadJacobian with
  | .ok true =>
    modifyFlags fun f ↦ { residual := f.residual, jacobian := .valid }
    return true
  | .ok false =>
    modifyFlags fun f ↦ { residual := f.residual }
    return false
  | .error stop =>
    modifyFlags fun f ↦ { residual := f.residual }
    throw stop

/-- Computes the Newton direction.  The residual must be valid, and so must the Jacobian, unless the
factors of the iterate's last Jacobian are at hand and may be reused. -/
def computeNewton (mayReuse : Bool) : Step (Rig δ α n) Bool := do
  let r ← get
  if r.isValid .newton then return true
  unless r.isValid .residual do
    Step.fault (.prerequisite .newton .residual)
  let id := r.track.iterate.id
  let reuse := mayReuse && r.store.factorsCurrentFor id
  unless reuse || r.isValid .jacobian do
    Step.fault (.prerequisite .newton .jacobian)
  modifyFlags fun f ↦ { f with newton := .computing }
  match ← Step.attempt (onStore (Store.solveNewton id reuse)) with
  | .ok ok =>
    modifyFlags fun f ↦ { f with newton := if ok then .valid else .stale }
    return ok
  | .error stop =>
    modifyFlags fun f ↦ { f with newton := .stale }
    throw stop

/-- Computes the gradient.  The Jacobian must be valid. -/
def computeGradient : Step (Rig δ α n) Unit := do
  let r ← get
  if r.isValid .gradient then return
  unless r.isValid .jacobian do
    Step.fault (.prerequisite .gradient .jacobian)
  onStore (Store.computeGradient r.track.iterate.id)
  modifyFlags fun f ↦ { f with gradient := .valid }

/-- Hands the point to the device layer as an accepted one, once for each generation. -/
def succeed : Step (Rig δ α n) Unit := do
  let r ← get
  let generation := r.track.iterate.generation
  if r.track.captured ≠ some generation then
    set {
      store := { r.store with device := Device.accept r.store.device r.track.x.toArray }
      track := { r.track with captured := some generation } : Rig δ α n }

/-- Tells the device layer that the point in progress was given up. -/
def fail : Step (Rig δ α n) Unit :=
  modify fun r ↦ { r with store := { r.store with device := Device.abandon r.store.device } }

end Rig

end OperatingPoint
