import OperatingPoint.PseudoTransient
import OperatingPoint.Continuation.Stepper

/-!
# Benches

A bench is a store with any number of tracks on it, which share what the store holds, and one Newton
driver for all of them.  The tracks are numbered in the order in which they came up.  A track that
was retired leaves its number behind; a command to such a number is a breach.

The operations of a bench are data, each with the type of its answer.  A history of a bench is a
list of such commands, and what is said of every bench that is ever reached is said of `perform`.
-/

set_option autoImplicit false

namespace OperatingPoint

/-- Tracks at one store, with one Newton driver. -/
structure Bench (δ α : Type) [LE α] [DirectSolver α] (n : Nat) where
  store : Store δ α n
  newton : Newton α
  /-- The tracks by number, without those that were retired. -/
  tracks : Array (Option (Track α n)) := #[]
  /-- The strategy that was detached last, until it is attached again. -/
  held : Option (Augmentation α) := none

namespace Bench

/-- A command, with the type of its answer.  The number of a track comes first. -/
inductive Command (α : Type) [LE α] (n : Nat) : Type → Type where
  /-- Puts a track at a solution on the bench and answers its number. -/
  | add (x : Array α) : Command α n Nat
  /-- Puts a track at zero on the bench and answers its number. -/
  | addZero : Command α n Nat
  | deepClone (k : Nat) : Command α n Nat
  | shallowClone (k : Nat) : Command α n Nat
  /-- Takes a track off the bench. -/
  | retire (k : Nat) : Command α n Unit
  | setPrevious (x : Array α) : Command α n Unit
  | setX (k : Nat) (x : Array α) : Command α n Unit
  | moveAlong (k : Nat) (base direction : Array α) (step : α) : Command α n Unit
  | invalidate (k : Nat) : Command α n Unit
  | invalidateDerivatives (k : Nat) : Command α n Unit
  | computeResidual (k : Nat) : Command α n Bool
  | computeJacobian (k : Nat) : Command α n Bool
  | computeNewton (k : Nat) (mayReuse : Bool) : Command α n Bool
  | computeGradient (k : Nat) : Command α n Unit
  /-- The residual, if it is valid. -/
  | residual (k : Nat) : Command α n (Array α)
  /-- The Newton direction, if it is valid. -/
  | direction (k : Nat) : Command α n (Array α)
  /-- The gradient, if it is valid. -/
  | gradient (k : Nat) : Command α n (Array α)
  /-- The Jacobian that the store holds, valid or not. -/
  | jacobian (k : Nat) : Command α n (Mat α n n)
  | isValid (k : Nat) (qs : QuantitySet) : Command α n Bool
  | applyJacobian (k : Nat) (v : Array α) (length : Nat) : Command α n (Array α)
  | applyTranspose (k : Nat) (v : Array α) (length : Nat) : Command α n (Array α)
  | setParameter (k : Nat) (name : String) (value : α) : Command α n Unit
  | pushParameter (k : Nat) (name : String) (value : α) : Command α n Unit
  /-- Takes a parameter out and answers the value that it had. -/
  | removeParameter (k : Nat) (name : String) : Command α n (Option α)
  | setForwarding (k : Nat) (forwarding : Bool) : Command α n Unit
  | attach (k : Nat) (a : Augmentation α) : Command α n Unit
  /-- Detaches the strategy, holds it, and answers its name. -/
  | detach (k : Nat) : Command α n (Option String)
  /-- Attaches the strategy that is held, which is then held no more. -/
  | reattach (k : Nat) : Command α n Unit
  /-- Accepts a step in pseudo-time and answers the next step. -/
  | acceptPseudoStep (k : Nat) (norm : α) : Command α n α
  | halvePseudoStep (k : Nat) : Command α n Bool
  | attachBlend (k : Nat) (start : Array α) : Command α n Unit
  /-- Takes the blend away and answers how far it had come. -/
  | detachBlend (k : Nat) : Command α n (Option α)
  | succeed (k : Nat) : Command α n Unit
  | fail (k : Nat) : Command α n Unit
  /-- Forgets the solve in progress. -/
  | reset : Command α n Unit
  | begin (k : Nat) : Command α n Status
  | advance (k : Nat) : Command α n Status
  | solve (k : Nat) : Command α n (Outcome α)
  /-- Steps a parameter. -/
  | step (k : Nat) (stepper : Stepper α) : Command α n (ContinuationReport α)
  /-- Marches in pseudo-time. -/
  | march (k : Nat) (options : MarchOptions α) : Command α n (MarchReport α)

variable {δ α : Type} [Scalar α] [DirectSolver α] {n : Nat}

/-- The track of a number. -/
def track (k : Nat) : Step (Bench δ α n) (Track α n) := do
  match (← get).tracks[k]? with
  | some (some t) => return t
  | _ => throw .breach

/-- Puts a new track on the bench. -/
def put (make : Store δ α n → Track α n × Store δ α n) : Step (Bench δ α n) Nat := do
  let b ← get
  let (t, store) := make b.store
  set { b with store := store, tracks := b.tracks.push (some t) }
  return b.tracks.size

/-- Replaces a track. -/
def replace (k : Nat) (t : Option (Track α n)) (b : Bench δ α n) : Bench δ α n :=
  { b with tracks := b.tracks.setIfInBounds k t }

/-- A step of a track with the Newton driver.  Both are written back whether or not it stops. -/
def onEngine {β : Type} (k : Nat) (act : Step (Engine δ α n) β) : Step (Bench δ α n) β := do
  let t ← track k
  Step.zoom (fun b ↦ ⟨⟨b.store, t⟩, b.newton⟩)
    (fun b e ↦ { b.replace k (some e.rig.track) with store := e.rig.store, newton := e.newton }) act

/-- A step of a track. -/
def onRig {β : Type} (k : Nat) (act : Step (Rig δ α n) β) : Step (Bench δ α n) β :=
  onEngine k (Engine.onRig act)

/-- A change of a track. -/
def modifyTrack (k : Nat) (change : Track α n → Track α n) : Step (Bench δ α n) Unit :=
  onRig k (Rig.modifyTrack change)

/-- A change of a track that may be refused. -/
def changeTrack {β : Type} (k : Nat) (change : Track α n → Except Fault (β × Track α n)) :
    Step (Bench δ α n) β :=
  onRig k do
    let r ← get
    let (b, t) ← Step.orFault (change r.track)
    set { r with track := t }
    return b

/-- Something read off a track at the store. -/
def view {β : Type} (k : Nat) (read : Iterate α n → Store δ α n → Except Fault β) :
    Step (Bench δ α n) β :=
  onRig k do
    let r ← get
    Step.orFault (read r.track.iterate r.store)

variable [Device δ α]

/-- Carries out a command. -/
def perform {β : Type} : Command α n β → Step (Bench δ α n) β
  | .add x => do
    let x ← Step.orFault (Store.sized x)
    put fun s ↦
      let (it, s) := Iterate.new s x
      ({ iterate := it }, s)
  | .addZero =>
    put fun s ↦
      let (it, s) := Iterate.zero s
      ({ iterate := it }, s)
  | .deepClone k => do put (← track k).deepClone
  | .shallowClone k => do put (← track k).shallowClone
  | .retire k => do
    let t ← track k
    modify fun b ↦ { b.replace k none with store := b.store.release t.iterate.id }
  | .setPrevious x => do
    let x ← Step.orFault (Store.sized x)
    modify fun b ↦ { b with store := b.store.setPrevious x }
  | .setX k x =>
    onRig k do
      let x ← Step.orFault (Store.sized x)
      Rig.modifyTrack fun t ↦ t.setX x
  | .moveAlong k base direction step =>
    onRig k do
      if h : base.size = n ∧ direction.size = n then
        Rig.modifyIterate fun it ↦ it.moveAlong ⟨base, h.1⟩ ⟨direction, h.2⟩ step
      else Step.fault (.dimension n (max base.size direction.size))
  | .invalidate k => modifyTrack k Track.invalidate
  | .invalidateDerivatives k => onRig k (Rig.modifyIterate Iterate.invalidateDerivatives)
  | .computeResidual k => onRig k Rig.computeResidual
  | .computeJacobian k => onRig k Rig.computeJacobian
  | .computeNewton k mayReuse => onRig k (Rig.computeNewton mayReuse)
  | .computeGradient k => onRig k Rig.computeGradient
  | .residual k => view k fun it s ↦ (it.residual s).map Vector.toArray
  | .direction k => view k fun it s ↦ (it.newton s).map Vector.toArray
  | .gradient k => view k fun it s ↦ (it.gradient s).map Vector.toArray
  | .isValid k qs => view k fun it s ↦ .ok (it.isValid s qs)
  | .jacobian k => do
    let _ ← track k
    return (← get).store.jacobian
  | .applyJacobian k v length => do
    Step.lift (reserve length)
    view k fun it s ↦ (it.applyJacobian s v length).map Vector.toArray
  | .applyTranspose k v length => do
    Step.lift (reserve length)
    view k fun it s ↦ (it.applyTranspose s v length).map Vector.toArray
  | .setParameter k name value => modifyTrack k fun t ↦ t.setParameter name value
  | .pushParameter k name value => onRig k (Rig.pushParameter name value)
  | .removeParameter k name =>
    changeTrack k fun t ↦ .ok (t.overlay.parameters.get? name, t.removeParameter name)
  | .setForwarding k forwarding => modifyTrack k fun t ↦ t.setForwarding forwarding
  | .attach k a => changeTrack k fun t ↦ (t.attach a).map ((), ·)
  | .detach k => do
    let held := (← track k).overlay.strategy
    modifyTrack k Track.detach
    modify fun b ↦ { b with held := held }
    return held.map Augmentation.name
  | .reattach k => do
    match (← get).held with
    | none => throw .breach
    | some a =>
      modify fun b ↦ { b with held := none }
      changeTrack k fun t ↦ (t.attach a).map ((), ·)
  | .acceptPseudoStep k norm =>
    changeTrack k fun t ↦ do
      let t ← t.acceptPseudoStep norm
      return ((← t.pseudoTime?).step, t)
  | .halvePseudoStep k => changeTrack k fun t ↦ t.halvePseudoStep.map Prod.swap
  | .attachBlend k start => modifyTrack k fun t ↦ t.attachBlend (Blend.atStart start)
  | .detachBlend k =>
    changeTrack k fun t ↦ .ok (t.overlay.blend.map Blend.lambda, t.detachBlend)
  | .succeed k => onRig k Rig.succeed
  | .fail k => onRig k Rig.fail
  | .reset => modify fun b ↦ { b with newton := b.newton.reset }
  | .begin k => onEngine k Engine.begin
  | .advance k => onEngine k Engine.advance
  | .solve k => onEngine k Engine.solve
  | .step k stepper => onEngine k stepper.run
  | .march k options => onRig k (March.run options)

end Bench

end OperatingPoint
