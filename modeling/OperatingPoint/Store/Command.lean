import OperatingPoint.Dense.Access
import OperatingPoint.Store

/-!
# What can be asked of a store

The operations of a store as data, each with the type of its answer.  A history of a store is a
list of such commands, given by any number of holders of identities; whatever can be said of every
store that is ever reached is said of `perform`.

A holder acts under an identity that the store has given out.  Acting under any other is a breach.
-/

set_option autoImplicit false

namespace OperatingPoint

namespace Store

/-- A command, with the type of its answer. -/
inductive Command (α : Type) : Type → Type where
  | register : Command α OwnerId
  | setPrevious (x : Array α) : Command α Unit
  | owner (qs : QuantitySet) : Command α (Option OwnerId)
  | owns (id : OwnerId) (qs : QuantitySet) : Command α Bool
  | ownedBy (id : OwnerId) : Command α (List Quantity)
  | transfer (source target : OwnerId) : Command α (List Quantity)
  | release (id : OwnerId) : Command α Unit
  | loadResidual (id : OwnerId) (x : Array α) : Command α Bool
  | loadJacobian (id : OwnerId) (x : Array α) : Command α Bool
  | solveNewton (id : OwnerId) (reuse : Bool) : Command α Bool
  | computeGradient (id : OwnerId) : Command α Unit
  /-- Replaces one entry of the residual. -/
  | writeResidual (id : OwnerId) (i : Nat) (v : α) : Command α Unit
  /-- Replaces one entry of the Jacobian. -/
  | writeJacobian (id : OwnerId) (i j : Nat) (v : α) : Command α Unit
  | applyJacobian (v : Array α) (length : Nat) : Command α (Array α)
  | applyTranspose (v : Array α) (length : Nat) : Command α (Array α)

variable {δ α : Type} [Scalar α] [DirectSolver α] {n : Nat}

/-- Whether an identity has been given out. -/
def knows (s : Store δ α n) (id : OwnerId) : Bool := decide (0 < id ∧ id ≤ s.lastId)

/-- Insists on an identity that has been given out. -/
def identify (id : OwnerId) : Step (Store δ α n) Unit := do
  unless (← get).knows id do
    throw .breach

variable [Device δ α]

/-- Carries out a command. -/
def perform {β : Type} : Command α β → Step (Store δ α n) β
  | .register => modifyGet register
  | .setPrevious x => do
    let x ← Step.orFault (sized x)
    modify fun s ↦ s.setPrevious x
  | .owner qs => do Step.lift ((← get).owner qs)
  | .owns id qs => do
    identify id
    return (← get).owns id qs
  | .ownedBy id => do
    identify id
    return (← get).ownedBy id
  | .transfer source target => do
    identify source
    identify target
    let s ← get
    set (s.transfer source target)
    return s.ownedBy source
  | .release id => do
    identify id
    modify fun s ↦ s.release id
  | .loadResidual id x => do
    identify id
    loadResidual id (← Step.orFault (sized x))
  | .loadJacobian id x => do
    identify id
    loadJacobian id (← Step.orFault (sized x))
  | .solveNewton id reuse => do
    identify id
    solveNewton id reuse
  | .computeGradient id => do
    identify id
    computeGradient id
  | .writeResidual id i v => do
    identify id
    editResidual id fun f ↦ do return ((), ← writeAt f i v)
  | .writeJacobian id i j v => do
    identify id
    editJacobian id fun A ↦ do return ((), ← A.setEntry i j v)
  | .applyJacobian v length => do
    Step.lift (reserve length)
    return (← Step.orFault ((← get).applyJacobian v length)).toArray
  | .applyTranspose v length => do
    Step.lift (reserve length)
    return (← Step.orFault ((← get).applyTranspose v length)).toArray

end Store

end OperatingPoint
