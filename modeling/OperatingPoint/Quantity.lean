/-!
# The shared quantities

What a store holds once for all its iterates, and what therefore has an owner: the residual, the
Jacobian, the Newton direction, the gradient, and the auxiliary state inside the device layer that
a residual load refreshes.  The first four are the *cached* ones: an iterate keeps a validity flag
for each of them.
-/

set_option autoImplicit false

namespace OperatingPoint

/-- A quantity with an owner. -/
inductive Quantity where
  | residual
  | jacobian
  | newton
  | gradient
  /-- Device state refreshed by the last residual load. -/
  | auxState
  deriving DecidableEq, Repr

namespace Quantity

/-- Every quantity, in order. -/
def all : List Quantity := [residual, jacobian, newton, gradient, auxState]

theorem mem_all (q : Quantity) : q ∈ all := by cases q <;> decide

/-- The cached quantities, in order. -/
def cached : List Quantity := [residual, jacobian, newton, gradient]

/-- The name a quantity goes by in messages and reports. -/
def name : Quantity → String
  | residual => "RESIDUAL"
  | jacobian => "JACOBIAN"
  | newton => "NEWTON"
  | gradient => "GRADIENT"
  | auxState => "AUX_STATE"

/-- The quantity as a message shows it. -/
def describe (q : Quantity) : String := "Quantity(" ++ q.name ++ ")"

end Quantity

/-- A set of quantities. -/
structure QuantitySet where
  /-- The members, in the order of `Quantity.all`. -/
  contains : Quantity → Bool

namespace QuantitySet

/-- The set of the listed quantities. -/
def ofList (qs : List Quantity) : QuantitySet := ⟨fun q ↦ decide (q ∈ qs)⟩

/-- The members, in order. -/
def toList (s : QuantitySet) : List Quantity := Quantity.all.filter s.contains

/-- Every quantity. -/
def all : QuantitySet := ⟨fun _ ↦ true⟩

/-- The first member, if there is one. -/
def first? (s : QuantitySet) : Option Quantity := s.toList.head?

/-- The only member, if there is exactly one. -/
def only? (s : QuantitySet) : Option Quantity :=
  match s.toList with
  | [q] => some q
  | _ => none

instance instCoe : Coe Quantity QuantitySet := ⟨fun q ↦ ofList [q]⟩

@[simp] theorem mem_toList {s : QuantitySet} {q : Quantity} :
    q ∈ s.toList ↔ s.contains q = true := by
  simp [toList, Quantity.mem_all]

@[simp] theorem contains_ofList {qs : List Quantity} {q : Quantity} :
    (ofList qs).contains q = true ↔ q ∈ qs := by
  simp [ofList]

end QuantitySet

end OperatingPoint
