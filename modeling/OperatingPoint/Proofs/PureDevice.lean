import OperatingPoint.Circuit

/-!
# Pure device layers

A device layer may have a state of its own.  It is *pure* if all that its loads depend on, besides
the two solutions, is what it was told: there is a view of its state, which loads and the end of a
point leave alone, and whenever a load can evaluate it leaves a function of the view and the
solutions in the buffer.  Whether a load can evaluate is left open, and so is what a parameter does
to the view.

A circuit of elementary terms is pure; the view is the list of its terms and the values of their
parameters.
-/

set_option autoImplicit false

namespace OperatingPoint

/-- A device layer whose loads are functions of the two solutions and of a view of its state. -/
structure PureDevice (δ α : Type) [Scalar α] [Device δ α] where
  View : Type
  view : δ → View
  /-- The residual at `x`, with `previous` the solution of the previous point. -/
  residual : {n : Nat} → View → (x previous : Vector α n) → Vector α n
  /-- The Jacobian at `x`. -/
  jacobian : {n : Nat} → View → (x previous : Vector α n) → Mat α n n
  residual_buffer : ∀ {n : Nat} (d : δ) (x previous buffer : Vector α n),
    (Device.loadResidual d x previous buffer).ok = true →
      (Device.loadResidual d x previous buffer).buffer = residual (view d) x previous
  jacobian_buffer : ∀ {n : Nat} (d : δ) (x previous : Vector α n),
    (Device.loadJacobian d x previous (Mat.zero α n n)).ok = true →
      (Device.loadJacobian d x previous (Mat.zero α n n)).buffer = jacobian (view d) x previous
  residual_view : ∀ {n : Nat} (d : δ) (x previous buffer : Vector α n),
    view (Device.loadResidual d x previous buffer).device = view d
  jacobian_view : ∀ {n : Nat} (d : δ) (x previous : Vector α n) (buffer : Mat α n n),
    view (Device.loadJacobian d x previous buffer).device = view d
  accept_view : ∀ (d : δ) (x : Array α), view (Device.accept d x) = view d
  abandon_view : ∀ d : δ, view (Device.abandon d) = view d

namespace Circuit

/-- What the loads of a circuit depend on: its terms, and the values of the parameters. -/
def equations (c : Circuit) : List Term × List (String × Float) := (c.terms, c.parameters)

/-- The circuit with the given equations and nothing else. -/
def ofEquations (e : List Term × List (String × Float)) : Circuit where
  unknowns := 0
  terms := e.1
  parameters := e.2

@[simp] theorem note_equations (c : Circuit) (change : CircuitEvents → CircuitEvents) :
    (c.note change).equations = c.equations := by
  unfold note
  split <;> rfl

/-- The residual of a circuit with the given equations. -/
def residualOf {n : Nat} (e : List Term × List (String × Float)) (x previous : Vector Float n) :
    Vector Float n :=
  e.1.foldl (fun f t ↦ addAt f t.row ((ofEquations e).value x.toArray previous.toArray t))
    (Vector.replicate n 0.0)

/-- The Jacobian of a circuit with the given equations. -/
def jacobianOf {n : Nat} (e : List Term × List (String × Float)) (x : Vector Float n) :
    Mat Float n n :=
  e.1.foldl (fun A t ↦ ((ofEquations e).slopes x.toArray t).foldl
    (fun A slope ↦ addEntry A t.row slope.1 slope.2) A) (Mat.zero Float n n)

theorem loadResidual_equations {n : Nat} (c : Circuit) (x previous buffer : Vector Float n) :
    (c.loadResidual x previous buffer).device.equations = c.equations ∧
      ((c.loadResidual x previous buffer).ok = true →
        (c.loadResidual x previous buffer).buffer = residualOf c.equations x previous) := by
  unfold loadResidual
  extract_lets counted noted f
  have same : noted.equations = c.equations := note_equations _ _
  split
  · exact ⟨same, fun h ↦ Bool.noConfusion h⟩
  · split
    · exact ⟨same, fun h ↦ Bool.noConfusion h⟩
    · split
      · exact ⟨same, fun h ↦ Bool.noConfusion h⟩
      · refine ⟨same, fun _ ↦ ?_⟩
        rw [← same]
        rfl

theorem loadJacobian_equations {n : Nat} (c : Circuit) (x : Vector Float n)
    (buffer : Mat Float n n) :
    (c.loadJacobian x buffer).device.equations = c.equations ∧
      (buffer = Mat.zero Float n n → (c.loadJacobian x buffer).ok = true →
        (c.loadJacobian x buffer).buffer = jacobianOf c.equations x) := by
  unfold loadJacobian
  extract_lets noted A
  have same : noted.equations = c.equations := note_equations _ _
  split
  · exact ⟨same, fun _ h ↦ Bool.noConfusion h⟩
  · split
    · exact ⟨same, fun _ h ↦ Bool.noConfusion h⟩
    · split
      · exact ⟨same, fun _ h ↦ Bool.noConfusion h⟩
      · refine ⟨same, fun fresh _ ↦ ?_⟩
        rw [← same]
        subst fresh
        rfl

/-- A circuit of elementary terms is pure. -/
def pure : PureDevice Circuit Float where
  View := List Term × List (String × Float)
  view := equations
  residual := residualOf
  jacobian e x _ := jacobianOf e x
  residual_buffer d x previous buffer := (loadResidual_equations d x previous buffer).2
  jacobian_buffer d x _ := (loadJacobian_equations d x _).2 rfl
  residual_view d x previous buffer := (loadResidual_equations d x previous buffer).1
  jacobian_view d x _ buffer := (loadJacobian_equations d x buffer).1
  accept_view d _ := note_equations d _
  abandon_view d := note_equations d _

end Circuit

end OperatingPoint
