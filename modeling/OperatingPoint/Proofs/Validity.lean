import OperatingPoint.Proofs.Endings
import OperatingPoint.Track

/-!
# Flags, owners and what an operation of the store leaves

Whether a quantity is valid is asked of sets of quantities.  Every question that an algorithm asks is
about a single one, and then the answer is a flag and an owner: `isValid_iff`.

The rest of this file states the operations of the store as functions.  Each of them writes a buffer
and moves owners, and where the owners are afterwards is what everything else is derived from.
-/

set_option autoImplicit false

namespace OperatingPoint

open Step

/-- The flag of a quantity.  The auxiliary state has none of its own and goes by the residual. -/
def Flags.of (f : Flags) : Quantity → Validity
  | .residual => f.residual
  | .jacobian => f.jacobian
  | .newton => f.newton
  | .gradient => f.gradient
  | .auxState => f.residual

/-- A flag that is up only where a test holds. -/
theorem Validity.holds_of_valid {test : Bool} (up : (if test then Validity.valid else .stale) = .valid) :
    test = true := by
  cases test with
  | false => cases up
  | true => rfl

/-- The norms that are taken of a residual. -/
def Communicator.normsOf {α : Type} [Scalar α] (c : Communicator α) (f : Array α) :
    ResidualNorms α :=
  ⟨c.norm2 f, (c.maxAbs f).1, (c.maxAbs f).2, c.allFinite f⟩

theorem Iterate.flag_eq {α : Type} {n : Nat} (it : Iterate α n) (q : Quantity) :
    it.flag q = it.flags.of q := by
  cases q <;> rfl

namespace Store

variable {δ α : Type} [DirectSolver α] {n : Nat}

theorem owns_iff {s : Store δ α n} {id : OwnerId} {q : Quantity} :
    s.owns id q = true ↔ s.owners.of q = some id := by
  cases q <;> simp [owns, QuantitySet.toList, QuantitySet.ofList, Quantity.all]

theorem owns_eq_false_iff {s : Store δ α n} {id : OwnerId} {q : Quantity} :
    s.owns id q = false ↔ s.owners.of q ≠ some id := by
  rw [← Bool.not_eq_true, owns_iff]

end Store

theorem Iterate.isValid_iff {δ α : Type} [DirectSolver α] {n : Nat} {it : Iterate α n}
    {s : Store δ α n} {q : Quantity} :
    it.isValid s q = true ↔ it.flags.of q = .valid ∧ s.owners.of q = some it.id := by
  rw [Iterate.isValid, Bool.and_eq_true, beq_iff_eq, Store.owns_iff, flag_eq]

/-- A quantity with a stale flag is not valid, whoever owns it. -/
theorem Iterate.not_isValid_of_stale {δ α : Type} [DirectSolver α] {n : Nat} {it : Iterate α n}
    {s : Store δ α n} {q : Quantity} (h : it.flags.of q = .stale) : ¬ it.isValid s q = true := by
  rw [isValid_iff, h]
  exact fun valid ↦ by cases valid.1

theorem Rig.isValid_iff {δ α : Type} [Scalar α] [DirectSolver α] {n : Nat} {r : Rig δ α n}
    {q : Quantity} :
    r.isValid q = true ↔
      r.track.iterate.flags.of q = .valid ∧ r.store.owners.of q = some r.track.iterate.id :=
  Iterate.isValid_iff

/-- What is valid can be read. -/
theorem Rig.residual_of_valid {δ α : Type} [Scalar α] [DirectSolver α] {n : Nat} {r : Rig δ α n}
    (valid : r.isValid .residual = true) :
    r.track.iterate.residual r.store = .ok r.store.residual := by
  have there : r.track.iterate.isValid r.store Quantity.residual = true := valid
  rw [Iterate.residual, Iterate.require, if_pos there]
  rfl

theorem Rig.newton_of_valid {δ α : Type} [Scalar α] [DirectSolver α] {n : Nat} {r : Rig δ α n}
    (valid : r.isValid .newton = true) :
    r.track.iterate.newton r.store = .ok r.store.newton := by
  have there : r.track.iterate.isValid r.store Quantity.newton = true := valid
  rw [Iterate.newton, Iterate.require, if_pos there]
  rfl

namespace Store

variable {δ α : Type} [DirectSolver α] {n : Nat} {s : Store δ α n} {id : OwnerId}

/-! ## Changes of what was loaded -/

theorem ends_editResidual {β : Type} {edit : Vector α n → Except Stop (β × Vector α n)}
    {done : β → Store δ α n → Prop} {stopped : Stop → Store δ α n → Prop}
    (h : s.owners.of .residual = some id) :
    Ends (editResidual id edit) s done stopped ↔
      (∀ b f, edit s.residual = .ok (b, f) → done b { s with residual := f }) ∧
        ∀ e, edit s.residual = .error e → stopped e s := by
  have owned : s.owns id Quantity.residual = true := owns_iff.2 h
  unfold editResidual
  simp only [ends_bind, ends_get, ends_set, ends_pure, if_pos owned, ends_lift, Prod.forall]

/-- A change makes the factors stale before it is tried. -/
theorem ends_editJacobian {β : Type} {edit : Mat α n n → Except Stop (β × Mat α n n)}
    {done : β → Store δ α n → Prop} {stopped : Stop → Store δ α n → Prop}
    (h : s.owners.of .jacobian = some id) :
    Ends (editJacobian id edit) s done stopped ↔
      (∀ b A, edit s.jacobian = .ok (b, A) →
        done b { s with workspace := s.workspace.invalidate, jacobian := A }) ∧
        ∀ e, edit s.jacobian = .error e →
          stopped e { s with workspace := s.workspace.invalidate } := by
  have owned : s.owns id Quantity.jacobian = true := owns_iff.2 h
  unfold editJacobian
  simp only [ends_bind, ends_get, ends_set, ends_pure, if_pos owned, ends_lift, Prod.forall]

/-! ## Loads -/

/-- The store after a load of the residual. -/
def afterResidual (s : Store δ α n) (id : OwnerId) (load : Load δ (Vector α n)) : Store δ α n :=
  { s with
    device := load.device
    residual := load.buffer
    owners := s.owners.putAll [.residual, .auxState] (if load.ok then some id else none) }

/-- The store after a load of the Jacobian. -/
def afterJacobian (s : Store δ α n) (id : OwnerId) (load : Load δ (Mat α n n)) : Store δ α n :=
  { s with
    device := load.device
    jacobian := load.buffer
    jacobianLoads := s.jacobianLoads + 1
    workspace := s.workspace.invalidate
    factorOwner := none
    owners := s.owners.putAll [.jacobian] (if load.ok then some id else none) }

@[simp] theorem afterResidual_owner (load : Load δ (Vector α n)) (q : Quantity) :
    (s.afterResidual id load).owners.of q =
      if q = .residual ∨ q = .auxState then (if load.ok then some id else none)
      else s.owners.of q := by
  simp [afterResidual]

@[simp] theorem afterJacobian_owner (load : Load δ (Mat α n n)) (q : Quantity) :
    (s.afterJacobian id load).owners.of q =
      if q = .jacobian then (if load.ok then some id else none) else s.owners.of q := by
  simp [afterJacobian]

section

variable [Device δ α] {x : Vector α n}

/-- The load of the residual at `x`. -/
def residualLoad (s : Store δ α n) (x : Vector α n) : Load δ (Vector α n) :=
  Device.loadResidual s.device x s.previous s.residual

/-- The load of the Jacobian at `x`. -/
def jacobianLoad [Scalar α] (s : Store δ α n) (x : Vector α n) : Load δ (Mat α n n) :=
  Device.loadJacobian s.device x s.previous (Mat.zero α n n)

@[simp] theorem ends_loadResidual {done : Bool → Store δ α n → Prop}
    {stopped : Stop → Store δ α n → Prop} :
    Ends (loadResidual id x) s done stopped ↔
      done (s.residualLoad x).ok (s.afterResidual id (s.residualLoad x)) := by
  unfold loadResidual
  simp only [ends_bind, ends_get, ends_set, ends_pure]
  rw [← residualLoad, afterResidual, claim, disown]
  cases (s.residualLoad x).ok <;> rfl

@[simp] theorem ends_loadJacobian [Scalar α] {done : Bool → Store δ α n → Prop}
    {stopped : Stop → Store δ α n → Prop} :
    Ends (loadJacobian id x) s done stopped ↔
      (s.owners.of .auxState = some id →
        done (s.jacobianLoad x).ok (s.afterJacobian id (s.jacobianLoad x))) ∧
      (s.owners.of .auxState ≠ some id →
        stopped (.fault (.prerequisite .jacobian .auxState)) s) := by
  have h : (s.owns id Quantity.auxState = true) = (s.owners.of .auxState = some id) :=
    propext owns_iff
  unfold loadJacobian
  simp only [ends_bind, ends_get, ends_set, ends_pure, ends_ite, ends_fault, h]
  rw [← jacobianLoad, afterJacobian, claim, disown]
  cases (s.jacobianLoad x).ok <;> exact Iff.rfl

end

/-! ## The linear solve -/

variable [Scalar α]

/-- The right-hand side of the equation for the Newton direction. -/
def rightHandSide (f : Vector α n) : Vector α n := Vector.ofFn fun i ↦ -f.get i

/-- Whether what a linear solve left is a direction. -/
def accepts (s : Store δ α n) (x : Vector α n) (stats : SolveStats α) : Bool :=
  s.communicator.allFinite x.toArray && stats.converged

/-- The store after a linear solve that came to its end. -/
def afterSolve (s : Store δ α n) (id : OwnerId) (w : Workspace α) (x : Vector α n)
    (stats : SolveStats α) : Store δ α n :=
  { s with
    workspace := w
    newton := x
    factorOwner := some id
    owners := s.owners.putAll [.newton] (if s.accepts x stats then some id else none) }

/-- The store after a linear solve that ended in a fault. -/
def afterRefusal (s : Store δ α n) (w : Workspace α) : Store δ α n :=
  { s with workspace := w, newton := zeros α n, owners := s.owners.putAll [.newton] none }

/-- The linear solve for the Newton direction. -/
def linearSolve (s : Store δ α n) (reuse : Bool) :
    EStateM.Result Stop (Workspace α) (Vector α n × SolveStats α) :=
  Workspace.solve (Table.ofSquare s.jacobian) (rightHandSide s.residual) reuse s.workspace

@[simp] theorem afterSolve_owner (w : Workspace α) (x : Vector α n) (stats : SolveStats α)
    (q : Quantity) :
    (s.afterSolve id w x stats).owners.of q =
      if q = .newton then (if s.accepts x stats then some id else none) else s.owners.of q := by
  simp [afterSolve]

@[simp] theorem afterRefusal_owner (w : Workspace α) (q : Quantity) :
    (s.afterRefusal w).owners.of q = if q = .newton then none else s.owners.of q := by
  simp [afterRefusal]

/-- What solving for the Newton direction can come to. -/
inductive SolveRun (s : Store δ α n) (id : OwnerId) (reuse : Bool) :
    EStateM.Result Stop (Store δ α n) Bool → Prop
  | noResidual (h : s.owners.of .residual ≠ some id) :
    SolveRun s id reuse (.error (.fault (.prerequisite .newton .residual)) s)
  | noJacobian (h : (reuse && s.factorsCurrentFor id) = false) (h' : s.owners.of .jacobian ≠ some id) :
    SolveRun s id reuse (.error (.fault (.prerequisite .newton .jacobian)) s)
  /-- The linear solve came to its end, whatever it left is worth. -/
  | solved {x : Vector α n} {stats : SolveStats α} {w : Workspace α}
    (h : s.owners.of .residual = some id)
    (h' : (reuse && s.factorsCurrentFor id) = true ∨ s.owners.of .jacobian = some id)
    (run : s.linearSolve (reuse && s.factorsCurrentFor id) = .ok (x, stats) w) :
    SolveRun s id reuse (.ok (s.accepts x stats) (s.afterSolve id w x stats))
  | refused {cause : Fault} {w : Workspace α}
    (run : s.linearSolve (reuse && s.factorsCurrentFor id) = .error (.fault cause) w) :
    SolveRun s id reuse (.ok false (s.afterRefusal w))
  | stopped {e : Stop} {w : Workspace α} (h : ∀ cause, e ≠ .fault cause)
    (run : s.linearSolve (reuse && s.factorsCurrentFor id) = .error e w) :
    SolveRun s id reuse (.error e { s with workspace := w })

theorem ends_acceptDirection {x : Vector α n} {stats : SolveStats α}
    {done : Bool → Store δ α n → Prop} {stopped : Stop → Store δ α n → Prop} :
    Ends (acceptDirection id x stats) s done stopped ↔
      done (s.accepts x stats) (s.afterSolve id s.workspace x stats) := by
  unfold acceptDirection
  simp only [ends_bind, ends_get, ends_set, ends_pure]
  rw [← accepts, afterSolve, claim, disown]
  cases s.accepts x stats <;> exact Iff.rfl

theorem solveNewton_run (s : Store δ α n) (id : OwnerId) (reuse : Bool) :
    SolveRun s id reuse (solveNewton id reuse s) := by
  refine Ends.result ?_
  unfold solveNewton
  simp only [ends_bind, ends_get, ends_ite, ends_fault, ends_attempt, ends_zoom]
  refine ⟨fun owned ↦ ⟨fun ready ↦ ?_, fun h ↦ ?_⟩, fun h ↦ .noResidual fun owned ↦ ?_⟩
  · rw [Bool.or_eq_true, owns_iff] at ready
    rw [owns_iff] at owned
    rw [← rightHandSide]
    cases run : s.linearSolve (reuse && s.factorsCurrentFor id) with
    | ok p w =>
      obtain ⟨x, stats⟩ := p
      rw [ends_of_ok run, ends_acceptDirection]
      exact .solved owned ready run
    | error e w =>
      rw [ends_of_error run]
      cases e with
      | fault cause => exact .refused run
      | breach => exact .stopped (by simp) run
      | endless => exact .stopped (by simp) run
  · rw [Bool.or_eq_true, owns_iff, not_or, Bool.not_eq_true] at h
    exact .noJacobian h.1 h.2
  · exact h (owns_iff.2 owned)

end Store

end OperatingPoint
