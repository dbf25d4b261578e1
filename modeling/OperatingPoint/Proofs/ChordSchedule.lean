import Mathlib.Data.List.Induction
import OperatingPoint.Proofs.ExactScalars
import OperatingPoint.Proofs.FactorReuse
import OperatingPoint.Proofs.FullMethod
import OperatingPoint.Proofs.IterationParts
import OperatingPoint.Proofs.LoadOrder

/-!
# The schedule of a chord iteration

A chord method of period `k` takes a Jacobian at every `k`-th iteration and keeps the setup of the
linear solver in between.  The driver counts the iterations, the rig looks at its flags, and the
store at owners and at the workspace; and every trial of a line search makes the Jacobian of the rig
stale.  That they come to the same is an invariant of the iteration, `Engine.Between`: where no
Jacobian is due the setup at hand is the iterate's, and it is the one for the stored Jacobian.

What a solve has loaded is read off a log.  The invariant supposes nothing of the device layer.  It
does suppose that the battery does not ask for the Newton direction, since the answer takes a
Jacobian of its own.
-/

set_option autoImplicit false

namespace OperatingPoint

open Step

/-! ## The Jacobians of a log -/

namespace Device.Call

variable {α : Type}

/-- The load of a Jacobian: where, and with which previous point. -/
def jacobian? : Call α → Option (Array α × Array α)
  | residual _ _ _ => none
  | jacobian x previous => some (x, previous)

/-- The loads of Jacobians in a log, the latest first. -/
def jacobians (calls : List (Call α)) : List (Array α × Array α) := calls.filterMap jacobian?

end Device.Call

open Device.Call (jacobians)

variable {δ α : Type} [Scalar α] [DirectSolver α] {n : Nat}

namespace Workspace

/-- A solve that comes to its end leaves a setup that is current. -/
theorem ends_solve_current (A : Table α) (b : Vector α n) (reuse : Bool) (w : Workspace α) :
    Ends (solve A b reuse) w (fun _ w' ↦ w'.current = true) (fun _ _ ↦ True) := by
  unfold solve
  rw [ends_ite]
  refine ⟨fun _ ↦ trivial, fun _ ↦ ?_⟩
  rw [ends_bind, ends_get]
  dsimp only
  split
  · rw [ends_bind]
    exact (Ends.trivial _ w).mono (fun _ _ _ ↦ rfl) fun _ _ _ ↦ trivial
  · rw [ends_bind]
    exact (Ends.trivial _ w).mono (fun _ _ _ ↦ rfl) fun _ _ _ ↦ trivial

/-- Whether or not a setup for the matrix is at hand, a solve gives the answer. -/
theorem Fits.ends_solve_answer {w : Workspace α} {A : Mat α n n} (h : w.Fits (Table.ofSquare A))
    (b : Vector α n) (reuse : Bool) :
    Ends (solve (Table.ofSquare A) b reuse) w (fun p _ ↦ answer w.options A b = .ok p)
      (fun _ _ ↦ True) := by
  cases reuse with
  | false => exact Workspace.ends_solve_answer A b w
  | true =>
    rw [Ends, h.solve_reuse]
    exact Workspace.ends_solve_answer A b w

end Workspace

namespace Rig

variable {r r' r'' : Rig (Logged δ α) α n}

/-! ## What the loads of residuals leave alone -/

/-- No Jacobian has been loaded, and nothing that came from one has changed. -/
structure Spares (r r' : Rig (Logged δ α) α n) : Prop where
  calls : jacobians r'.calls = jacobians r.calls
  jacobian : r'.store.jacobian = r.store.jacobian
  workspace : r'.store.workspace = r.store.workspace
  factorOwner : r'.store.factorOwner = r.store.factorOwner
  previous : r'.store.previous = r.store.previous
  communicator : r'.store.communicator = r.store.communicator
  id : r'.track.iterate.id = r.track.iterate.id

theorem Spares.refl (r : Rig (Logged δ α) α n) : r.Spares r := ⟨rfl, rfl, rfl, rfl, rfl, rfl, rfl⟩

theorem Spares.trans (h : r.Spares r') (h' : r'.Spares r'') : r.Spares r'' where
  calls := h'.calls.trans h.calls
  jacobian := h'.jacobian.trans h.jacobian
  workspace := h'.workspace.trans h.workspace
  factorOwner := h'.factorOwner.trans h.factorOwner
  previous := h'.previous.trans h.previous
  communicator := h'.communicator.trans h.communicator
  id := h'.id.trans h.id

/-- The factors stay those of the iterate. -/
theorem Spares.factorsCurrentFor (h : r.Spares r') (id : OwnerId) :
    r'.store.factorsCurrentFor id = r.store.factorsCurrentFor id := by
  rw [Store.factorsCurrentFor, Store.factorsCurrentFor, h.factorOwner, h.workspace]

/-- The iterate is moved along a direction. -/
def movedAlong (r : Rig (Logged δ α) α n) (base direction : Vector α n) (step : α) :
    Rig (Logged δ α) α n :=
  { r with track := { r.track with iterate := r.track.iterate.moveAlong base direction step } }

theorem movedAlong_spares (base direction : Vector α n) (step : α) :
    r.Spares (r.movedAlong base direction step) := ⟨rfl, rfl, rfl, rfl, rfl, rfl, rfl⟩

variable [Device δ α]

theorem computeResidual_spares (r : Rig (Logged δ α) α n) :
    Ends computeResidual r (fun _ r' ↦ r.Spares r') (fun _ r' ↦ r.Spares r') := by
  have told := preserves_forward
    (K := fun d : Logged δ α ↦ jacobians d.calls = jacobians r.calls) (n := n)
    (fun same _ _ ↦ same) r.computing rfl
  refine .of_result (computeResidual_run r) ?_ ?_
  · intro ok r' run
    cases run with
    | known => exact .refl r
    | unloaded _ forwarded call =>
      have before := told.ok forwarded
      subst call
      exact ⟨before, rfl, rfl, rfl, rfl, rfl, rfl⟩
    | loaded _ forwarded call =>
      have before := told.ok forwarded
      subst call
      exact ⟨before, rfl, rfl, rfl, rfl, rfl, rfl⟩
  · intro stop r' run
    cases run with
    | reentered => exact .refl r
    | refused _ forwarded =>
      have before := told.error forwarded
      exact ⟨before, rfl, rfl, rfl, rfl, rfl, rfl⟩
    | stuck _ forwarded call =>
      have before := told.ok forwarded
      subst call
      exact ⟨before, rfl, rfl, rfl, rfl, rfl, rfl⟩

/-- A trial: wherever it leads, the iterate has been moved there, and what had been computed where
it was before is its no more. -/
structure Tried (base direction : Vector α n) (r : Rig (Logged δ α) α n) : Prop where
  moved : ∃ step, r.track.iterate.x = addScaled base step direction
  jacobian : r.isValid .jacobian = false
  newton : r.isValid .newton = false
  sighted : r.track.iterate.measured.norms?.isSome = true → r.isValid .residual = true

omit [Device δ α] in
theorem invalid_of_stale {q : Quantity} (stale : r.track.iterate.flags.of q = .stale) :
    r.isValid q = false :=
  Bool.eq_false_iff.2 (Iterate.not_isValid_of_stale stale)

theorem computeResidual_tried (r : Rig (Logged δ α) α n) (base direction : Vector α n) (step : α) :
    Ends computeResidual (r.movedAlong base direction step)
      (fun _ r' ↦ r.Spares r' ∧ Tried base direction r') (fun _ r' ↦ r.Spares r') := by
  refine (computeResidual_spares _).mp (.of_result (computeResidual_run _) ?_ ?_)
  · intro ok r' run spares
    have spared := (r.movedAlong_spares base direction step).trans spares
    cases run with
    | known valid =>
      rw [invalid_of_stale (q := .residual) rfl] at valid
      cases valid
    | unloaded =>
      exact ⟨spared, ⟨step, rfl⟩, invalid_of_stale rfl, invalid_of_stale rfl, nofun⟩
    | loaded _ _ _ good =>
      refine ⟨spared, ⟨step, rfl⟩, invalid_of_stale rfl, invalid_of_stale rfl, fun _ ↦ ?_⟩
      rw [isValid_iff]
      simp [Flags.of, good]
  · intro stop r' run spares
    exact (r.movedAlong_spares base direction step).trans spares

/-- Loading the residual brings no Jacobian. -/
theorem computeResidual_fresh (fresh : r.isValid .jacobian = false) :
    Ends computeResidual r (fun ok r' ↦ r'.isValid .residual = ok ∧ r'.isValid .jacobian = false)
      (fun _ _ ↦ True) := by
  refine .of_result (computeResidual_run r) ?_ fun _ _ _ ↦ trivial
  intro ok r' run
  refine ⟨run.valid, ?_⟩
  cases run with
  | known => exact fresh
  | unloaded =>
    rw [← fresh, Bool.eq_iff_iff, isValid_iff, isValid_iff]
    simp [withoutResidual, Flags.of]
  | loaded => exact invalid_of_stale rfl

/-! ## A load of the Jacobian -/

/-- The call by which the Jacobian is loaded at a rig. -/
def jacobianCall (r : Rig (Logged δ α) α n) : Array α × Array α :=
  (r.track.iterate.x.toArray, r.store.previous.toArray)

/-- A rig after an attempt at its Jacobian, the residual having been there. -/
structure JacobianLoaded (r r' : Rig (Logged δ α) α n) : Prop where
  calls : jacobians r'.calls = r.jacobianCall :: jacobians r.calls
  x : r'.track.iterate.x = r.track.iterate.x
  f : r'.store.residual = r.store.residual
  communicator : r'.store.communicator = r.store.communicator
  workspace : r'.store.workspace = r.store.workspace.invalidate
  residual : r'.isValid .residual = true
  newton : r'.isValid .newton = false

/-- Where the residual is there and the Jacobian is not, the Jacobian is loaded, once. -/
theorem computeJacobian_once (rest : r.AtRest) (valid : r.isValid .residual = true)
    (invalid : r.isValid .jacobian = false) :
    Ends computeJacobian r
      (fun ok r' ↦ r.JacobianLoaded r' ∧ (ok = true → r'.isValid .jacobian = true))
      (fun _ r' ↦ jacobians r'.calls = r.jacobianCall :: jacobians r.calls) := by
  have unneeded : ¬ (r.isValid .residual = false ∨
      r.store.owners.of .auxState ≠ some r.track.iterate.id) := by
    rintro (unready | unowned)
    · rw [valid] at unready
      cases unready
    · exact unowned (rest.owns_auxState valid)
  have here : ∀ {r' : Rig (Logged δ α) α n}, Refreshed r r' → r' = r := by
    intro r' base
    cases base with
    | already => rfl
    | renewed needed => exact absurd needed unneeded
  -- A load leaves the residual, and no direction.
  have loaded {A : Mat α n n} {flags : Flags} {overlay : Overlay α}
      (up : flags.residual = r.track.iterate.flags.residual) (stale : flags.newton = .stale) :
      r.JacobianLoaded (r.put { r.store.afterJacobian r.track.iterate.id
        (r.store.jacobianLoad r.track.x) with jacobian := A }
        { r.track.iterate with flags := flags } overlay) := by
    refine ⟨rfl, rfl, rfl, rfl, rfl, ?_, invalid_of_stale stale⟩
    obtain ⟨flag, owned⟩ := isValid_iff.1 valid
    exact isValid_iff.2 ⟨up.trans flag, by simpa using owned⟩
  refine .of_result (computeJacobian_run r) ?_ ?_
  · intro ok r' run
    cases run with
    | known known =>
      rw [invalid] at known
      cases known
    | unrefreshed _ needed => exact absurd needed unneeded
    | unloaded _ base call failed =>
      cases here base
      subst call
      exact ⟨loaded rfl rfl, nofun⟩
    | loaded _ base call good =>
      cases here base
      subst call
      refine ⟨loaded rfl rfl, fun _ ↦ ?_⟩
      rw [isValid_iff]
      simp [Flags.of, good]
  · intro stop r' run
    cases run with
    | reentered _ busy => exact absurd busy rest.rests.jacobian
    | refused _ needed => exact absurd needed unneeded
    | stuck _ base call =>
      cases here base
      subst call
      rfl

end Rig

namespace Engine

variable {e e' e'' : Engine (Logged δ α) α n} {base direction : Vector α n} {old : α}
  {linear : LinearOptions α} {k : Nat}

section

variable [Device δ α]

/-! ## Following a direction -/

/-- A trial, of whichever step. -/
theorem trial_tried (e : Engine (Logged δ α) α n) (base direction : Vector α n) (step : α) :
    Ends (onRig Rig.computeResidual) (e.movedAlong base direction step)
      (fun _ e' ↦ e'.newton = e.newton ∧ e.rig.Spares e'.rig ∧ e'.rig.Tried base direction)
      (fun _ e' ↦ e.rig.Spares e'.rig) := by
  rw [ends_onRig]
  exact (Rig.computeResidual_tried e.rig base direction step).mono
    (fun _ _ tried ↦ ⟨rfl, tried⟩) fun _ _ spares ↦ spares

theorem backtrack_tried (tried : e.rig.Tried base direction) (trials : Nat) (step : α) :
    Ends (backtrack base direction old trials step) e
      (fun _ e' ↦ e'.newton = e.newton ∧ e.rig.Spares e'.rig ∧ e'.rig.Tried base direction)
      (fun _ e' ↦ e.rig.Spares e'.rig) := by
  induction trials generalizing e step with
  | zero => exact ⟨rfl, .refl _, tried⟩
  | succ trials ih =>
    rw [backtrack]
    simp only [ends_bind, ends_get, ends_ite, ends_pure, ends_modifyTrack]
    refine ⟨fun _ ↦ ⟨trivial, .refl _, tried⟩, fun _ ↦ ?_⟩
    refine (trial_tried e base direction (step * 0.5)).mono ?_ fun _ _ spares ↦ spares
    rintro _ e₁ ⟨same, spares, tried₁⟩
    refine (ih tried₁ (step * 0.5)).mono ?_ fun _ _ spares' ↦ spares.trans spares'
    rintro _ e₂ ⟨same', spares', tried₂⟩
    exact ⟨same'.trans same, spares.trans spares', tried₂⟩

theorem lineSearch_tried (e : Engine (Logged δ α) α n) (base direction : Vector α n) (old : α) :
    Ends (lineSearch base direction old) e
      (fun _ e' ↦ e'.newton = e.newton ∧ e.rig.Spares e'.rig ∧ e'.rig.Tried base direction)
      (fun _ e' ↦ e.rig.Spares e'.rig) := by
  unfold lineSearch
  simp only [ends_bind, ends_get, ends_modifyTrack]
  refine (trial_tried e base direction 1).mono ?_ fun _ _ spares ↦ spares
  rintro _ e₁ ⟨same, spares, tried⟩
  split
  · exact ⟨same, spares, tried⟩
  · refine (backtrack_tried tried _ 1).mono ?_ fun _ _ spares' ↦ spares.trans spares'
    rintro _ e₂ ⟨same', spares', tried'⟩
    exact ⟨same'.trans same, spares.trans spares', tried'⟩

/-- Following a direction counts as an iteration, and it ends at an iterate on the way. -/
theorem pursue_tried (e : Engine (Logged δ α) α n) (direction : Vector α n) :
    Ends (pursue direction) e
      (fun answer e' ↦ e'.newton = { e.newton with iteration := e.newton.iteration + 1 } ∧
        e.rig.Spares e'.rig ∧ e'.rig.Tried e.iterate.x direction ∧
        ∀ previous, answer = .ok previous →
          previous = e.iterate.x ∧ e'.rig.isValid .residual = true)
      (fun _ e' ↦ e.rig.Spares e'.rig) := by
  unfold pursue
  simp only [ends_bind, ends_get, ends_modifyNewton]
  refine (lineSearch_tried e _ direction _).mono ?_ fun _ _ spares ↦ spares
  rintro _ e₁ ⟨same, spares, tried⟩
  rw [same]
  split
  · rename_i norms measured
    have valid : e₁.rig.isValid .residual = true := by
      refine tried.sighted ?_
      rw [show e₁.rig.track.iterate.measured.norms? = some norms from measured]
      rfl
    rw [ends_ite]
    refine ⟨fun _ ↦ ⟨rfl, spares, tried, fun _ answered ↦ (by cases answered)⟩,
      fun _ ↦ ⟨rfl, spares, tried, ?_⟩⟩
    rintro previous ⟨⟩
    exact ⟨rfl, valid⟩
  · exact ⟨rfl, spares, tried, fun _ answered ↦ (by cases answered)⟩

end

/-! ## The direction -/

/-- An engine at which the Newton direction can be computed, with a setup that is at hand or with
one that is to be built. -/
structure Poised (linear : LinearOptions α) (reuse : Bool) (e : Engine (Logged δ α) α n) :
    Prop where
  residual : e.rig.isValid .residual = true
  newton : e.rig.isValid .newton = false
  options : e.rig.store.workspace.options = linear
  fits : e.rig.store.workspace.Fits (Table.ofSquare e.rig.store.jacobian)
  ready : e.rig.reuses reuse = true ∨ e.rig.isValid .jacobian = true
  blank : (e.rig.store.communicator.normInf (zeros α n).toArray == 0) = true

/-- A direction has been computed with the setup for the stored Jacobian, and the setup is there for
the next one. -/
structure Directs (linear : LinearOptions α) (e : Engine (Logged δ α) α n) (d : Vector α n)
    (e' : Engine (Logged δ α) α n) : Prop where
  answer : ∃ stats, Workspace.answer linear e.rig.store.jacobian
    (Store.rightHandSide e.rig.store.residual) = .ok (d, stats)
  options : e'.rig.store.workspace.options = linear
  fits : e'.rig.store.workspace.Fits (Table.ofSquare e.rig.store.jacobian)
  current : e'.rig.store.factorsCurrentFor e'.iterate.id = true

/-- Solving for a direction changes the direction and the setup. -/
structure Aims (e e' : Engine (Logged δ α) α n) : Prop where
  newton : e'.newton = e.newton
  x : e'.iterate.x = e.iterate.x
  calls : jacobians e'.rig.calls = jacobians e.rig.calls
  jacobian : e'.rig.store.jacobian = e.rig.store.jacobian
  communicator : e'.rig.store.communicator = e.rig.store.communicator

/-- A direction that is handed back comes from the setup for the stored Jacobian. -/
theorem usableDirection_directs {reuse : Bool} (poised : e.Poised linear reuse) :
    Ends (usableDirection reuse) e
      (fun answer e' ↦ e.Aims e' ∧ ∀ d, answer = .ok d → e.Directs linear d e')
      (fun _ e' ↦ jacobians e'.rig.calls = jacobians e.rig.calls) := by
  have directs : ∀ {d : Vector α n} {stats : SolveStats α} {w : Workspace α}
      {r : Rig (Logged δ α) α n} (_ : r.store = e.rig.store.afterSolve e.iterate.id w d stats)
      (_ : r.track.iterate.id = e.iterate.id)
      (_ : e.rig.store.linearSolve (e.rig.reuses reuse) = .ok (d, stats) w),
      e.Directs linear d { e with rig := r } := by
    intro d stats w r store id run
    have answered := (poised.fits.ends_solve_answer _ _).ok run
    rw [poised.options] at answered
    have options := (Workspace.ends_solve_options _ _ _ _).ok run
    have current := (Workspace.ends_solve_current _ _ _ _).ok run
    refine ⟨⟨stats, answered⟩, ?_, ?_, ?_⟩
    · rw [store]
      exact options.trans poised.options
    · rw [store]
      exact (poised.fits.ends_solve _).ok run
    · show r.store.factorsCurrentFor r.track.iterate.id = true
      rw [store, id, Store.factorsCurrentFor]
      simp [Store.afterSolve, current]
  unfold usableDirection
  simp only [ends_bind, ends_onRig, ends_get, ends_ite]
  refine .of_result (Rig.computeNewton_run e.rig reuse) ?_ ?_
  · intro ok r run
    cases run with
    | known valid =>
      rw [poised.newton] at valid
      cases valid
    | @solved _ _ _ d stats w run =>
      refine ⟨fun good ↦ ?_, fun _ ↦ ⟨fun _ ↦ ?_, fun _ ↦ ?_⟩⟩
      · have valid : Rig.isValid (e.rig.put (e.rig.store.afterSolve e.iterate.id w d stats)
            (Rig.withNewton e.iterate (if e.rig.store.accepts d stats then .valid else .stale))
            e.rig.track.overlay) .newton = true := by
          rw [Rig.isValid_iff]
          simp [good, Rig.withNewton, Flags.of]
        have read := Rig.newton_of_valid valid
        refine ends_orFault.2 ⟨fun b read' ↦ ?_, fun cause read' ↦ ?_⟩
        · cases read.symm.trans read'
          refine ⟨⟨rfl, rfl, rfl, rfl, rfl⟩, ?_⟩
          rintro _ ⟨⟩
          exact directs rfl rfl run
        · cases read.symm.trans read'
      · exact ⟨⟨rfl, rfl, rfl, rfl, rfl⟩, fun _ answered ↦ (by cases answered)⟩
      · refine ⟨⟨rfl, rfl, rfl, rfl, rfl⟩, ?_⟩
        rintro _ ⟨⟩
        exact directs rfl rfl run
    | refused =>
      refine ⟨fun solved ↦ (by cases solved), fun _ ↦ ⟨fun _ ↦ ⟨⟨rfl, rfl, rfl, rfl, rfl⟩,
        fun _ answered ↦ (by cases answered)⟩, fun useful ↦ ?_⟩⟩
      refine absurd ?_ useful
      rw [Bool.or_eq_true]
      exact .inr poised.blank
  · intro stop r run
    cases run with
    | noResidual => rfl
    | noJacobian => rfl
    | stopped => rfl

/-! ## One iteration -/

/-- The load of a Jacobian that is due in the iteration from an engine. -/
def due (k : Nat) (e : Engine (Logged δ α) α n) : List (Array α × Array α) :=
  if k ∣ e.newton.iteration then [e.rig.jacobianCall] else []

/-- The setup for the stored Jacobian is at hand, and there is no direction yet. -/
structure Equipped (e : Engine (Logged δ α) α n) : Prop where
  newton : e.rig.isValid .newton = false
  fits : e.rig.store.workspace.Fits (Table.ofSquare e.rig.store.jacobian)
  current : e.rig.store.factorsCurrentFor e.iterate.id = true

/-- An engine between two iterations of a chord method. -/
structure Between (linear : LinearOptions α) (k : Nat) (e : Engine (Logged δ α) α n) : Prop where
  positive : 0 < k
  residual : e.rig.isValid .residual = true
  jacobian : e.rig.isValid .jacobian = false
  method : e.newton.options.method = .chord k
  options : e.rig.store.workspace.options = linear
  blank : (e.rig.store.communicator.normInf (zeros α n).toArray == 0) = true
  equipped : ¬ k ∣ e.newton.iteration → e.Equipped

/-- An iteration has gone along a direction: that of the setup for the matrix `A`. -/
structure Follows (linear : LinearOptions α) (A : Mat α n n) (e e' : Engine (Logged δ α) α n) :
    Prop where
  direction : ∃ d stats step, Workspace.answer linear A (Store.rightHandSide e.rig.store.residual) =
    .ok (d, stats) ∧ e'.iterate.x = addScaled e.iterate.x step d
  jacobian : e'.rig.store.jacobian = A
  setup : linear.build (Table.ofSquare A) = .ok e'.rig.store.workspace.kept

/-- Where a Jacobian is due the iteration takes it. -/
theorem Between.keepsFactors_of_due (between : e.Between linear k) (due : k ∣ e.newton.iteration) :
    e.keepsFactors = false := by
  unfold Engine.keepsFactors
  rw [between.method]
  simp [Nat.mod_eq_zero_of_dvd due]

/-- Elsewhere it keeps the setup. -/
theorem Between.keepsFactors_of_not_due (between : e.Between linear k)
    (due : ¬ k ∣ e.newton.iteration) : e.keepsFactors = true := by
  have several : 1 < k := by
    refine Nat.lt_of_le_of_ne between.positive fun one ↦ due ?_
    rw [← one]
    exact Nat.one_dvd _
  have remains : e.newton.iteration % k ≠ 0 := fun none ↦ due (Nat.dvd_of_mod_eq_zero none)
  unfold Engine.keepsFactors
  rw [between.method]
  simp [several, remains, (between.equipped due).current]

variable [Device δ α]

/-- From the direction on, an iteration is the same whether or not a Jacobian has been loaded. -/
theorem direct_scheduled {reuse : Bool} (poised : e.Poised linear reuse)
    (method : e.newton.options.method = .chord k) (positive : 0 < k) :
    Ends (usableDirection reuse) e
      (fun answer e₁ ↦ Ends (match answer with
        | .error verdict => pure (.error verdict)
        | .ok d => pursue d) e₁
        (fun answer e' ↦ jacobians e'.rig.calls = jacobians e.rig.calls ∧
          ∀ previous, answer = .ok previous → previous = e.iterate.x ∧ e'.Between linear k ∧
            e.Follows linear e.rig.store.jacobian e')
        (fun _ e' ↦ jacobians e'.rig.calls = jacobians e.rig.calls))
      (fun _ e' ↦ jacobians e'.rig.calls = jacobians e.rig.calls) := by
  refine (usableDirection_directs poised).mono ?_ fun _ _ same ↦ same
  rintro answer e₁ ⟨solves, directs⟩
  cases answer with
  | error verdict => exact ⟨solves.calls, nofun⟩
  | ok d =>
    have directs := directs d rfl
    refine (pursue_tried e₁ d).mono ?_ fun _ _ spares ↦ spares.calls.trans solves.calls
    rintro answer e' ⟨newton, spares, tried, went⟩
    refine ⟨spares.calls.trans solves.calls, ?_⟩
    rintro previous rfl
    obtain ⟨rfl, valid⟩ := went previous rfl
    have jacobian : e'.rig.store.jacobian = e.rig.store.jacobian :=
      spares.jacobian.trans solves.jacobian
    have fits : e'.rig.store.workspace.Fits (Table.ofSquare e.rig.store.jacobian) := by
      rw [spares.workspace]
      exact directs.fits
    have options : e'.rig.store.workspace.options = linear := by
      rw [spares.workspace]
      exact directs.options
    have current : e'.rig.store.factorsCurrentFor e'.iterate.id = true := by
      have same := spares.factorsCurrentFor e₁.iterate.id
      rw [directs.current] at same
      rw [show e'.iterate.id = e₁.iterate.id from spares.id]
      exact same
    refine ⟨solves.x, ⟨positive, valid, tried.jacobian, ?_, options, ?_, fun _ ↦ ?_⟩, ?_⟩
    · rw [newton, solves.newton]
      exact method
    · rw [spares.communicator, solves.communicator]
      exact poised.blank
    · refine ⟨tried.newton, ?_, current⟩
      rw [jacobian]
      exact fits
    · obtain ⟨stats, answered⟩ := directs.answer
      obtain ⟨step, moved⟩ := tried.moved
      refine ⟨⟨d, stats, step, answered, ?_⟩, jacobian, ?_⟩
      · rw [solves.x] at moved
        exact moved
      · rw [Store.factorsCurrentFor, Bool.and_eq_true] at current
        rw [← options]
        exact fits.built (fits.reuses current.2)

/-- The Jacobian of the iteration from `e`: the one that is loaded there, if one is due, or else the
one at hand. -/
def GoesBy (k : Nat) (e : Engine (Logged δ α) α n) (A : Mat α n n) : Prop :=
  (k ∣ e.newton.iteration → ∃ r, Rig.computeJacobian e.rig = .ok true r ∧ r.store.jacobian = A) ∧
    (¬ k ∣ e.newton.iteration → e.rig.store.jacobian = A)

/-- An iteration loads the Jacobian if one is due, once, and goes along the direction of its
Jacobian. -/
theorem approach_scheduled (rest : e.rig.AtRest) (between : e.Between linear k) :
    Ends approach e
      (fun answer e' ↦ jacobians e'.rig.calls = e.due k ++ jacobians e.rig.calls ∧
        ∀ previous, answer = .ok previous → previous = e.iterate.x ∧ e'.Between linear k ∧
          ∃ A, e.GoesBy k A ∧ e.Follows linear A e')
      (fun _ e' ↦ jacobians e'.rig.calls = e.due k ++ jacobians e.rig.calls) := by
  unfold approach
  by_cases due : k ∣ e.newton.iteration
  · have now : e.due k = [e.rig.jacobianCall] := if_pos due
    simp only [ends_bind, ends_get, between.keepsFactors_of_due due, Bool.not_false, ends_onRig,
      ends_ite, ends_pure, now]
    refine ⟨fun _ ↦ ?_, fun no ↦ absurd trivial no⟩
    have once := Rig.computeJacobian_once rest between.residual between.jacobian
    refine .of_result (R := fun result ↦ Rig.computeJacobian e.rig = result) rfl ?_
      fun stop r run ↦ once.error run
    intro ok r run
    obtain ⟨loaded, there⟩ := once.ok run
    refine ⟨fun _ ↦ ⟨loaded.calls, fun _ answered ↦ (by cases answered)⟩, fun good ↦ ?_⟩
    obtain rfl : ok = true := by simpa using good
    refine (ends_of_ok (Rig.computeResidual_of_valid loaded.residual)).2
      ⟨fun failed ↦ (by cases failed), fun _ ↦ ?_⟩
    have poised : Poised linear false ({ e with rig := r } : Engine (Logged δ α) α n) := by
      refine ⟨loaded.residual, loaded.newton, ?_, ?_, .inr (there rfl), ?_⟩
      · rw [loaded.workspace]
        exact between.options
      · rw [loaded.workspace]
        exact .of_stale rfl rfl
      · rw [loaded.communicator]
        exact between.blank
    refine (direct_scheduled poised between.method between.positive).mono ?_
      fun _ _ same ↦ same.trans loaded.calls
    refine fun answer e₁ ends ↦ ends.mono ?_ fun _ _ same ↦ same.trans loaded.calls
    rintro answer e' ⟨same, went⟩
    refine ⟨same.trans loaded.calls, fun previous answered ↦ ?_⟩
    obtain ⟨rfl, between', follows⟩ := went previous answered
    refine ⟨loaded.x, between', r.store.jacobian, ⟨fun _ ↦ ⟨r, run, rfl⟩, (absurd due ·)⟩, ?_⟩
    obtain ⟨d, stats, step, direction, moved⟩ := follows.direction
    refine ⟨⟨d, stats, step, ?_, ?_⟩, follows.jacobian, follows.setup⟩
    · rw [← loaded.f]
      exact direction
    · rw [show e.iterate.x = r.track.iterate.x from loaded.x.symm]
      exact moved
  · have now : e.due k = [] := if_neg due
    have equipped := between.equipped due
    simp only [ends_bind, ends_get, between.keepsFactors_of_not_due due, Bool.not_true,
      Bool.false_eq_true, ends_onRig, ends_ite, ends_pure, now]
    refine ⟨False.elim, fun _ ↦ ?_⟩
    refine (ends_of_ok (Rig.computeResidual_of_valid between.residual)).2
      ⟨fun failed ↦ (by cases failed), fun _ ↦ ?_⟩
    have poised : Poised linear true ({ e with rig := e.rig } : Engine (Logged δ α) α n) :=
      ⟨between.residual, equipped.newton, between.options, equipped.fits, .inl equipped.current,
        between.blank⟩
    refine (direct_scheduled poised between.method between.positive).mono ?_ fun _ _ same ↦ same
    refine fun answer e₁ ends ↦ ends.mono ?_ fun _ _ same ↦ same
    rintro answer e' ⟨same, went⟩
    refine ⟨same, fun previous answered ↦ ?_⟩
    obtain ⟨rfl, between', follows⟩ := went previous answered
    exact ⟨rfl, between', _, ⟨(absurd · due), fun _ ↦ rfl⟩, follows⟩

/-! ## A whole solve -/

/-- The loads of the Jacobian that are due in the first `m` iterations of a solve from `e`, the
latest first, before those of earlier times. -/
inductive LoadsOnSchedule (k : Nat) (e : Engine (Logged δ α) α n) :
    (m : Nat) → List (Array α × Array α) → Prop
  | start : LoadsOnSchedule k e 0 (jacobians e.rig.calls)
  | due {m : Nat} {e' : Engine (Logged δ α) α n} {log : List (Array α × Array α)}
    (earlier : LoadsOnSchedule k e m log) (there : e.Attains m e') (due : k ∣ m) :
    LoadsOnSchedule k e (m + 1) (e'.rig.jacobianCall :: log)
  | spared {m : Nat} {log : List (Array α × Array α)} (earlier : LoadsOnSchedule k e m log)
    (due : ¬ k ∣ m) : LoadsOnSchedule k e (m + 1) log

/-- The Jacobian that was loaded at the last iteration, up to the `i`-th of a solve from `e`, whose
number is a multiple of `k`. -/
inductive LastLoaded (k : Nat) (e : Engine (Logged δ α) α n) : (i : Nat) → Mat α n n → Prop
  | due {i : Nat} {e' : Engine (Logged δ α) α n} {r : Rig (Logged δ α) α n} (there : e.Attains i e')
    (due : k ∣ i) (run : Rig.computeJacobian e'.rig = .ok true r) :
    LastLoaded k e i r.store.jacobian
  | spared {i : Nat} {A : Mat α n n} (earlier : LastLoaded k e i A) (due : ¬ k ∣ i + 1) :
    LastLoaded k e (i + 1) A

/-- A solve by a chord method between two iterations, of which it has made `i`. -/
structure Stands (linear : LinearOptions α) (k : Nat) (e : Engine (Logged δ α) α n) (i : Nat)
    (e' : Engine (Logged δ α) α n) : Prop where
  rest : e'.rig.AtRest
  between : e'.Between linear k
  loads : LoadsOnSchedule k e i (jacobians e'.rig.calls)
  last : ∀ j, j + 1 = i → LastLoaded k e j e'.rig.store.jacobian

omit [Device δ α] in
/-- What the battery changes is not the iteration's. -/
theorem Between.judged (between : e.Between linear k) {battery : Battery α} {status : Status}
    (alike : e.newton.battery.Alike battery) :
    Between linear k
      { e with newton := { e.newton with battery := battery, status := status } } where
  positive := between.positive
  residual := between.residual
  jacobian := between.jacobian
  method := by
    show battery.options.method = _
    rw [alike.options]
    exact between.method
  options := between.options
  blank := between.blank
  equipped due := ⟨(between.equipped due).newton, (between.equipped due).fits,
    (between.equipped due).current⟩

/-- An iteration at whose end the battery does not ask for the direction. -/
theorem iterateOnce_scheduled (rest : e.rig.AtRest) (between : e.Between linear k)
    (unasked : e.asks = false) :
    Ends iterateOnce e
      (fun status e' ↦ jacobians e'.rig.calls = e.due k ++ jacobians e.rig.calls ∧
        (status.isDecided = false →
          e'.Between linear k ∧ e.GoesBy k e'.rig.store.jacobian))
      (fun _ e' ↦ jacobians e'.rig.calls = e.due k ++ jacobians e.rig.calls) := by
  have scheduled := approach_scheduled rest between
  rw [iterateOnce_eq, ends_bind]
  refine .of_result (R := fun result ↦ approach e = result) rfl ?_
    fun stop e' run ↦ scheduled.error run
  intro answer e' run
  obtain ⟨loads, went⟩ := scheduled.ok run
  cases answer with
  | error verdict => exact ⟨loads, nofun⟩
  | ok previous =>
    obtain ⟨-, between', A, goes, follows⟩ := went previous rfl
    have silent := (asks_of_approach run).symm.trans unasked
    rw [settle, ends_bind]
    refine (classify_unasked between'.residual silent).mono ?_ ?_
    · rintro status _ ⟨battery, alike, rfl⟩
      rw [ends_finish]
      refine ⟨loads, fun _ ↦ ⟨between'.judged alike, ?_⟩⟩
      show e.GoesBy k e'.rig.store.jacobian
      rw [follows.jacobian]
      exact goes
    · rintro stop e'' same
      rw [same]
      exact loads

/-- An engine at rest that holds no valid Jacobian, before a solve by a chord method. -/
structure Fresh (k : Nat) (e : Engine (Logged δ α) α n) : Prop where
  rest : e.rig.AtRest
  positive : 0 < k
  jacobian : e.rig.isValid .jacobian = false
  method : e.newton.options.method = .chord k
  blank : (e.rig.store.communicator.normInf (zeros α n).toArray == 0) = true

/-- A solve begins with the residual. -/
theorem begin_scheduled (fresh : e.Fresh k) :
    Ends begin e
      (fun status e' ↦ jacobians e'.rig.calls = jacobians e.rig.calls ∧
        (status.isDecided = false → e'.Between e.rig.store.workspace.options k))
      (fun _ e' ↦ jacobians e'.rig.calls = jacobians e.rig.calls) := by
  unfold begin
  simp only [ends_bind, ends_modifyNewton, ends_onRig, ends_ite, ends_get, ends_finish]
  refine ((Rig.computeResidual_spares e.rig).and (Rig.computeResidual_fresh fresh.jacobian)).mono ?_
    fun _ _ stopped ↦ stopped.1.calls
  rintro ok r ⟨spares, valid, fresh'⟩
  refine ⟨fun good ↦ ?_, fun _ ↦ ⟨spares.calls, fun decided ↦ (by cases decided)⟩⟩
  subst good
  have reset := Battery.reset_alike e.newton.battery
  refine (classify_unasked valid (Battery.needsDirection_initial rfl)).mono ?_ ?_
  · rintro status _ ⟨battery, alike, rfl⟩
    refine ⟨spares.calls, fun _ ↦
      ⟨fresh.positive, valid, fresh', ?_, ?_, ?_, (absurd (Nat.dvd_zero k) ·)⟩⟩
    · show battery.options.method = _
      rw [alike.options]
      exact fresh.method
    · rw [← spares.workspace]
    · have blank := fresh.blank
      rw [← spares.communicator] at blank
      exact blank
  · rintro stop e' same
    rw [same]
    exact spares.calls

theorem LoadsOnSchedule.next {m : Nat} {log : List (Array α × Array α)}
    (earlier : LoadsOnSchedule k e m log) (attains : e.Attains m e') :
    LoadsOnSchedule k e (m + 1) (e'.due k ++ log) := by
  unfold Engine.due
  rw [attains.driver.2.2]
  split
  · rename_i due
    exact .due earlier attains due
  · rename_i due
    exact .spared earlier due

theorem Stands.goesBy {i : Nat} {A : Mat α n n} (stands : e.Stands linear k i e')
    (attains : e.Attains i e') (goes : e'.GoesBy k A) : LastLoaded k e i A := by
  rw [GoesBy, attains.driver.2.2] at goes
  by_cases due : k ∣ i
  · obtain ⟨r, run, rfl⟩ := goes.1 due
    exact .due attains due run
  · cases i with
    | zero => exact absurd (Nat.dvd_zero k) due
    | succ j =>
      rw [← goes.2 due]
      exact .spared (stands.last j rfl) due

/-- What holds of a solve between two iterations. -/
theorem Attains.stands {i : Nat} (fresh : e.Fresh k)
    (unasked : ∀ i e', e.Attains i e' → e'.asks = false) (attains : e.Attains i e') :
    e.Stands e.rig.store.workspace.options k i e' := by
  induction attains with
  | @begun status e' run undecided =>
    obtain ⟨loads, between⟩ := (begin_scheduled fresh).ok run
    have kept := ((begin_keeps Rig.keeps_rest fresh.rest).ok run).1.keeps
    refine ⟨kept, between undecided, ?_, nofun⟩
    rw [loads]
    exact .start
  | @iterated i status e' e'' earlier run undecided stands =>
    obtain ⟨loads, went⟩ :=
      (iterateOnce_scheduled stands.rest stands.between (unasked i e' earlier)).ok run
    obtain ⟨between, goes⟩ := went undecided
    have kept := ((iterateOnce_keeps Rig.keeps_rest stands.rest).ok run).keeps
    refine ⟨kept, between, ?_, ?_⟩
    · rw [loads]
      exact stands.loads.next earlier
    · rintro _ ⟨⟩
      exact stands.goesBy earlier goes

theorem Finishes.loads {m : Nat} (fresh : e.Fresh k)
    (unasked : ∀ i e', e.Attains i e' → e'.asks = false) (finishes : e.Finishes m e') :
    LoadsOnSchedule k e m (jacobians e'.rig.calls) := by
  cases finishes with
  | decided run =>
    rw [((begin_scheduled fresh).ok run).1]
    exact .start
  | stopped run =>
    rw [(begin_scheduled fresh).error run]
    exact .start
  | @decidedLater i status e₁ _ earlier run =>
    have stands := earlier.stands fresh unasked
    have scheduled := iterateOnce_scheduled stands.rest stands.between (unasked i e₁ earlier)
    rw [(scheduled.ok run).1]
    exact stands.loads.next earlier
  | @stoppedLater i stop e₁ _ earlier run =>
    have stands := earlier.stands fresh unasked
    have scheduled := iterateOnce_scheduled stands.rest stands.between (unasked i e₁ earlier)
    rw [scheduled.error run]
    exact stands.loads.next earlier

end Engine

/-! ## A bench of exact numbers -/

/-- A device layer of one element whose current is the square of its voltage. -/
structure SquareLaw where
  source : ExtendedRat

namespace SquareLaw

instance instDevice : Device SquareLaw ExtendedRat where
  unknowns _ := 1
  loadResidual d x _ _ := ⟨true, Vector.ofFn fun i ↦ x.get i * x.get i - d.source, d⟩
  loadJacobian d x _ _ := ⟨true, Mat.ofFn fun i _ ↦ 2.0 * x.get i, d⟩

/-- A chord iteration from two, in which every other Jacobian is loaded. -/
def engine : Engine (Logged SquareLaw ExtendedRat) ExtendedRat 1 where
  rig := ⟨.new ⟨⟨1⟩, []⟩ .serial .standard 1, { iterate := { id := 0, x := #v[2.0] } }⟩
  newton :=
    let standard : NewtonOptions ExtendedRat := .standard
    { battery := .new .serial
        { standard with method := .chord 2, rhsTol := 0.1, machPrecTol := 0.1 } {} false }

end SquareLaw

/-! ## The schedule -/

namespace Engine

variable [Device δ α] {e e' : Engine (Logged δ α) α n} {k : Nat}

/-- **The schedule of a chord iteration.**  A solve by a chord method of period `k`, from an engine
at rest that holds no valid Jacobian, in which the battery never asks for the Newton direction:
whatever the device layer does, Jacobians are loaded at the iterations whose number is a multiple of
`k`, once each, at the iterate where the iteration stands, and nowhere else.  Each iteration that
goes along a direction goes along that of the Jacobian that was loaded last, and in between the
setup for it is there and is kept.  (Of the communicator it is supposed that zeros have the norm
zero: it is by their norm that the zeros after a failed linear solve are told from a direction.)

With a period of one iteration, or none, the solve is that by the full method: it stands at the same
iterates, with the same loads behind it, and has the same outcome. -/
theorem chord_schedule (e : Engine (Logged δ α) α n) (rest : e.rig.AtRest)
    (fresh : e.rig.isValid .jacobian = false) (method : e.newton.options.method = .chord k)
    (blank : (e.rig.store.communicator.normInf (zeros α n).toArray == 0) = true) :
    (0 < k → (∀ i e', e.Attains i e' → e'.asks = false) →
      (∀ i e', e.Attains i e' → ∀ previous e'', approach e' = .ok (.ok previous) e'' →
        previous = e'.iterate.x ∧
        ∃ A, LastLoaded k e i A ∧ e'.Follows e.rig.store.workspace.options A e'' ∧
          (¬ k ∣ i → e'.keepsFactors = true ∧
            e.rig.store.workspace.options.build (Table.ofSquare A) =
              .ok e'.rig.store.workspace.kept)) ∧
      Ends solve e
        (fun outcome e' ↦ outcome = e'.newton.outcome ∧
          ∃ m, e.Finishes m e' ∧ LoadsOnSchedule k e m (jacobians e'.rig.calls))
        (fun _ e' ↦ ∃ m, e.Finishes m e' ∧ LoadsOnSchedule k e m (jacobians e'.rig.calls))) ∧
    (k ≤ 1 →
      (∀ i, (e.withMethod .full).reached? i = (e.reached? i).map (withMethod .full)) ∧
      Alike (fun t t' ↦ t' = t.withMethod .full) Eq (solve e) (solve (e.withMethod .full))) := by
  refine ⟨fun positive unasked ↦ ?_, fun few ↦ ?_⟩
  · have fresh : e.Fresh k := ⟨rest, positive, fresh, method, blank⟩
    refine ⟨fun i e' attains previous e'' run ↦ ?_, ?_⟩
    · have stands := attains.stands fresh unasked
      obtain ⟨-, went⟩ := (approach_scheduled stands.rest stands.between).ok run
      obtain ⟨same, -, A, goes, follows⟩ := went previous rfl
      have last := stands.goesBy attains goes
      refine ⟨same, A, last, follows, fun spared ↦ ?_⟩
      rw [← attains.driver.2.2] at spared
      have equipped := stands.between.equipped spared
      have current := equipped.current
      rw [Store.factorsCurrentFor, Bool.and_eq_true] at current
      refine ⟨stands.between.keepsFactors_of_not_due spared, ?_⟩
      rw [← goes.2 spared, ← stands.between.options]
      exact equipped.fits.built (equipped.fits.reuses current.2)
    · refine solve_finishes.mono ?_ ?_
      · rintro outcome e' ⟨same, m, finishes⟩
        exact ⟨same, m, finishes, finishes.loads fresh unasked⟩
      · rintro stop e' ⟨m, finishes⟩
        exact ⟨m, finishes, finishes.loads fresh unasked⟩
  · have never : e.newton.NeverReuses := ⟨k, few, method⟩
    refine ⟨reached?_withMethod never, ?_⟩
    have alike := unreused_solve e (e.withMethod .full) ⟨never, rfl⟩
    generalize solve e = result, solve (e.withMethod .full) = result' at alike ⊢
    cases alike with
    | ok answers states => exact .ok answers states.same
    | error states => exact .error states.same

/-- Three iterations with two loads, by a chord method of period two. -/
theorem chord_schedule_squareLaw :
    Ends solve SquareLaw.engine
      (fun outcome e' ↦ outcome.converged = true ∧ outcome.iterations = 3 ∧
        jacobians e'.rig.calls = [(#[1.109375], #[0.0]), (#[2.0], #[0.0])] ∧
        ∃ m, SquareLaw.engine.Finishes m e' ∧
          LoadsOnSchedule 2 SquareLaw.engine m (jacobians e'.rig.calls))
      fun _ _ ↦ False := by
  have known : Ends solve SquareLaw.engine
      (fun outcome e' ↦ outcome.converged = true ∧ outcome.iterations = 3 ∧
        jacobians e'.rig.calls = [(#[1.109375], #[0.0]), (#[2.0], #[0.0])])
      fun _ _ ↦ False := by
    decide +kernel
  have unasked : ∀ i e', SquareLaw.engine.Attains i e' → e'.asks = false :=
    unasked_of_ended (m := 3) (by decide +kernel) (by decide +kernel)
  obtain ⟨scheduled, -⟩ := chord_schedule (k := 2) SquareLaw.engine ⟨rfl, .of_fresh rfl⟩
    (by decide +kernel) rfl (by decide +kernel)
  refine (known.and (scheduled (by decide) unasked).2).mono ?_ fun _ _ stopped ↦ stopped.1
  rintro outcome e' ⟨⟨converged, three, loads⟩, -, finishes⟩
  exact ⟨converged, three, loads, finishes⟩

end Engine

end OperatingPoint
