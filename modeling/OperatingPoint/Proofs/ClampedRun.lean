import OperatingPoint.Proofs.CarriedRun
import OperatingPoint.Proofs.Clamps
import OperatingPoint.Proofs.EndValues
import OperatingPoint.Proofs.Journals

/-!
# Clamped solves

In exact arithmetic an iterate that is moved to where a clamp holds it is never moved off again.
Wherever a residual is computed it is zero in the held rows, so every direction is too: a new one, one
from factors of an earlier Jacobian, and what an iterative solver leaves before it has converged.
That goes for plain Newton and for the stepping of a conductance to reference.

What the device layer is loaded at, and what is handed to it, is read off its journal.
-/

set_option autoImplicit false

namespace OperatingPoint

open Step

theorem Newton.Trial.finite {α : Type} [Scalar α] (exact : Scalar.Exact α) {step : α}
    (trial : Newton.Trial step) : Scalar.isFinite step = true := by
  induction trial with
  | whole => exact exact.finite_one
  | half _ ih => exact exact.finite_mul ih exact.finite_half

namespace Journal

variable {δ α : Type} {c : Clamp α} {before : List (Array α)} {j j' : Journal δ α}

/-- All that a device layer was loaded at, or was handed, since a certain time is where a clamp holds
it. -/
def Held (c : Clamp α) (before : List (Array α)) (j : Journal δ α) : Prop :=
  ∃ later, j.points = later ++ before ∧ ∀ x ∈ later, c.Holds x

theorem Held.refl (c : Clamp α) (j : Journal δ α) : j.Held c j.points :=
  ⟨[], rfl, List.forall_mem_nil _⟩

theorem Held.of_same (h : j.Held c before) (same : j'.points = j.points) : j'.Held c before := by
  obtain ⟨later, points, held⟩ := h
  exact ⟨later, same.trans points, held⟩

/-- One more point. -/
theorem Held.cons (h : j.Held c before) {x : Array α} (holds : c.Holds x)
    (one : j'.points = x :: j.points) : j'.Held c before := by
  obtain ⟨later, points, held⟩ := h
  exact ⟨x :: later, one.trans (congrArg _ points), List.forall_mem_cons.2 ⟨holds, held⟩⟩

end Journal

variable {δ α : Type} [Scalar α] [DirectSolver α] {n : Nat} {layer : Journal δ α}
  {F : Augmentation α} {forwarding : Bool} {c : Clamp α} {before : List (Array α)}
  {r r' : Rig (Journal δ α) α n}

/-! ## Rigs under a clamp -/

namespace Rig

/-- The iterate, and all that the device layer has seen of it, is where a clamp holds it. -/
structure InPlace (c : Clamp α) (before : List (Array α)) (r : Rig (Journal δ α) α n) : Prop where
  holds : c.Holds r.track.iterate.x.toArray
  points : r.journal.Held c before

/-- Factors that may be reused come from a matrix with rows of the identity, and so does the matrix
at hand. -/
def Reusable (rows : List Nat) (r : Rig (Journal δ α) α n) : Prop :=
  r.store.factorsCurrentFor r.track.iterate.id = true →
    r.store.jacobian.PlainIn rows ∧ r.store.workspace.Founded rows

theorem Reusable.of_same {rows : List Nat} (h : r.Reusable rows)
    (factors : r'.store.factorsCurrentFor r'.track.iterate.id =
      r.store.factorsCurrentFor r.track.iterate.id)
    (jacobian : r'.store.jacobian = r.store.jacobian)
    (workspace : r'.store.workspace = r.store.workspace) : r'.Reusable rows := by
  intro current
  rw [factors] at current
  rw [jacobian, workspace]
  exact h current

/-- Nothing can be reused after a load of the Jacobian. -/
theorem reusable_of_unowned {rows : List Nat} (unowned : r.store.factorOwner = none) :
    r.Reusable rows := by
  intro current
  unfold Store.factorsCurrentFor at current
  rw [unowned] at current
  cases current

variable [Device δ α]

/-- A rig whose equations are clamped. -/
structure Clamped (layer : Journal δ α) (F : Augmentation α) (forwarding : Bool) (c : Clamp α)
    (before : List (Array α)) (r : Rig (Journal δ α) α n) : Prop extends InPlace c before r where
  laid : r.Lays layer (some F) none forwarding
  hears : r.store.communicator.Hears
  residual : r.isValid .residual = true → c.Still r.store.residual
  jacobian : r.isValid .jacobian = true →
    r.store.jacobian.PlainIn c.rows ∧ r.Reusable c.rows
  newton : r.isValid .newton = true → c.Still r.store.newton

/-- Where nothing is computed yet. -/
theorem InPlace.clamped (h : r.InPlace c before) (laid : r.Lays layer (some F) none forwarding)
    (hears : r.store.communicator.Hears) (fresh : r.track.iterate.flags = {}) :
    r.Clamped layer F forwarding c before where
  toInPlace := h
  laid := laid
  hears := hears
  residual valid := absurd valid (Bool.eq_false_iff.1 (not_isValid_of_fresh fresh _))
  jacobian valid := absurd valid (Bool.eq_false_iff.1 (not_isValid_of_fresh fresh _))
  newton valid := absurd valid (Bool.eq_false_iff.1 (not_isValid_of_fresh fresh _))

omit [Device δ α] in
theorem InPlace.of_shifts (h : r.InPlace c before) {t : Track α n} (shifts : r.track.Shifts t) :
    (r.withTrack t).InPlace c before := by
  refine ⟨?_, h.points⟩
  show c.Holds t.iterate.x.toArray
  rw [shifts.x]
  exact h.holds

/-! ## Computations -/

section

variable (exact : Scalar.Exact α) (clamped : F.clamp? = some c)
  (finite : ∀ v ∈ c.values, Scalar.isFinite v = true)

include exact clamped finite in
theorem computeResidual_clamped (h : r.Clamped layer F forwarding c before) :
    Ends computeResidual r
      (fun _ r' ↦ r'.Clamped layer F forwarding c before ∧ (r.Reusable c.rows → r'.Reusable c.rows))
      (fun _ r' ↦ r'.InPlace c before) := by
  have silent := forward_points r.journal.points r.computing rfl
  have loaded : ∀ {device : Journal δ α} {overlay : Overlay α},
      forward r.computing = .ok () (r.computing.relay device overlay) →
      ∀ {load : Load (Journal δ α) (Vector α n)},
        load = Device.loadResidual device r.track.x r.store.previous r.store.residual →
        load.device.Held c before := by
    intro device overlay run load call
    subst call
    have points : device.points = r.journal.points := silent.ok run
    exact (h.points.of_same points).cons h.holds (Journal.points_loadResidual ..)
  refine (computeResidual_lays h.laid).mp (.of_result (computeResidual_run r) ?_ ?_)
  · rintro ok r' run ⟨laid, frames⟩
    have hears : r'.store.communicator.Hears := frames.communicator ▸ h.hears
    cases run with
    | known => exact ⟨h, fun reusable ↦ reusable⟩
    | unloaded _ run call _ =>
      refine ⟨⟨⟨h.holds, loaded run call⟩, laid, hears, fun valid ↦ ?_, fun valid ↦ ?_,
        fun valid ↦ ?_⟩, fun reusable ↦ reusable.of_same rfl rfl rfl⟩
      · exact absurd valid (Iterate.not_isValid_of_stale (q := .residual) rfl)
      · have before : r.isValid .jacobian = true := by
          rw [isValid_iff] at valid ⊢
          simpa [Flags.of, withoutResidual] using valid
        exact ⟨(h.jacobian before).1, (h.jacobian before).2.of_same rfl rfl rfl⟩
      · refine h.newton ?_
        rw [isValid_iff] at valid ⊢
        simpa [Flags.of, withoutResidual] using valid
    | loaded _ run call _ augmented =>
      have alike := (forward_alike r.computing).ok run
      have frame := alike.strategy.trans h.laid.strategy
      have unblended := Option.map_eq_none_iff.1 (alike.blend.trans h.laid.blend)
      refine ⟨⟨⟨h.holds, loaded run call⟩, laid, hears, fun _ i held ↦ ?_, fun valid ↦ ?_,
        fun valid ↦ ?_⟩, fun reusable ↦ reusable.of_same rfl rfl rfl⟩
      · exact Overlay.augmentResidual_zero exact frame clamped unblended finite h.holds augmented held
      · exact absurd valid (Iterate.not_isValid_of_stale (q := .jacobian) rfl)
      · exact absurd valid (Iterate.not_isValid_of_stale (q := .newton) rfl)
  · intro e r' run _
    cases run with
    | reentered => exact h.toInPlace
    | @refused _ e device overlay run =>
      have points : device.points = r.journal.points := silent.error run
      exact ⟨h.holds, h.points.of_same points⟩
    | stuck _ run call => exact ⟨h.holds, loaded run call⟩

theorem Clamped.outdated (h : r.Clamped layer F forwarding c before) :
    r.outdated.Clamped layer F forwarding c before where
  holds := h.holds
  points := h.points
  laid := h.laid.outdated
  hears := h.hears
  residual valid := absurd valid (Iterate.not_isValid_of_stale rfl)
  jacobian := h.jacobian
  newton := h.newton

include exact clamped finite in
theorem computeJacobian_clamped (h : r.Clamped layer F forwarding c before) :
    Ends computeJacobian r
      (fun ok r' ↦ r'.Clamped layer F forwarding c before ∧
        (ok = true ∨ r.Reusable c.rows → r'.Reusable c.rows))
      (fun _ r' ↦ r'.InPlace c before) := by
  have renewed := computeResidual_clamped exact clamped finite h.outdated
  have refreshed : ∀ {r' : Rig (Journal δ α) α n}, Refreshed r r' →
      r'.Clamped layer F forwarding c before :=
    fun base ↦ base.keeps h fun _ ↦ renewed.mono (fun _ _ kept ↦ kept.1) fun _ _ kept ↦ kept
  have loaded : ∀ {r' : Rig (Journal δ α) α n}, Refreshed r r' →
      ∀ {load : Load (Journal δ α) (Mat α n n)}, load = r'.store.jacobianLoad r'.track.x →
        load.device.Held c before := by
    intro r' base load call
    subst call
    exact (refreshed base).points.cons (refreshed base).holds (Journal.points_loadJacobian ..)
  -- The residual is as good after a load of the Jacobian as it was before.
  have residual : ∀ {r' : Rig (Journal δ α) α n}, Refreshed r r' →
      ∀ {load : Load (Journal δ α) (Mat α n n)} {A : Mat α n n} {flag : Validity}
        {overlay : Overlay α},
        (r'.put { r'.store.afterJacobian r'.track.iterate.id load with jacobian := A }
          { r'.track.iterate with
            flags := { residual := r'.track.iterate.flags.residual, jacobian := flag } }
          overlay).isValid .residual = true → c.Still r'.store.residual := by
    intro r' base load A flag overlay valid
    refine (refreshed base).residual ?_
    rw [isValid_iff] at valid ⊢
    simpa [Flags.of] using valid
  refine (computeJacobian_lays h.laid).mp (.of_result (computeJacobian_run r) ?_ ?_)
  · rintro ok r' run ⟨laid, frames⟩
    have hears : r'.store.communicator.Hears := frames.communicator ▸ h.hears
    cases run with
    | known valid => exact ⟨h, fun _ ↦ (h.jacobian valid).2⟩
    | unrefreshed _ _ run =>
      obtain ⟨kept, reusable⟩ := renewed.ok run
      exact ⟨kept, fun either ↦ reusable (either.resolve_left Bool.false_ne_true)⟩
    | unloaded _ base call =>
      refine ⟨⟨⟨(refreshed base).holds, loaded base call⟩, laid, hears, residual base,
        fun valid ↦ ?_, fun valid ↦ ?_⟩, fun _ ↦ reusable_of_unowned rfl⟩
      · exact absurd valid (Iterate.not_isValid_of_stale (q := .jacobian) rfl)
      · exact absurd valid (Iterate.not_isValid_of_stale (q := .newton) rfl)
    | loaded _ base call _ augmented =>
      have there := (refreshed base).laid
      refine ⟨⟨⟨(refreshed base).holds, loaded base call⟩, laid, hears, residual base,
        fun _ ↦ ⟨?_, reusable_of_unowned rfl⟩, fun valid ↦ ?_⟩, fun _ ↦ reusable_of_unowned rfl⟩
      · exact Overlay.augmentJacobian_plain there.strategy clamped
          (Option.map_eq_none_iff.1 there.blend) augmented
      · exact absurd valid (Iterate.not_isValid_of_stale (q := .newton) rfl)
  · intro e r' run _
    cases run with
    | reentered => exact h.toInPlace
    | refused _ _ run => exact renewed.error run
    | stuck _ base call => exact ⟨(refreshed base).holds, loaded base call⟩

include exact in
/-- What a linear solve under a clamp leaves.  Its matrix is the one at hand, also where the factors
are of an earlier one. -/
theorem Clamped.linearSolve (direct : DirectSolver.Exact α)
    (h : r.Clamped layer F forwarding c before) (reusable : r.Reusable c.rows) {mayReuse : Bool}
    (ready : r.isValid .residual = true)
    (ready' : r.reuses mayReuse = true ∨ r.isValid .jacobian = true) :
    r.store.jacobian.PlainIn c.rows ∧
      Ends (Workspace.solve (Table.ofSquare r.store.jacobian)
        (Store.rightHandSide r.store.residual) (r.reuses mayReuse)) r.store.workspace
        (fun out w ↦ w.Founded c.rows ∧ ZeroIn c.rows out.1)
        (fun _ w ↦ r.store.workspace.Stopped c.rows w) := by
  have current : r.reuses mayReuse = true →
      r.store.jacobian.PlainIn c.rows ∧ r.store.workspace.Founded c.rows := by
    intro cached
    rw [reuses, Bool.and_eq_true] at cached
    exact reusable cached.2
  have plain : r.store.jacobian.PlainIn c.rows :=
    ready'.elim (fun reuses ↦ (current reuses).1) fun valid ↦ (h.jacobian valid).1
  exact ⟨plain, Workspace.solve_zeroIn exact direct plain
    ((h.residual ready).rightHandSide exact) fun reuses ↦ (current reuses).2⟩

include exact in
theorem computeNewton_clamped (direct : DirectSolver.Exact α)
    (h : r.Clamped layer F forwarding c before) (reusable : r.Reusable c.rows) (mayReuse : Bool) :
    Ends (computeNewton mayReuse) r
      (fun ok r' ↦ (r'.Clamped layer F forwarding c before ∧ r'.Reusable c.rows) ∧
        (ok = true ∨ r'.store.communicator.allFinite r'.store.newton.toArray = true →
          c.Still r'.store.newton))
      (fun _ r' ↦ r'.InPlace c before) := by
  refine (computeNewton_lays h.laid mayReuse).mp (.of_result (computeNewton_run r mayReuse) ?_ ?_)
  · rintro ok r' run ⟨laid, frames⟩
    have hears : r'.store.communicator.Hears := frames.communicator ▸ h.hears
    cases run with
    | known valid => exact ⟨⟨h, reusable⟩, fun _ ↦ h.newton valid⟩
    | @solved _ ready ready' x stats w run =>
      obtain ⟨plain, solve⟩ := h.linearSolve exact direct reusable ready ready'
      obtain ⟨founded, zero⟩ := solve.ok run
      have still : r.store.communicator.allFinite x.toArray = true → c.Still x :=
        fun all ↦ zero (h.hears.finite all)
      have accepted : r.store.accepts x stats = true →
          r.store.communicator.allFinite x.toArray = true :=
        fun accepts ↦ (Bool.and_eq_true_iff.1 accepts).1
      have reusable' : (r.put (r.store.afterSolve r.track.iterate.id w x stats)
          (withNewton r.track.iterate (if r.store.accepts x stats then .valid else .stale))
          r.track.overlay).Reusable c.rows := fun _ ↦ ⟨plain, founded⟩
      refine ⟨⟨⟨⟨h.holds, h.points⟩, laid, hears, fun _ ↦ h.residual ready,
        fun _ ↦ ⟨plain, reusable'⟩, fun valid ↦ ?_⟩, reusable'⟩, fun either ↦ ?_⟩
      · refine still (accepted ?_)
        rw [isValid_iff] at valid
        exact Validity.holds_of_valid valid.1
      · exact still (either.elim accepted fun all ↦ all)
    | @refused _ ready ready' cause w run =>
      obtain ⟨plain, solve⟩ := h.linearSolve exact direct reusable ready ready'
      have stopped := solve.error run
      have reusable' : (r.put (r.store.afterRefusal w) (withNewton r.track.iterate .stale)
          r.track.overlay).Reusable c.rows := by
        intro current
        refine ⟨plain, stopped.founded (reusable ?_).2⟩
        have current : (r.store.factorOwner == some r.track.iterate.id && w.current) = true := current
        rwa [stopped.current] at current
      refine ⟨⟨⟨⟨h.holds, h.points⟩, laid, hears, fun _ ↦ h.residual ready,
        fun _ ↦ ⟨plain, reusable'⟩, fun valid ↦ ?_⟩, reusable'⟩, fun _ ↦ c.still_zeros⟩
      exact absurd valid (Iterate.not_isValid_of_stale (q := .newton) rfl)
  · intro e r' run _
    cases run with
    | noResidual => exact h.toInPlace
    | noJacobian => exact h.toInPlace
    | stopped => exact ⟨h.holds, h.points⟩

include exact clamped finite in
/-- What a Newton driver carries along under a clamp. -/
theorem carries_clamped (direct : DirectSolver.Exact α) :
    Rig.Carries (fun r : Rig (Journal δ α) α n ↦ r.Clamped layer F forwarding c before)
      (fun r ↦ r.Clamped layer F forwarding c before)
      (fun r ↦ r.Clamped layer F forwarding c before ∧ r.Reusable c.rows)
      (fun r ↦ r.InPlace c before) (fun x ↦ c.Holds x.toArray) c.Still where
  opens h := h
  settles h := h.1
  stops h := h.toInPlace
  point h := h.holds
  enter h := (computeResidual_clamped exact clamped finite h).mono (fun _ _ kept ↦ kept.1)
    fun _ _ kept ↦ kept
  first h := (computeJacobian_clamped exact clamped finite h).mono
    (fun _ _ kept ↦ ⟨kept.1, fun ok ↦ ⟨kept.1, kept.2 (.inl ok)⟩⟩) fun _ _ kept ↦ kept
  residual h := (computeResidual_clamped exact clamped finite h.1).mono
    (fun _ _ kept ↦ ⟨kept.1, kept.2 h.2⟩) fun _ _ kept ↦ kept
  jacobian h := (computeJacobian_clamped exact clamped finite h.1).mono
    (fun _ _ kept ↦ ⟨kept.1, kept.2 (.inr h.2)⟩) fun _ _ kept ↦ kept
  newton h mayReuse := computeNewton_clamped exact direct h.1 h.2 mayReuse
  move {r _ _ _} h held still trial :=
    ⟨InPlace.clamped (r := r.put r.store (r.track.iterate.setX _) r.track.overlay)
      ⟨held.addScaled exact finite still (trial.finite exact), h.1.points⟩
      (keeps_lays.move h.1.laid _) h.1.hears rfl, h.2.of_same rfl rfl rfl⟩

end

end Rig

/-- What a stepper carries along under a clamp. -/
theorem Stepper.carries_clamped [Device δ α] (exact : Scalar.Exact α)
    (direct : DirectSolver.Exact α) (clamped : F.clamp? = some c)
    (finite : ∀ v ∈ c.values, Scalar.isFinite v = true) (s : Stepper α) :
    s.Carries (fun r : Rig (Journal δ α) α n ↦ r.Clamped layer F forwarding c before)
      (fun r ↦ r.Clamped layer F forwarding c before)
      (fun r ↦ r.Clamped layer F forwarding c before ∧ r.Reusable c.rows)
      (fun r ↦ r.InPlace c before) (fun x ↦ c.Holds x.toArray) c.Still where
  toCarries := Rig.carries_clamped exact clamped finite direct
  set {r} h value := by
    have laid := setAll_keeps (s := s) Rig.keepsSteps_lays h.laid value
    have shifts := s.setAll_shifts value r.track
    rcases shifts.stale with same | fresh
    · rw [same]
      exact h
    · exact Rig.InPlace.clamped (h.toInPlace.of_shifts shifts) laid h.hears fresh
  back {r x} h held :=
    Rig.InPlace.clamped (r := { r with track := r.track.setX x }) ⟨held, h.points⟩
      (Rig.keeps_lays.move h.laid x) h.hears rfl
  accept {r} h := {
    holds := h.holds
    points := h.points.cons h.holds (Journal.points_accept ..)
    laid := Rig.keepsSteps_lays.accept h.laid
    hears := h.hears
    residual := h.residual
    jacobian := fun valid ↦ ⟨(h.jacobian valid).1, (h.jacobian valid).2.of_same rfl rfl rfl⟩
    newton := h.newton }
  abandon {r} h := {
    holds := h.holds
    points := h.points.of_same (Journal.points_abandon ..)
    laid := Rig.keepsSteps_lays.abandon h.laid
    hears := h.hears
    residual := h.residual
    jacobian := fun valid ↦ ⟨(h.jacobian valid).1, (h.jacobian valid).2.of_same rfl rfl rfl⟩
    newton := h.newton }

/-! ## Whole runs -/

namespace Drive

variable [Device δ α] {d : Drive (Journal δ α) α n}

/-- A plain Newton solve under a clamp. -/
theorem solveUnder_inPlace (exact : Scalar.Exact α) (direct : DirectSolver.Exact α)
    (finite : ∀ v ∈ c.values, Scalar.isFinite v = true)
    (laid : d.engine.rig.Lays layer none none false)
    (hears : d.engine.rig.store.communicator.Hears) (h : d.engine.rig.InPlace c before) :
    Ends (solveUnder (.clamp c)) d (fun _ d' ↦ d'.engine.rig.InPlace c before)
      (fun _ d' ↦ d'.engine.rig.InPlace c before) := by
  unfold solveUnder solveNewton
  simp only [ends_bind, ends_attach, ends_attempt, ends_onEngine, ends_modify, ends_pure,
    ends_modifyTrack, ends_lift_ok, ends_lift_error]
  refine ⟨fun t attached ↦ ?_, fun cause _ ↦ h⟩
  have start : (d.engine.rig.withTrack t).Clamped layer (.clamp c) false c before :=
    (h.of_shifts (Track.attach_shifts attached)).clamped (laid.attach attached) hears
      (Track.attach_flags attached)
  refine (Engine.solve_carries (e := { d.engine with rig := d.engine.rig.withTrack t })
    (Rig.carries_clamped exact rfl finite direct) start).mono ?_ ?_
  · exact fun outcome e kept ↦ kept.toInPlace.of_shifts e.rig.track.detach_shifts
  · exact fun stop e kept ↦ kept.of_shifts e.rig.track.detach_shifts

/-- A stepper under a clamp, from where its strategy has been attached. -/
theorem runStepper_inPlace (exact : Scalar.Exact α) (direct : DirectSolver.Exact α)
    (clamped : F.clamp? = some c) (finite : ∀ v ∈ c.values, Scalar.isFinite v = true)
    (start : d.engine.rig.Clamped layer F forwarding c before)
    (fresh : d.engine.rig.track.iterate.flags = {}) (s : Stepper α)
    {cleanUp : Track α n → Track α n} (shifts : ∀ t : Track α n, t.Shifts (cleanUp t)) :
    Ends (runStepper s cleanUp) d (fun _ d' ↦ d'.engine.rig.InPlace c before)
      (fun _ d' ↦ d'.engine.rig.InPlace c before) := by
  have on := d.engine.rig.track.setForwarding_shifts true
  have forwards : (d.engine.rig.withTrack (d.engine.rig.track.setForwarding true)).Clamped layer F
      true c before :=
    (start.toInPlace.of_shifts on).clamped (start.laid.setForwarding true) start.hears (on.fresh fresh)
  have off : ∀ t : Track α n, t.Shifts (cleanUp (t.setForwarding false)) :=
    fun t ↦ (t.setForwarding_shifts false).trans (shifts _)
  unfold runStepper
  simp only [ends_bind, ends_attempt, ends_onEngine, ends_modifyTrack, ends_lift_ok,
    ends_lift_error, ends_conclude]
  exact (Stepper.run_carries (Stepper.carries_clamped exact direct clamped finite s) forwards).mono
    (fun report e kept ↦ kept.1.toInPlace.of_shifts (off _))
    fun stop e kept ↦ kept.of_shifts (off _)

/-- **A clamp holds throughout.**  In exact arithmetic, a run of plain Newton or of the stepping of a
conductance to reference with initial conditions in use loads the device layer only where they hold,
hands it only such points, and leaves the solution there, however the run ends.  The one exception
is a clamp on unknowns that are not there, with which nothing is done at all. -/
theorem run_clamped (exact : Scalar.Exact α) (direct : DirectSolver.Exact α)
    (laid : d.engine.rig.Lays layer none none false)
    (hears : d.engine.rig.store.communicator.Hears) {options : ModeOptions α}
    {ctx : ContinuationContext α} {solveType : SolveType}
    (kind : solveType = .newton ∨ solveType = .gminStepping)
    (clamped : clamp? options ctx = .ok (some c))
    (finite : ∀ v ∈ c.values, Scalar.isFinite v = true) :
    Ends (run options ctx solveType) d
      (fun _ d' ↦ d'.engine.rig.InPlace c d.engine.rig.journal.points)
      (fun _ d' ↦ d'.engine.rig.InPlace c d.engine.rig.journal.points ∨
        d' = d ∧ ∃ i ∈ c.rows, n ≤ i) := by
  have imposed : ∀ {x : Vector α n}, c.impose d.engine.iterate.x = .ok x →
      (d.engine.rig.withTrack (d.engine.rig.track.setX x)).InPlace c d.engine.rig.journal.points :=
    fun there ↦ ⟨Clamp.impose_holds there, .refl c _⟩
  have moved : ∀ x : Vector α n,
      (d.engine.rig.withTrack (d.engine.rig.track.setX x)).Lays layer none none false :=
    fun x ↦ Rig.keeps_lays.move laid x
  unfold run
  rcases kind with rfl | rfl
  · simp only [phasesOf, newton, ends_bind, ends_orFault_ok, clamped, ends_impose]
    refine ⟨fun x there ↦ ?_, fun stop outside ↦ .inr ⟨trivial, Clamp.impose_error outside⟩⟩
    exact (solveUnder_inPlace (d := { d with engine := { d.engine with
      rig := d.engine.rig.withTrack (d.engine.rig.track.setX x) } }) exact direct finite (moved x)
      hears (imposed there)).mono (fun _ _ kept ↦ kept) fun _ _ kept ↦ .inl kept
  · simp only [phasesOf, gmin, ends_bind, ends_orFault_ok, clamped, ends_impose, ends_attach,
      ends_modifyTrack]
    refine ⟨fun x there ↦ ⟨fun t attached ↦ ?_, fun cause _ ↦ .inl (imposed there)⟩,
      fun stop outside ↦ .inr ⟨trivial, Clamp.impose_error outside⟩⟩
    have shifts := (Track.attach_shifts attached).trans (t.setForwarding_shifts true)
    have fresh := (t.setForwarding_shifts true).fresh (Track.attach_flags attached)
    have start := ((imposed there).of_shifts shifts).clamped
      (((moved x).attach attached).setForwarding true) hears fresh
    exact (runStepper_inPlace (d := { d with engine := { d.engine with
      rig := d.engine.rig.withTrack (t.setForwarding true) } }) exact direct rfl finite start fresh
      _ fun t ↦ (t.removeParameter_shifts _).trans (Track.detach_shifts _)).mono
      (fun _ _ kept ↦ kept) fun _ _ kept ↦ .inl kept

/-- The first of two unknowns is held at two. -/
def firstHeld : Clamp ExtendedRat := ⟨⟨⟨#[0], by decide⟩, 2, by decide⟩, [2.0], rfl⟩

/-- Few steps of the conductance to reference, and a linear solver that does not look closely. -/
def coarse : ModeOptions ExtendedRat :=
  let standard : ModeOptions ExtendedRat := .standard
  { standard with
    linear := ⟨.gmres 2 0.5 4, .jacobi⟩
    continuation := { standard.continuation with
      gmin := { standard.continuation.gmin with start := 0, stop := -1 } } }

/-- A context with what is held as its initial conditions. -/
def holding : ContinuationContext ExtendedRat :=
  ⟨.full 2, some (firstHeld.partition, firstHeld.values), []⟩

/-- Two conductors that carry a current. -/
def twoConductors : Drive (Journal Conductors ExtendedRat) ExtendedRat 2 :=
  atZero ⟨{ unknowns := 2, current := 1 }, []⟩ .serial coarse 2

-- What is said of the run is not to be compared by carrying it out.
seal Ends in
/-- Of two conductors the first is held where it would not go. -/
theorem run_clamped_conductors :
    Ends (run coarse holding .gminStepping) twoConductors
      (fun code d' ↦ (code = 1 ∧ d'.engine.rig.journal.points.length = 8 ∧
        d'.engine.iterate.x.toArray = #[2.0, 1]) ∧ d'.engine.rig.InPlace firstHeld [])
      (fun _ _ ↦ False) := by
  have outcome : Ends (run coarse holding .gminStepping) twoConductors
      (fun code d' ↦ code = 1 ∧ d'.engine.rig.journal.points.length = 8 ∧
        d'.engine.iterate.x.toArray = #[2.0, 1]) (fun _ _ ↦ False) := by
    decide +kernel
  have clamped : clamp? coarse holding = .ok (some firstHeld) := rfl
  have finite : ∀ v ∈ firstHeld.values, Scalar.isFinite v = true :=
    List.forall_mem_cons.2 ⟨rfl, List.forall_mem_nil _⟩
  have kept := run_clamped (d := twoConductors) ExtendedRat.exact ExtendedRat.direct_exact
    (atZero_lays _ _ _ _) rfl (.inr rfl) clamped finite
  exact (outcome.and kept).mono (fun _ _ kept ↦ kept) fun _ _ kept ↦ kept.1

end Drive

end OperatingPoint
