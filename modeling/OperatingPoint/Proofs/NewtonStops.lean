import OperatingPoint.Proofs.NewtonRun
import OperatingPoint.Proofs.Overlays

/-!
# How a Newton driver stops

Trouble with the numbers is a verdict, so that little is left that could stop a Newton driver: a
parameter that finds no taker, an overlay on unknowns that are not there, and a cycle of an
iterative solver that cannot be held.  This is `Stop.OfNewton`.  A beginning and a whole solve stop
for no other cause, whatever the device layer does.

A single iteration has one more, and it is there exactly if the iteration is under way, the iterate
has its Jacobian but not its residual, the factors are not to be kept, and the residual can be
loaded again.
-/

set_option autoImplicit false

namespace OperatingPoint

open Step

variable {δ α : Type} [Scalar α] [DirectSolver α] {n : Nat}

/-- How a Newton driver may stop at a rig. -/
inductive Stop.OfNewton (r : Rig δ α n) : Stop → Prop
  /-- A parameter found no taker, while parameters are forwarded. -/
  | forwarding (on : r.track.overlay.forwarding = true) {e : Stop} (h : e.InForwarding) :
    OfNewton r e
  /-- The overlay acts on an unknown that is not there. -/
  | overlay (h : ¬ r.track.overlay.Fits n) : OfNewton r .breach
  /-- The linear solver cannot hold what it needs. -/
  | cycle (h : r.store.workspace.options.kind.holdsCycle = false) : OfNewton r .breach

/-- A missing Jacobian is no cause that a Newton driver has. -/
theorem Stop.not_ofNewton_missingJacobian {r : Rig δ α n} :
    ¬ Stop.missingJacobian.OfNewton r := by
  intro h
  cases h with
  | forwarding on h => cases h

variable [Device δ α]

namespace Rig

variable {r₀ r : Rig δ α n}

theorem computeResidual_stops (h : r.AtRest) (frames : r₀.Frames r) :
    Ends computeResidual r (fun _ _ ↦ True) (fun e _ ↦ e.OfNewton r₀) := by
  refine .of_result (computeResidual_run r) (fun _ _ _ ↦ trivial) ?_
  intro e r' run
  cases run with
  | reentered invalid busy => exact absurd busy h.rests.residual
  | refused invalid run =>
    obtain ⟨on, found, -⟩ := (ends_forward r.computing).error run
    exact .forwarding (frames.overlay.forwarding.symm.trans on) found
  | stuck invalid run call good augmented =>
    have alike := (forward_alike r.computing).ok run
    refine Overlay.augmentResidual_stops (fun unfit ↦ .overlay fun fits ↦ unfit ?_) _ _ _ augmented
    exact (frames.overlay.trans alike).fits fits

theorem computeJacobian_stops (h : r.AtRest) (frames : r₀.Frames r) :
    Ends computeJacobian r (fun _ _ ↦ True) (fun e _ ↦ e.OfNewton r₀) := by
  refine .of_result (computeJacobian_run r) (fun _ _ _ ↦ trivial) ?_
  intro e r' run
  cases run with
  | reentered invalid busy => exact absurd busy h.rests.jacobian
  | refused invalid needed run =>
    have frames' : r₀.Frames r.outdated :=
      ⟨frames.overlay, frames.captured, frames.options, frames.communicator, frames.previous⟩
    exact (computeResidual_stops h.outdated frames').error run
  | stuck invalid base call good augmented =>
    refine Overlay.augmentJacobian_stops (fun unfit ↦ .overlay fun fits ↦ unfit ?_) _ _ _ augmented
    exact (frames.trans base.frames).overlay.fits fits

omit [Device δ α] in
theorem computeNewton_stops (frames : r₀.Frames r) (valid : r.isValid .residual = true)
    {mayReuse : Bool} (ready : r.reuses mayReuse = true ∨ r.isValid .jacobian = true) :
    Ends (computeNewton mayReuse) r (fun _ _ ↦ True) (fun e _ ↦ e.OfNewton r₀) := by
  refine .of_result (computeNewton_run r mayReuse) (fun _ _ _ ↦ trivial) ?_
  intro e r' run
  cases run with
  | noResidual invalid missing =>
    rw [valid] at missing
    cases missing
  | noJacobian invalid _ stale missing =>
    rw [stale, missing] at ready
    exact absurd ready (by decide)
  | stopped invalid _ _ notFault run =>
    have cause := (Workspace.ends_solve_stop r.store.jacobian
      (Store.rightHandSide r.store.residual) (r.reuses mayReuse) r.store.workspace).error run
    cases cause with
    | fault cause => exact absurd rfl (notFault cause)
    | breach unheld =>
      rw [frames.options] at unheld
      exact .cycle unheld

/-- A Newton driver leaves a rig between two computations, set up as it was. -/
theorem keeps_frames (r₀ : Rig δ α n) :
    Keeps (fun r ↦ r.AtRest ∧ r₀.Frames r) (Stop.OfNewton r₀) where
  rest h := h.1
  move h x := ⟨h.1.move x, h.2.trans ⟨.refl _, rfl, rfl, rfl, rfl⟩⟩
  residual := fun ⟨rest, frames⟩ ↦
    (((computeResidual_stays rest).and (computeResidual_frames _)).and
      (computeResidual_stops rest frames)).mono
      (fun _ _ h ↦ ⟨h.1.1.1.rest, frames.trans h.1.2⟩)
      fun _ _ h ↦ ⟨h.2, h.1.1.rest, frames.trans h.1.2⟩
  jacobian := fun ⟨rest, frames⟩ ↦
    (((computeJacobian_stays rest).and (computeJacobian_frames _)).and
      (computeJacobian_stops rest frames)).mono
      (fun _ _ h ↦ ⟨h.1.1.1.rest, frames.trans h.1.2⟩)
      fun _ _ h ↦ ⟨h.2, h.1.1.rest, frames.trans h.1.2⟩
  newton := fun ⟨rest, frames⟩ valid mayReuse ready ↦
    (((computeNewton_stays rest mayReuse).and (computeNewton_frames _ mayReuse)).and
      (computeNewton_stops frames valid ready)).mono
      (fun _ _ h ↦ ⟨h.1.1.1.rest, frames.trans h.1.2⟩)
      fun _ _ h ↦ ⟨h.2, h.1.1.rest, frames.trans h.1.2⟩

theorem Keeps.congr {I J : Rig δ α n → Prop} {Q : Stop → Prop} (h : Keeps I Q)
    (same : ∀ r, I r ↔ J r) : Keeps J Q := by
  obtain rfl : I = J := funext fun r ↦ propext (same r)
  exact h

/-- Less may be known of a stop. -/
theorem Keeps.weaken {I : Rig δ α n → Prop} {Q Q' : Stop → Prop} (h : Keeps I Q)
    (less : ∀ e, Q e → Q' e) : Keeps I Q' where
  rest := h.rest
  move := h.move
  residual kept := (h.residual kept).mono (fun _ _ left ↦ left) fun _ _ left ↦
    ⟨less _ left.1, left.2⟩
  jacobian kept := (h.jacobian kept).mono (fun _ _ left ↦ left) fun _ _ left ↦
    ⟨less _ left.1, left.2⟩
  newton kept valid mayReuse ready := (h.newton kept valid mayReuse ready).mono
    (fun _ _ left ↦ left) fun _ _ left ↦ ⟨less _ left.1, left.2⟩

/-- What two properties of rigs keep, both keep. -/
theorem Keeps.and {I J : Rig δ α n → Prop} {Q Q' : Stop → Prop} (h : Keeps I Q)
    (h' : Keeps J Q') : Keeps (fun r ↦ I r ∧ J r) (fun e ↦ Q e ∧ Q' e) where
  rest both := h.rest both.1
  move both x := ⟨h.move both.1 x, h'.move both.2 x⟩
  residual both := ((h.residual both.1).and (h'.residual both.2)).mono (fun _ _ kept ↦ kept)
    fun _ _ kept ↦ ⟨⟨kept.1.1, kept.2.1⟩, kept.1.2, kept.2.2⟩
  jacobian both := ((h.jacobian both.1).and (h'.jacobian both.2)).mono (fun _ _ kept ↦ kept)
    fun _ _ kept ↦ ⟨⟨kept.1.1, kept.2.1⟩, kept.1.2, kept.2.2⟩
  newton both valid mayReuse ready :=
    ((h.newton both.1 valid mayReuse ready).and (h'.newton both.2 valid mayReuse ready)).mono
      (fun _ _ kept ↦ kept) fun _ _ kept ↦ ⟨⟨kept.1.1, kept.2.1⟩, kept.1.2, kept.2.2⟩

end Rig

namespace Engine

variable {e : Engine δ α n}

/-- An iteration under way at an iterate that has its Jacobian but not its residual, which loads. -/
structure Uprooted (e : Engine δ α n) : Prop where
  started : e.newton.started = true
  undecided : e.newton.status.isDecided = false
  exposed : e.Exposed
  reloads : ∃ r, Rig.computeResidual e.rig = .ok true r

/-- A residual that is loaded anew leaves nothing else valid. -/
theorem flags_of_renewed {r r' : Rig δ α n} (invalid : r.isValid .residual = false)
    (run : Rig.computeResidual r = .ok true r') :
    r'.track.iterate.flags = { residual := .valid } ∧ r'.isValid .residual = true := by
  have h := Rig.computeResidual_run r
  rw [run] at h
  refine ⟨?_, h.valid⟩
  cases h with
  | known valid =>
    rw [invalid] at valid
    cases valid
  | loaded => rfl

/-- Such an iteration stops. -/
theorem advance_of_uprooted (h : e.Uprooted) :
    Ends advance e (fun _ _ ↦ False) (fun stop _ ↦ stop = .missingJacobian) := by
  obtain ⟨r, run⟩ := h.reloads
  obtain ⟨flags, valid⟩ := flags_of_renewed h.exposed.residual run
  have stale : ∀ q, q ≠ .residual → q ≠ .auxState → r.isValid q = false := by
    intro q _ _
    refine Bool.eq_false_iff.2 (Iterate.not_isValid_of_stale ?_)
    rw [flags]
    cases q <;> first | rfl | contradiction
  unfold advance iterateOnce usableDirection
  simp only [ends_bind, ends_get, ends_ite, ends_pure, ends_onRig, ends_finish, h.started,
    h.undecided, h.exposed.refreshes, ends_of_ok (Rig.computeJacobian_of_valid h.exposed.jacobian),
    ends_of_ok run]
  have refused : ∀ result, Rig.NewtonRun r false result →
      result = .error .missingJacobian r := by
    intro result run
    have unkept : r.reuses false = false := rfl
    cases run with
    | known there =>
      rw [stale .newton (by decide) (by decide)] at there
      cases there
    | noResidual _ missing =>
      rw [valid] at missing
      cases missing
    | noJacobian => rfl
    | solved _ _ ready | refused _ _ ready | stopped _ _ ready =>
      rw [unkept, stale .jacobian (by decide) (by decide)] at ready
      exact absurd ready (by decide)
  have stopped := refused _ (Rig.computeNewton_run r false)
  simp only [ends_of_error stopped]
  simp

/-- A beginning stops for a cause that a Newton driver has. -/
theorem begin_stops (h : e.rig.AtRest) :
    Ends begin e (fun _ _ ↦ True) (fun stop _ ↦ stop.OfNewton e.rig) :=
  (begin_keeps (Rig.keeps_frames e.rig) ⟨h, .refl _⟩).mono (fun _ _ _ ↦ trivial)
    fun _ _ halted ↦ halted.1

/-- A whole solve stops for a cause that a Newton driver has. -/
theorem solve_stops (h : e.rig.AtRest) :
    Ends solve e (fun _ _ ↦ True) (fun stop _ ↦ stop.OfNewton e.rig) :=
  (solve_keeps (Rig.keeps_frames e.rig) ⟨h, .refl _⟩).mono (fun _ _ _ ↦ trivial)
    fun _ _ halted ↦ halted.1

/-- An iteration stops for a cause that a Newton driver has, or for want of a Jacobian; the latter
exactly where the iterate is uprooted. -/
theorem advance_stops (h : e.rig.AtRest) :
    Ends advance e (fun _ _ ↦ ¬ e.Uprooted)
      (fun stop _ ↦ (e.Uprooted → stop = .missingJacobian) ∧
        (¬ e.Uprooted → stop.OfNewton e.rig)) := by
  refine .of_result (R := fun result ↦ advance e = result) rfl ?_ ?_
  · intro status e' run uprooted
    exact (advance_of_uprooted uprooted).ok run
  · intro stop e' run
    refine ⟨fun uprooted ↦ (advance_of_uprooted uprooted).error run, fun rooted ↦ ?_⟩
    obtain ⟨-, known | ⟨-, started, undecided, exposed, reloads⟩⟩ :=
      (advance_keeps (Rig.keeps_frames e.rig) ⟨h, .refl _⟩).error run
    · exact known
    · exact absurd ⟨started, undecided, exposed, reloads⟩ rooted

/-- What stops so for want of a Jacobian is uprooted. -/
theorem uprooted_of_missingJacobian {σ β : Type} {act : Step σ β} {s : σ}
    (stops : Ends act s (fun _ _ ↦ ¬ e.Uprooted)
      (fun stop _ ↦ (e.Uprooted → stop = .missingJacobian) ∧
        (¬ e.Uprooted → stop.OfNewton e.rig)))
    (missing : Ends act s (fun _ _ ↦ False) (fun stop _ ↦ stop = .missingJacobian)) :
    e.Uprooted := by
  refine Classical.byContradiction fun rooted ↦ ?_
  obtain ⟨stop, left, run, rfl⟩ := missing.exists
  exact Stop.not_ofNewton_missingJacobian ((stops.error run).2 rooted)

end Engine

end OperatingPoint
