import OperatingPoint.Continuation.Stepper
import OperatingPoint.Proofs.NewtonStops

/-!
# Stepping a parameter, step by step

A stepper sets parameters, solves, and tells the device layer what came of it.  What a Newton driver
keeps, and what these keep, is kept by the whole run.

A run that comes to its end stands at its last solve: the lead has its end value there, the solve has
converged, and nothing has happened since.
-/

set_option autoImplicit false

namespace OperatingPoint

open Step

variable {δ α : Type} [Scalar α] [DirectSolver α] {n : Nat} [Device δ α]

/-- A property of rigs that a stepper keeps. -/
structure Rig.KeepsSteps (I : Rig δ α n → Prop) (Q : Stop → Prop) : Prop extends
    Rig.Keeps I Q where
  parameter : ∀ {r}, I r → ∀ name value, I { r with track := r.track.setParameter name value }
  accept : ∀ {r}, I r → I {
    store := { r.store with device := Device.accept r.store.device r.track.x.toArray }
    track := { r.track with captured := some r.track.iterate.generation } }
  abandon : ∀ {r}, I r →
    I { r with store := { r.store with device := Device.abandon r.store.device } }

namespace Stepper

variable {I : Rig δ α n → Prop} {Q : Stop → Prop} {e : Engine δ α n} {s : Stepper α}

/-- An engine that stands where a stepper has solved at a lead value. -/
structure Stands (s : Stepper α) (value : α) (outcome : Outcome α) (e : Engine δ α n) : Prop where
  handed : e.newton.outcome = outcome
  judged : e.Judged outcome.status
  parameters : ∃ t : Track α n,
    e.rig.track.overlay.parameters = (s.setAll value t).overlay.parameters

/-- What a stepper leaves at its end. -/
structure Reported (I : Rig δ α n → Prop) (s : Stepper α) (e : Engine δ α n)
    (report : ContinuationReport α) (e' : Engine δ α n) : Prop where
  keeps : I e'.rig
  alike : e.newton.battery.Alike e'.newton.battery
  finished : report.finished = true → ∃ outcome value, report.last = some outcome ∧
    outcome.converged = true ∧ (value == s.stop) = true ∧ s.Stands value outcome e'

theorem setAll_keeps (keeps : Rig.KeepsSteps I Q) {r : Rig δ α n} (h : I r) (value : α) :
    I { r with track := s.setAll value r.track } := by
  let set (t : Track α n) (path : ParameterPath α) : Track α n :=
    t.setParameter path.name (path.at (s.fraction value))
  have coupled : ∀ (paths : List (ParameterPath α)) (t : Track α n), I { r with track := t } →
      I { r with track := paths.foldl set t } := by
    intro paths
    induction paths with
    | nil => exact fun t h ↦ h
    | cons path rest ih => exact fun t h ↦ ih _ (keeps.parameter h _ _)
  exact coupled s.coupled _ (keeps.parameter h _ _)

/-- Two rigs at which the same is known of the residual. -/
structure Agrees (r r' : Rig δ α n) : Prop where
  owners : r'.store.owners = r.store.owners
  residual : r'.store.residual = r.store.residual
  iterate : r'.track.iterate = r.track.iterate
  overlay : r'.track.overlay = r.track.overlay

omit [Device δ α] in
theorem Agrees.judged {r r' : Rig δ α n} (h : Agrees r r') {newton : Newton α} {status : Status}
    (judged : Engine.Judged ⟨r, newton⟩ status) : Engine.Judged ⟨r', newton⟩ status := by
  have same : r'.isValid .residual = r.isValid .residual := by
    rw [Rig.isValid, Rig.isValid, h.iterate, Iterate.isValid, Iterate.isValid, Store.owns,
      Store.owns, h.owners]
  refine ⟨fun undecided ↦ same.trans (judged.undecided undecided), fun v status about ↦ ?_⟩
  obtain ⟨valid, small⟩ := judged.converged v status about
  refine ⟨same.trans valid, ?_⟩
  rw [Engine.Small, h.residual]
  exact small

theorem succeed_keeps (keeps : Rig.KeepsSteps I Q) {r : Rig δ α n} (h : I r) :
    Ends Rig.succeed r (fun _ r' ↦ I r' ∧ Agrees r r') (fun _ _ ↦ False) := by
  unfold Rig.succeed
  simp only [ends_bind, ends_get, ends_ite, ends_set, ends_pure]
  exact ⟨fun _ ↦ ⟨keeps.accept h, rfl, rfl, rfl, rfl⟩, fun _ ↦ ⟨h, rfl, rfl, rfl, rfl⟩⟩

/-- A solve at a lead value. -/
theorem solveAt_keeps (keeps : Rig.KeepsSteps I Q) (h : I e.rig) (value : α) :
    Ends (s.solveAt value) e
      (fun outcome e' ↦ I e'.rig ∧ e.newton.battery.Alike e'.newton.battery ∧
        (outcome.converged = true → s.Stands value outcome e'))
      (fun stop e' ↦ Q stop ∧ e.Halts I e') := by
  have ready : I (⟨e.rig.store, s.setAll value e.rig.track⟩ : Rig δ α n) :=
    setAll_keeps keeps h value
  let r : Rig δ α n := ⟨e.rig.store, s.setAll value e.rig.track⟩
  unfold solveAt
  simp only [ends_bind, Engine.ends_modifyTrack, ends_ite, ends_pure, Engine.ends_onRig]
  refine (Engine.solve_keeps (keeps.toKeeps.and (Rig.keeps_frames r))
    ⟨ready, keeps.rest ready, .refl r⟩).mono ?_ ?_
  · rintro outcome e' ⟨handed, ⟨kept, -, frames⟩, alike, -, -, judged, -⟩
    have alike := (Battery.reset_alike e.newton.battery).trans alike
    refine ⟨fun converged ↦ (succeed_keeps keeps kept).mono ?_ fun _ _ h ↦ h.elim, fun failed ↦ ?_⟩
    · -- Handing the point over changes nothing that the verdict is about.
      rintro _ r' ⟨kept', agrees⟩
      refine ⟨kept', alike, fun _ ↦ ⟨handed.symm, agrees.judged judged, e.rig.track, ?_⟩⟩
      rw [agrees.overlay]
      exact frames.overlay.parameters
    · exact ⟨keeps.abandon kept, alike, fun converged ↦ absurd converged failed⟩
  · rintro stop e' ⟨⟨known, -⟩, ⟨kept, -⟩, alike⟩
    exact ⟨known, kept, alike⟩

theorem attempt_keeps (keeps : Rig.KeepsSteps I Q) (h : I e.rig) (attempts : Nat) (step : α)
    (x : Vector α n) (report : ContinuationReport α) :
    Ends (s.attempt attempts step x report) e (fun report' e' ↦ s.Reported I e report' e')
      (fun stop e' ↦ Q stop ∧ e.Halts I e') := by
  induction attempts generalizing e step x report with
  | zero => exact ⟨h, .refl _, fun finished ↦ by cases finished⟩
  | succ attempts ih =>
    have later : ∀ {e₁ : Engine δ α n} (step : α) (x : Vector α n)
        (report : ContinuationReport α), I e₁.rig → e.newton.battery.Alike e₁.newton.battery →
        Ends (s.attempt attempts step x report) e₁ (fun report' e' ↦ s.Reported I e report' e')
          (fun stop e' ↦ Q stop ∧ e.Halts I e') := by
      intro e₁ step x report kept alike
      refine (ih kept step x report).mono ?_ ?_
      · rintro report' e' ⟨kept', alike', finished⟩
        exact ⟨kept', alike.trans alike', finished⟩
      · rintro stop e' ⟨known, halts⟩
        exact ⟨known, halts.keeps, alike.trans halts.alike⟩
    unfold attempt
    simp only [ends_bind, ends_ite, ends_pure, ends_get, Engine.ends_modifyTrack]
    refine (solveAt_keeps keeps h _).mono ?_ fun _ _ halted ↦ halted
    rintro outcome e₁ ⟨kept, alike, stands⟩
    refine ⟨fun converged ↦ ⟨fun there ↦ ?_, fun _ ↦ later _ _ _ kept alike⟩, fun _ ↦ ?_⟩
    · exact ⟨kept, alike, fun _ ↦ ⟨outcome, _, rfl, converged, there, stands converged⟩⟩
    · -- The iterate and the parameters go back to the last accepted point.
      have back : I (⟨e₁.rig.store, s.setAll report.value (e₁.rig.track.setX x)⟩ : Rig δ α n) :=
        setAll_keeps keeps (keeps.move kept x) _
      exact ⟨fun _ ↦ ⟨back, alike, fun finished ↦ by cases finished⟩, fun _ ↦ later _ _ _ back alike⟩

/-- A whole run.  What is kept from where forwarding has been turned on is kept. -/
theorem run_keeps (keeps : Rig.KeepsSteps I Q)
    (h : I { e.rig with track := e.rig.track.setForwarding true }) :
    Ends s.run e (fun report e' ↦ s.Reported I e report e')
      (fun stop e' ↦ Q stop ∧ e.Halts I e') := by
  let e₀ : Engine δ α n := { e with rig := ⟨e.rig.store, e.rig.track.setForwarding true⟩ }
  unfold run
  simp only [ends_bind, Engine.ends_modifyTrack, ends_ite, ends_pure, ends_get, Bool.not_eq_true',
    Bool.not_eq_false]
  refine (solveAt_keeps (e := e₀) keeps h _).mono ?_
    fun _ _ halted ↦ ⟨halted.1, halted.2.keeps, halted.2.alike⟩
  rintro outcome e₁ ⟨kept, alike, stands⟩
  refine ⟨fun _ ↦ ⟨kept, alike, fun finished ↦ by cases finished⟩, fun converged ↦ ⟨fun there ↦ ?_, fun _ ↦ ?_⟩⟩
  · exact ⟨kept, alike, fun _ ↦ ⟨outcome, _, rfl, converged, there, stands converged⟩⟩
  · refine (attempt_keeps keeps kept _ _ _ _).mono ?_ ?_
    · rintro report' e' ⟨kept', alike', finished⟩
      exact ⟨kept', alike.trans alike', finished⟩
    · rintro stop e' ⟨known, halts⟩
      exact ⟨known, halts.keeps, alike.trans halts.alike⟩

end Stepper

end OperatingPoint
