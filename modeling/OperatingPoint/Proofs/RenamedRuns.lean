import OperatingPoint.PseudoTransient
import OperatingPoint.Proofs.RenamedRigs

/-!
# Runs under other identities

Newton's iteration, a stepper and a march are made of computations of a rig and of what they see
there, and none of that depends on the identity of the track: each of these programs matches itself
where the store and the track go by other identities.
-/

set_option autoImplicit false

namespace OperatingPoint

open Step

variable {δ α : Type} [Scalar α] [DirectSolver α] [Device δ α] {n : Nat} {ρ : OwnerId → OwnerId}

/-! ## What a rig shows -/

namespace Rig.Renamed

variable {r r' : Rig δ α n}

theorem require (h : r.Renamed ρ r') (q : Quantity) :
    r'.track.iterate.require r'.store q = r.track.iterate.require r.store q := by
  unfold Iterate.require
  rw [h.isValid]

theorem residual (h : r.Renamed ρ r') :
    r'.track.iterate.residual r'.store = r.track.iterate.residual r.store := by
  unfold Iterate.residual
  rw [h.require, h.store.same]
  rfl

theorem newton (h : r.Renamed ρ r') :
    r'.track.iterate.newton r'.store = r.track.iterate.newton r.store := by
  unfold Iterate.newton
  rw [h.require, h.store.same]
  rfl

theorem gradient (h : r.Renamed ρ r') :
    r'.track.iterate.gradient r'.store = r.track.iterate.gradient r.store := by
  unfold Iterate.gradient
  rw [h.require, h.store.same]
  rfl

theorem applyJacobian (h : r.Renamed ρ r') (v : Array α) (length : Nat) :
    r'.track.iterate.applyJacobian r'.store v length =
      r.track.iterate.applyJacobian r.store v length := by
  unfold Iterate.applyJacobian
  rw [h.require, h.store.same]
  rfl

theorem applyTranspose (h : r.Renamed ρ r') (v : Array α) (length : Nat) :
    r'.track.iterate.applyTranspose r'.store v length =
      r.track.iterate.applyTranspose r.store v length := by
  unfold Iterate.applyTranspose
  rw [h.require, h.store.same]
  rfl

end Rig.Renamed

/-! ## Newton's iteration -/

namespace Engine

/-- An engine, and the same engine under other identities and with another note of what was handed
over. -/
structure Renamed (ρ : OwnerId → OwnerId) (e e' : Engine δ α n) : Prop where
  rig : e.rig.Renamed ρ e'.rig
  newton : e'.newton = e.newton

namespace Renamed

variable {e e' : Engine δ α n}

theorem snapshot (h : e.Renamed ρ e') (residual previous : Vector α n) :
    e'.snapshot residual previous = e.snapshot residual previous := by
  unfold Engine.snapshot Engine.iterate
  rw [h.newton, h.rig.iterate, h.rig.store.same]
  rfl

theorem keepsFactors (h : e.Renamed ρ e') : e'.keepsFactors = e.keepsFactors := by
  unfold Engine.keepsFactors Engine.iterate
  rw [h.newton, h.rig.iterate, h.rig.store.factorsCurrentFor]

end Renamed

theorem matches_onRig {β : Type} {act : Step (Rig δ α n) β}
    (h : Matches (Rig.Renamed ρ) Eq act act) : Matches (Renamed ρ) Eq (onRig act) (onRig act) :=
  .zoom h (fun _ _ h ↦ h.rig) fun _ _ _ _ h rig ↦ ⟨rig, h.newton⟩

theorem matches_modifyTrack {change : Track α n → Track α n}
    (impersonal : Track.Impersonal change) :
    Matches (Renamed ρ) Eq (modifyTrack change : Step (Engine δ α n) Unit) (modifyTrack change) :=
  .modify fun _ _ h ↦ ⟨h.rig.modify impersonal, h.newton⟩

theorem matches_modifyNewton (change : Newton α → Newton α) :
    Matches (Renamed ρ) Eq (modifyNewton change : Step (Engine δ α n) Unit)
      (modifyNewton change) :=
  .modify fun _ _ h ↦ ⟨h.rig, congrArg change h.newton⟩

theorem matches_finish (status : Status) :
    Matches (Renamed ρ) Eq (finish status : Step (Engine δ α n) Status) (finish status) :=
  .andThen (matches_modifyNewton _) fun _ ↦ .pure rfl

theorem matches_direction :
    Matches (Renamed ρ) Eq (direction : Step (Engine δ α n) (Option (Array α))) direction := by
  unfold direction
  refine .andThen (matches_onRig Rig.matches_computeJacobian) fun _ ↦ .ite Iff.rfl (.pure rfl) ?_
  refine .andThen (matches_onRig Rig.matches_computeResidual) fun _ ↦ .ite Iff.rfl (.pure rfl) ?_
  refine .andThen (matches_onRig (Rig.matches_computeNewton _)) fun _ ↦
    .ite Iff.rfl (.pure rfl) (.get_bind fun e e' h ↦ ?_)
  unfold iterate
  rw [h.rig.newton]
  exact .andThen (.orFault _) fun _ ↦ .pure rfl

theorem matches_classify (previous : Vector α n) :
    Matches (Renamed ρ) Eq (classify previous : Step (Engine δ α n) Status)
      (classify previous) := by
  unfold classify iterate
  refine .get_bind fun e e' h ↦ ?_
  rw [h.rig.residual, h.newton]
  refine .andThen (.orFault _) fun residual ↦ ?_
  rw [h.snapshot]
  suffices check : ∀ answer, _ from
    .ite Iff.rfl (.andThen (.attempt matches_direction) check) (.andThen (.pure rfl) check)
  exact fun answer ↦ .andThen (matches_modifyNewton _) fun _ ↦ .lift _

theorem matches_begin :
    Matches (Renamed ρ) Eq (begin : Step (Engine δ α n) Status) begin := by
  unfold begin
  refine .andThen (matches_modifyNewton _) fun _ ↦ ?_
  refine .andThen (matches_onRig Rig.matches_computeResidual) fun _ ↦ ?_
  refine .ite Iff.rfl (.get_bind fun e e' h ↦ ?_) (matches_finish _)
  unfold iterate
  rw [h.rig.iterate]
  exact .andThen (matches_classify _) fun status ↦ matches_finish status

theorem matches_backtrack (base direction : Vector α n) (old : α) (trials : Nat) (step : α) :
    Matches (Renamed ρ) Eq (backtrack base direction old trials step : Step (Engine δ α n) α)
      (backtrack base direction old trials step) := by
  induction trials generalizing step with
  | zero => exact .pure rfl
  | succ trials ih =>
    unfold backtrack
    refine .get_bind fun e e' h ↦ ?_
    unfold iterate
    rw [h.rig.iterate]
    refine .ite Iff.rfl (.pure rfl) ?_
    refine .andThen (matches_modifyTrack ⟨fun _ _ _ ↦ rfl, fun _ ↦ Nat.le_succ _⟩) fun _ ↦ ?_
    exact .andThen (matches_onRig Rig.matches_computeResidual) fun _ ↦ ih _

theorem matches_lineSearch (base direction : Vector α n) (old : α) :
    Matches (Renamed ρ) Eq (lineSearch base direction old : Step (Engine δ α n) α)
      (lineSearch base direction old) := by
  unfold lineSearch
  refine .andThen (matches_modifyTrack ⟨fun _ _ _ ↦ rfl, fun _ ↦ Nat.le_succ _⟩) fun _ ↦ ?_
  refine .andThen (matches_onRig Rig.matches_computeResidual) fun _ ↦ .get_bind fun e e' h ↦ ?_
  rw [h.newton]
  dsimp only
  cases e.newton.options.lineSearch with
  | full => exact .pure rfl
  | backtrack => exact matches_backtrack _ _ _ _ _

theorem matches_usableDirection (reuse : Bool) :
    Matches (Renamed ρ) Eq
      (usableDirection reuse : Step (Engine δ α n) (Except Verdict (Vector α n)))
      (usableDirection reuse) := by
  unfold usableDirection iterate
  refine .andThen (matches_onRig (Rig.matches_computeNewton reuse)) fun solved ↦
    .get_bind fun e e' h ↦ ?_
  refine .ite Iff.rfl ?_ ?_
  · rw [h.rig.newton]
    exact .andThen (.orFault _) fun _ ↦ .pure rfl
  · rw [h.rig.iterate, h.rig.store.same]
    exact .ite Iff.rfl (.pure rfl) (.pure rfl)

theorem matches_follow (direction : Vector α n) :
    Matches (Renamed ρ) Eq (follow direction : Step (Engine δ α n) Status)
      (follow direction) := by
  unfold follow iterate
  refine .get_bind fun e e' h ↦ ?_
  rw [h.rig.iterate]
  refine .andThen (matches_lineSearch _ _ _) fun _ ↦ ?_
  refine .andThen (matches_modifyNewton _) fun _ ↦ .get_bind fun e₁ e₁' h₁ ↦ ?_
  have measured : e₁'.rig.track.iterate.measured = e₁.rig.track.iterate.measured := by
    rw [h₁.rig.iterate]
  rw [measured]
  cases e₁.rig.track.iterate.measured.norms? with
  | none => exact matches_finish _
  | some norms =>
    refine .ite Iff.rfl (matches_finish _) ?_
    exact .andThen (matches_classify _) fun status ↦ matches_finish status

theorem matches_iterateOnce :
    Matches (Renamed ρ) Eq (iterateOnce : Step (Engine δ α n) Status) iterateOnce := by
  unfold iterateOnce
  refine .get_bind fun e e' h ↦ ?_
  rw [h.keepsFactors]
  suffices onward : _ from .ite Iff.rfl (.andThen (matches_onRig Rig.matches_computeJacobian)
    fun _ ↦ .ite Iff.rfl (matches_finish _) onward) onward
  refine .andThen (matches_onRig Rig.matches_computeResidual) fun _ ↦
    .ite Iff.rfl (matches_finish _) ?_
  refine .andThen (matches_usableDirection _) fun usable ↦ ?_
  cases usable with
  | error verdict => exact matches_finish _
  | ok d => exact matches_follow d

theorem matches_advance :
    Matches (Renamed ρ) Eq (advance : Step (Engine δ α n) Status) advance := by
  unfold advance
  refine .get_bind fun e e' h ↦ ?_
  rw [h.newton]
  suffices onward : _ from .ite Iff.rfl
    (.andThen matches_begin fun status ↦ .ite Iff.rfl (.pure rfl) onward) onward
  refine .get_bind fun e₁ e₁' h₁ ↦ ?_
  rw [h₁.newton]
  exact .ite Iff.rfl (.pure rfl) matches_iterateOnce

theorem matches_iterateWhile (budget : Nat) (status : Status) :
    Matches (Renamed ρ) Eq (iterateWhile budget status : Step (Engine δ α n) Unit)
      (iterateWhile budget status) := by
  induction budget generalizing status with
  | zero => exact .pure rfl
  | succ budget ih =>
    unfold iterateWhile
    exact .ite Iff.rfl (.pure rfl) (.andThen matches_advance fun status ↦ ih status)

theorem matches_solve :
    Matches (Renamed ρ) Eq (solve : Step (Engine δ α n) (Outcome α)) solve := by
  unfold solve
  refine .andThen matches_begin fun status ↦ .get_bind fun e e' h ↦ ?_
  rw [h.newton]
  refine .andThen (matches_iterateWhile _ _) fun _ ↦ .get_bind fun e₁ e₁' h₁ ↦ ?_
  rw [h₁.newton]
  exact .pure rfl

end Engine

/-! ## Steppers -/

namespace Stepper

variable (s : Stepper α)

omit [DirectSolver α] [Device δ α] in
theorem impersonal_setAll (value : α) :
    Track.Impersonal fun t : Track α n ↦ s.setAll value t := by
  have coupled : Track.Impersonal fun t : Track α n ↦ s.coupled.foldl
      (fun t path ↦ t.setParameter path.name (path.at (s.fraction value))) t :=
    .foldl (fun path ↦ .setParameter path.name _) s.coupled
  exact (Track.Impersonal.setParameter s.lead.name value).comp coupled

theorem matches_solveAt (value : α) :
    Matches (Engine.Renamed ρ) Eq (s.solveAt value : Step (Engine δ α n) (Outcome α))
      (s.solveAt value) := by
  unfold solveAt
  refine .andThen (Engine.matches_modifyTrack (s.impersonal_setAll value)) fun _ ↦ ?_
  refine .andThen Engine.matches_solve fun outcome ↦ .ite Iff.rfl ?_ ?_
  · exact .andThen (Engine.matches_onRig Rig.matches_succeed) fun _ ↦ .pure rfl
  · exact .andThen (Engine.matches_onRig Rig.matches_fail) fun _ ↦ .pure rfl

theorem matches_attempt (attempts : Nat) (step : α) (x : Vector α n)
    (report : ContinuationReport α) :
    Matches (Engine.Renamed ρ) Eq
      (s.attempt attempts step x report : Step (Engine δ α n) (ContinuationReport α))
      (s.attempt attempts step x report) := by
  induction attempts generalizing step x report with
  | zero => exact .pure rfl
  | succ attempts ih =>
    unfold attempt
    refine .andThen (s.matches_solveAt _) fun outcome ↦ .ite Iff.rfl ?_ ?_
    · refine .ite Iff.rfl (.pure rfl) (.get_bind fun e e' h ↦ ?_)
      unfold Engine.iterate
      rw [h.rig.iterate]
      exact ih _ _ _
    · refine .andThen (Engine.matches_modifyTrack (.comp (.setX x) (s.impersonal_setAll _))) fun _ ↦
        .ite Iff.rfl (.pure rfl) (ih _ _ _)

theorem matches_run :
    Matches (Engine.Renamed ρ) Eq (s.run : Step (Engine δ α n) (ContinuationReport α)) s.run := by
  unfold run
  refine .andThen (Engine.matches_modifyTrack (.setForwarding true)) fun _ ↦ ?_
  refine .andThen (s.matches_solveAt _) fun outcome ↦ .ite Iff.rfl (.pure rfl) ?_
  refine .ite Iff.rfl (.pure rfl) (.get_bind fun e e' h ↦ ?_)
  unfold Engine.iterate
  rw [h.rig.iterate]
  exact s.matches_attempt _ _ _ _

end Stepper

/-! ## Marches -/

namespace March

theorem matches_reportAt (status : MarchStatus) (steps : Nat) (maxResidual : α) :
    Matches (Rig.Renamed ρ) Eq (reportAt status steps maxResidual : Step (Rig δ α n) _)
      (reportAt status steps maxResidual) := by
  unfold reportAt Track.progress
  refine .get_bind fun r r' h ↦ ?_
  rw [h.overlay]
  exact .pure rfl

theorem matches_evaluates :
    Matches (Rig.Renamed ρ) Eq (evaluates : Step (Rig δ α n) Bool) evaluates := by
  unfold evaluates
  refine .andThen Rig.matches_computeResidual fun _ ↦
    .ite Iff.rfl (.get_bind fun r r' h ↦ ?_) (.pure rfl)
  rw [h.iterate]
  exact .pure rfl

theorem matches_acceptPoint :
    Matches (Rig.Renamed ρ) Eq (acceptPoint : Step (Rig δ α n) Unit) acceptPoint := by
  unfold acceptPoint changeStep
  refine .get_bind fun r r' h ↦ .get_bind fun r₁ r₁' h₁ ↦ ?_
  dsimp only
  rw [h.iterate, h₁.track, Track.acceptPseudoStep_under]
  refine .bind (.orFault_map _ _) ?_
  rintro t _ ⟨accepted, rfl⟩
  obtain ⟨p, rfl⟩ := Track.acceptPseudoStep_frame accepted
  exact .set (h₁.withTrack rfl rfl (Nat.le_refl _))

theorem matches_cut : Matches (Rig.Renamed ρ) Eq (cut : Step (Rig δ α n) Bool) cut := by
  unfold cut
  refine .get_bind fun r r' h ↦ ?_
  rw [h.track, Track.halvePseudoStep_under]
  refine .bind (.orFault_map _ _) ?_
  rintro ⟨t, halved⟩ _ ⟨done, rfl⟩
  obtain ⟨p, rfl⟩ := Track.halvePseudoStep_frame done
  exact .andThen (.set (h.withTrack rfl rfl (Nat.le_refl _))) fun _ ↦ .pure rfl

theorem matches_tryStep :
    Matches (Rig.Renamed ρ) Eq (tryStep : Step (Rig δ α n) Bool) tryStep := by
  unfold tryStep
  refine .get_bind fun r r' h ↦ ?_
  unfold Track.x
  rw [h.iterate]
  refine .andThen Rig.matches_computeJacobian fun _ ↦ ?_
  suffices step : ∀ solved, _ from
    .ite Iff.rfl (.andThen (Rig.matches_computeNewton _) step) (.andThen (.pure rfl) step)
  intro solved
  suffices leave : ∀ taken, _ from .ite Iff.rfl (.get_bind fun r₁ r₁' h₁ ↦ ?_)
    (.andThen (.pure rfl) leave)
  · rw [h₁.newton]
    refine .andThen (.orFault _) fun d ↦ ?_
    refine .andThen (Rig.matches_modifyTrack ⟨fun _ _ _ ↦ rfl, fun _ ↦ Nat.le_succ _⟩) fun _ ↦ ?_
    exact .andThen matches_evaluates leave
  · intro taken
    exact .ite Iff.rfl (.andThen (Rig.matches_modifyTrack (.setX _)) fun _ ↦ .pure rfl) (.pure rfl)

theorem matches_survey (options : MarchOptions α) (steps : Nat) :
    Matches (Rig.Renamed ρ) Eq (survey options steps : Step (Rig δ α n) _)
      (survey options steps) := by
  unfold survey
  refine .andThen matches_evaluates fun _ ↦ .ite Iff.rfl ?_ (.get_bind fun r r' h ↦ ?_)
  · exact .andThen (matches_reportAt _ _ _) fun _ ↦ .pure rfl
  rw [h.iterate]
  suffices judge : _ from .ite Iff.rfl (.andThen matches_acceptPoint fun _ ↦ judge) judge
  refine .ite Iff.rfl ?_ (.get_bind fun r₁ r₁' h₁ ↦ ?_)
  · exact .andThen (matches_reportAt _ _ _) fun _ ↦ .pure rfl
  unfold Track.progress
  rw [h₁.overlay]
  refine .ite Iff.rfl ?_ (.pure rfl)
  exact .andThen (matches_reportAt _ _ _) fun _ ↦ .pure rfl

theorem matches_stepOrCut (options : MarchOptions α) (steps tries : Nat) :
    Matches (Rig.Renamed ρ) Eq (stepOrCut options steps tries : Step (Rig δ α n) _)
      (stepOrCut options steps tries) := by
  induction tries with
  | zero => exact .throw _
  | succ tries ih =>
    unfold stepOrCut
    refine .andThen (matches_survey options steps) fun surveyed ↦ ?_
    cases surveyed with
    | inl report => exact .pure rfl
    | inr greatest =>
      refine .andThen matches_tryStep fun _ ↦ .ite Iff.rfl ?_ ?_
      · exact .andThen matches_acceptPoint fun _ ↦ .pure rfl
      · refine .andThen matches_cut fun _ ↦ .ite Iff.rfl ih ?_
        exact .andThen (matches_reportAt _ _ _) fun _ ↦ .pure rfl

theorem matches_marchFrom (options : MarchOptions α) (budget steps : Nat) (greatest : α) :
    Matches (Rig.Renamed ρ) Eq
      (marchFrom options budget steps greatest : Step (Rig δ α n) (MarchReport α))
      (marchFrom options budget steps greatest) := by
  induction budget generalizing steps greatest with
  | zero => exact matches_reportAt _ _ _
  | succ budget ih =>
    unfold marchFrom cutBudget Track.pseudoTime?
    refine .get_bind fun r r' h ↦ ?_
    rw [h.overlay]
    refine .andThen (matches_stepOrCut _ _ _) fun outcome ↦ ?_
    cases outcome with
    | inl report => exact .pure rfl
    | inr greatest => exact ih _ _

theorem matches_run (options : MarchOptions α) :
    Matches (Rig.Renamed ρ) Eq (run options : Step (Rig δ α n) (MarchReport α)) (run options) :=
  matches_marchFrom options _ _ _

end March

end OperatingPoint
