import OperatingPoint.Proofs.EndOfWay
import OperatingPoint.Proofs.SettledRun

/-!
# Strategies, step by step

A strategy lays something over the device equations, solves, and takes it off again.  Whatever
becomes of the solve, the rig is *bare* afterwards: nothing is laid over the equations, and a
residual that is valid is theirs.  So one solve does not show in the next but by the solution it has left.

A code that is a success has been *earned* if a verdict about the residual, where the last Newton
solve gave one, is true of the device equations as they are at the end.  Plain Newton earns its code,
and so do the strategies that step parameters of the device layer, since their last solve is one of
the device equations.
-/

set_option autoImplicit false

namespace OperatingPoint

open Step

variable {δ α : Type} [Scalar α] [DirectSolver α] [Device δ α] {n : Nat} {P : PureDevice δ α}
  {layer : δ}

/-- A rig between two solves: nothing is laid over the equations, and a valid residual is theirs. -/
structure Rig.Bare (P : PureDevice δ α) (layer : δ) (r : Rig δ α n) : Prop where
  laid : r.Lays layer none none false
  mirrors : r.Mirrors P

namespace Overlay

theorem settled_of_none {α : Type} [Scalar α] {o : Overlay α}
    (h : o.strategy.map Augmentation.frame = none) : o.Settled := by
  intro g attached
  rw [attached] at h
  cases h

end Overlay

theorem Rig.Bare.of_fresh {r : Rig δ α n} (laid : r.Lays layer none none false)
    (fresh : r.track.iterate.flags = {}) : r.Bare P layer :=
  ⟨laid, .of_invalid (Overlay.settled_of_none laid.strategy) (Rig.not_isValid_of_fresh fresh _)⟩

/-- Newton's iteration keeps a rig bare, and one at which nothing is computed is bare if nothing is
laid over the equations. -/
theorem Rig.settles_bare (P : PureDevice δ α) :
    Rig.Settles layer (fun _ ↦ True) (Rig.Bare (n := n) P layer) where
  toKeeps := by
    have keeps : Rig.Keeps
        (fun r : Rig δ α n ↦ r.Lays layer none none false ∧ r.Mirrors P) fun _ ↦ True :=
      Rig.keeps_mirrors P nofun
    exact keeps.congr fun _ ↦ ⟨fun h ↦ ⟨h.1, h.2⟩, fun h ↦ ⟨h.laid, h.mirrors⟩⟩
  laid h := ⟨h.laid, fun _ _ ↦ trivial⟩
  blank h := .of_fresh h.laid.toLays h.flags

/-- Without a strategy and a blend, a valid residual is that of the device equations. -/
theorem Rig.Mirrors.residual_eq {r : Rig δ α n} {forwarding : Bool} (mirrors : r.Mirrors P)
    (laid : r.Lays layer none none forwarding) (valid : r.isValid .residual = true) :
    r.store.residual = r.equations P := by
  have shown := mirrors.shows valid
  have strategy : r.track.overlay.strategy = none := Option.map_eq_none_iff.1 laid.strategy
  have blend : r.track.overlay.blend = none := Option.map_eq_none_iff.1 laid.blend
  rw [Overlay.augmentResidual_none strategy, Overlay.blendResidual, blend] at shown
  exact (Prod.mk.inj (Except.ok.inj shown)).2.symm

/-! ## What a success is worth -/

namespace Engine

variable {e : Engine δ α n}

/-- The residual of the device equations is finite and below the tolerance. -/
structure Solves (P : PureDevice δ α) (e : Engine δ α n) : Prop where
  finite : e.newton.battery.communicator.allFinite (e.rig.equations P).toArray = true
  small : e.newton.battery.communicator.normInf (e.rig.equations P).toArray <
    e.newton.battery.options.rhsTol

/-- A verdict about the residual is one about the device equations. -/
def Vouches (P : PureDevice δ α) (e : Engine δ α n) (status : Status) : Prop :=
  ∀ v, status = .converged v → v.isAboutResidual = true → e.Solves P

theorem Judged.vouches {status : Status} {forwarding : Bool} (judged : e.Judged status)
    (mirrors : e.rig.Mirrors P) (laid : e.rig.Lays layer none none forwarding) : e.Vouches P status := by
  intro v converged about
  obtain ⟨valid, finite, small⟩ := judged.converged v converged about
  rw [mirrors.residual_eq laid valid] at finite small
  exact ⟨finite, small⟩

theorem Vouches.withTrack {status : Status} (h : e.Vouches P status) {t : Track α n}
    (shifts : e.rig.track.Shifts t) :
    ({ e with rig := e.rig.withTrack t } : Engine δ α n).Vouches P status := by
  intro v converged about
  obtain ⟨finite, small⟩ := h v converged about
  rw [← Rig.equations_of_shifts shifts] at finite small
  exact ⟨finite, small⟩

end Engine

namespace Drive

variable {d d' d'' : Drive δ α n}

/-- What a solve leaves: a bare rig, and a driver set up as it was. -/
structure Leaves (P : PureDevice δ α) (layer : δ) (d d' : Drive δ α n) : Prop where
  bare : d'.engine.rig.Bare P layer
  alike : d.engine.newton.battery.Alike d'.engine.newton.battery

/-- The code is no success, or its verdict holds of the device equations. -/
def Earned (P : PureDevice δ α) (code : Int) (d : Drive δ α n) : Prop :=
  CodeTable.isSuccess code = true →
    ∃ outcome, d.last = some outcome ∧ d.engine.Vouches P outcome.status

theorem Settled.leaves (h : d.Settled (Rig.Bare P layer) d') : d.Leaves P layer d' :=
  ⟨h.keeps, h.alike⟩

theorem Earned.withTrack {code : Int} (h : Earned P code d) {t : Track α n}
    (shifts : d.engine.rig.track.Shifts t) :
    Earned P code { d with engine := { d.engine with rig := d.engine.rig.withTrack t } } := by
  intro success
  obtain ⟨outcome, last, vouches⟩ := h success
  exact ⟨outcome, last, vouches.withTrack shifts⟩

/-! ## Newton's iteration -/

/-- A plain Newton solve earns its code. -/
theorem solveNewton_earned (h : d.engine.rig.Bare P layer) :
    Ends solveNewton d (Earned P) (fun _ _ ↦ True) := by
  unfold solveNewton
  simp only [ends_bind, ends_onEngine, ends_modify, ends_pure]
  refine (Engine.solve_keeps (Rig.settles_bare P).toKeeps h).mono ?_ fun _ _ _ ↦ trivial
  rintro outcome e ⟨handed, arrives⟩ -
  exact ⟨outcome, rfl, arrives.judged.vouches arrives.keeps.mirrors arrives.keeps.laid⟩

omit [Scalar α] [DirectSolver α] [Device δ α] in
/-- Conditions that are not there, or not wanted, are not clamped. -/
theorem clamp?_of_unused {options : ModeOptions α} {ctx : ContinuationContext α}
    (unused : ¬ (ctx.initialConditions.isSome = true ∧
      options.continuation.useInitialConditions = true)) :
    clamp? options ctx = .ok none := by
  unfold clamp?
  split
  · rename_i there
    rw [there] at unused
    rw [if_neg fun used ↦ unused ⟨rfl, used⟩]
  · rfl

/-- Newton's iteration earns its code without a clamp and without a seed. -/
theorem newton_earned (h : d.engine.rig.Bare P layer) {options : ModeOptions α}
    {ctx : ContinuationContext α} (unclamped : clamp? options ctx = .ok none)
    (unseeded : d.seed = none) :
    Ends (newton options ctx) d (Earned P) (fun _ _ ↦ True) := by
  unfold newton
  simp only [unclamped, ends_bind, ends_orFault_ok, ends_get, unseeded]
  exact solveNewton_earned h

/-! ## Phases -/

/-- The phases of a continuation.  The code of the last one is earned, if that with which they begin
is. -/
theorem runPhases_earned (laid : d.engine.rig.Lays layer none none true)
    (mirrors : d.engine.rig.Mirrors P) (ctx : ContinuationContext α) {code : Int}
    (earned : Earned P code d) (list : List (List (Sweep α))) :
    Ends (runPhases ctx code list) d (Earned P) (fun _ _ ↦ True) := by
  have keeps : Rig.KeepsSteps
      (fun r : Rig δ α n ↦ r.Lays layer none none true ∧ r.Mirrors P) fun _ ↦ True :=
    Rig.keepsSteps_mirrors P nofun
  induction list generalizing d code with
  | nil => exact earned
  | cons phase phases ih =>
    cases phase with
    | nil => exact ih laid mirrors earned
    | cons lead rest =>
      unfold runPhases
      simp only [ends_bind, ends_orFault, ends_onEngine, ends_conclude, ends_ite, ends_pure]
      refine ⟨fun coupled _ ↦ ⟨fun stop _ ↦ ?_, fun _ _ ↦ trivial⟩, fun _ _ ↦ trivial⟩
      refine (Stepper.run_keeps keeps
        ⟨laid.setForwarding true, mirrors.setForwarding true⟩).mono ?_ fun _ _ _ ↦ trivial
      rintro report e ⟨⟨laid', mirrors'⟩, -, finished⟩
      have earned' : Earned P report.conclusion { d with engine := e, last := report.last } := by
        intro success
        obtain ⟨outcome, _, last, -, -, stands⟩ :=
          finished (ContinuationReport.finished_of_success success)
        exact ⟨outcome, last, stands.judged.vouches mirrors' laid'⟩
      exact ⟨fun _ ↦ earned', fun _ ↦ ih laid' mirrors' earned'⟩

/-- A continuation in phases earns its code. -/
theorem phases_earned (h : d.engine.rig.Bare P layer) (ctx : ContinuationContext α)
    (list : List (List (Sweep α))) :
    Ends (phases ctx list) d (Earned P) (fun _ _ ↦ True) := by
  have laid := (h.laid.setStarts list.flatten).setForwarding true
  have mirrors := (h.mirrors.setStarts list.flatten).setForwarding true
  let t := list.flatten.foldl (fun t sweep ↦ t.setParameter sweep.name sweep.start)
    d.engine.rig.track
  unfold phases
  simp only [ends_bind, ends_modifyTrack, ends_attempt]
  refine (runPhases_earned (d := { d with engine := { d.engine with
    rig := d.engine.rig.withTrack (t.setForwarding true) } }) laid mirrors ctx
    (fun success ↦ absurd success (by decide)) list).mono ?_ ?_
  · intro code d' earned
    simp only [ends_ite, ends_pure, ends_bind]
    refine ⟨fun _ ↦ earned.withTrack (d'.engine.rig.track.setForwarding_shifts false),
      fun failed ↦ ?_⟩
    exact (Ends.trivial _ _).mono (fun _ _ _ success ↦ absurd success failed) fun _ _ _ ↦ trivial
  · intro stop d' _
    simp only [ends_throw]
    exact Ends.trivial _ _

end Drive

end OperatingPoint
