import OperatingPoint.Proofs.StrategyRun

/-!
# Strategies with something to let go of

Gmin stepping and homotopy solve a system that is not that of the device equations, and let go of
the difference along the way.  What is left of it at the end of a way that was gone to its end is
nothing, given that the way ends where it should: without a conductance that stays and without
unknowns that hang on it, or at a blend of one.  Then these strategies earn their codes too.

A march in pseudo-time is only the way to a start point; what it hands over to is Newton's
iteration.
-/

set_option autoImplicit false

namespace OperatingPoint

open Step

variable {δ α : Type} [Scalar α] [DirectSolver α] [Device δ α] {n : Nat} {P : PureDevice δ α}
  {layer : δ}

namespace Stepper

variable {s : Stepper α} {e : Engine δ α n}

omit [Device δ α] in
/-- Where a stepper without coupled parameters has come to the end of its way, the lead is there. -/
theorem Stands.lead (laws : Scalar.ZeroLaws α) (single : s.coupled = []) {value : α}
    {outcome : Outcome α} (stands : s.Stands value outcome e) (there : (value == s.stop) = true) :
    ∃ v, e.rig.track.overlay.parameters.get? s.lead.name = some v ∧ (v == s.stop) = true := by
  obtain ⟨t, same⟩ := stands.parameters
  rw [setAll, single, List.foldl_nil] at same
  rw [same]
  rcases t.setParameter_overlay s.lead.name value with set | ⟨unchanged, old, known, equal⟩
  · rw [set]
    refine ⟨value, ?_, there⟩
    show (t.overlay.parameters.set s.lead.name value).get? s.lead.name = some value
    rw [Parameters.get?_set, if_pos rfl]
  · rw [unchanged]
    exact ⟨old, known, laws.beq_trans equal there⟩

end Stepper

namespace Engine

variable {e : Engine δ α n}

/-- A verdict about a residual with nothing added is one about the device equations. -/
theorem Judged.vouches_of_blurs {status : Status} (judged : e.Judged status)
    (reports : e.newton.battery.communicator.Reports)
    (blurs : e.rig.isValid .residual = true → Blurs (e.rig.equations P) e.rig.store.residual) :
    e.Vouches P status := by
  intro v converged about
  obtain ⟨valid, finite, small⟩ := judged.converged v converged about
  obtain ⟨finite', same⟩ := Communicator.small_of_blurs reports (blurs valid) finite
  refine ⟨finite', ?_⟩
  rw [same]
  exact small

end Engine

namespace Rig

variable {r : Rig δ α n}

/-- Conductances at the end of their sweep leave the residual of the device equations. -/
theorem Mirrors.blurs_of_gmin (laws : Scalar.ZeroLaws α) (mirrors : r.Mirrors P) {g : Gmin α}
    (laid : r.Lays layer (some (Augmentation.gmin g).frame) none true) (floor : g.floor = 0) {v : α}
    (known : r.track.overlay.parameters.get? Parameters.progressName = some v)
    (power : Scalar.exp10 v = Scalar.exp10 g.stop) (valid : r.isValid .residual = true) :
    Blurs (r.equations P) r.store.residual := by
  have shown := mirrors.shows valid
  obtain ⟨a, attached, frame⟩ := Option.map_eq_some_iff.1 laid.strategy
  have blend : r.track.overlay.blend = none := Option.map_eq_none_iff.1 laid.blend
  cases a with
  | gmin g' =>
    have progress := (mirrors.serves valid laid.forwarding).progress known attached
    have tie : ∀ i, g'.tie i = 0 := by
      intro i
      rw [Gmin.tie_of_settled (mirrors.settled g' attached), Gmin.conductance, progress]
      injection frame with frame
      injection frame with _ _ stop floor'
      rw [stop, floor', floor]
      exact Gmin.conductanceAt_end laws power
    rw [Overlay.augmentResidual_some attached] at shown
    obtain ⟨⟨_, f⟩, made, same⟩ := bind_eq_ok.1 shown
    obtain ⟨f', conducted, same'⟩ := bind_eq_ok.1 made
    cases same'
    rw [Overlay.blendResidual, blend] at same
    rw [← (Prod.mk.inj (Except.ok.inj same)).2]
    exact Gmin.augmentResidual_blurs laws tie conducted
  | pseudoTransient | clamp | clampWithGmin | seed => cases frame

/-- A blend at the end of its way leaves the residual of the device equations. -/
theorem Mirrors.blurs_of_blend (laws : Scalar.ZeroLaws α) (mirrors : r.Mirrors P)
    {start : Array α} (laid : r.Lays layer none (some start) true) {v : α}
    (known : r.track.overlay.parameters.get? Parameters.blendName = some v)
    (there : (v == 1) = true) (valid : r.isValid .residual = true) :
    Blurs (r.equations P) r.store.residual := by
  have shown := mirrors.shows valid
  have strategy : r.track.overlay.strategy = none := Option.map_eq_none_iff.1 laid.strategy
  obtain ⟨b, attached, -⟩ := Option.map_eq_some_iff.1 laid.blend
  have lambda := (mirrors.serves valid laid.forwarding).lambda known attached
  rw [Scalar.clamp_end laws there] at lambda
  rw [Overlay.augmentResidual_none strategy, Overlay.blendResidual, attached] at shown
  rw [← (Prod.mk.inj (Except.ok.inj shown)).2]
  exact Blend.augmentResidual_blurs laws lambda _ _

end Rig

namespace Drive

variable {d d' : Drive δ α n} {I : Rig δ α n → Prop} {Q : Stop → Prop}

/-- What is left of the engine that a stepper has come to, after it was cleaned up. -/
structure Cleaned (I : Rig δ α n → Prop) (cleanUp : Track α n → Track α n) (d d' : Drive δ α n)
    (e : Engine δ α n) : Prop where
  keeps : I e.rig
  alike : d.engine.newton.battery.Alike e.newton.battery
  left : d'.engine = { e with
    rig := e.rig.withTrack (cleanUp (e.rig.track.setForwarding false)) }

/-- A stepper that is cleaned up after.  A success is one at the end of its way. -/
theorem runStepper_run (keeps : Rig.KeepsSteps I Q) (s : Stepper α)
    (cleanUp : Track α n → Track α n)
    (h : I (d.engine.rig.withTrack (d.engine.rig.track.setForwarding true))) :
    Ends (runStepper s cleanUp) d
      (fun code d' ↦ ∃ e, d.Cleaned I cleanUp d' e ∧ (CodeTable.isSuccess code = true →
        ∃ outcome value, d'.last = some outcome ∧ (value == s.stop) = true ∧
          s.Stands value outcome e))
      (fun _ _ ↦ True) := by
  unfold runStepper
  simp only [ends_bind, ends_attempt, ends_onEngine, ends_modifyTrack, ends_lift_ok,
    ends_lift_error, ends_conclude]
  refine (Stepper.run_keeps keeps h).mono ?_ fun _ _ _ ↦ trivial
  rintro report e ⟨kept, alike, finished⟩
  refine ⟨e, ⟨kept, alike, rfl⟩, fun success ↦ ?_⟩
  obtain ⟨outcome, value, last, -, there, stands⟩ :=
    finished (ContinuationReport.finished_of_success success)
  exact ⟨outcome, value, last, there, stands⟩

/-- What is vouched for where a stepper has come to is vouched for after the clean-up. -/
theorem earned_of_cleaned {cleanUp : Track α n → Track α n} {e : Engine δ α n} {code : Int}
    (cleaned : d.Cleaned I cleanUp d' e)
    (shifts : e.rig.track.Shifts (cleanUp (e.rig.track.setForwarding false)))
    (vouched : CodeTable.isSuccess code = true →
      ∃ outcome, d'.last = some outcome ∧ e.Vouches P outcome.status) : Earned P code d' := by
  intro success
  obtain ⟨outcome, last, vouches⟩ := vouched success
  refine ⟨outcome, last, ?_⟩
  rw [cleaned.left]
  exact vouches.withTrack shifts

/-! ## Conductances to reference -/

/-- Gmin stepping that leaves no conductance, and no unknown hanging on one, earns its code. -/
theorem gmin_earned (laws : Scalar.ZeroLaws α)
    (reports : d.engine.newton.battery.communicator.Reports) (h : d.engine.rig.Bare P layer)
    {options : ModeOptions α} {ctx : ContinuationContext α}
    (unclamped : clamp? options ctx = .ok none)
    (power : ∀ v, (v == options.continuation.gmin.stop) = true →
      Scalar.exp10 v = Scalar.exp10 options.continuation.gmin.stop)
    (none_left : options.continuation.gmin.residualConductance = 0)
    (tied : ctx.voltage.Tied layer n) :
    Ends (gmin options ctx) d (Earned P) (fun _ _ ↦ True) := by
  let conductance : Gmin α := {
    partition := ctx.voltage
    progress := options.continuation.gmin.start
    stop := options.continuation.gmin.stop
    floor := options.continuation.gmin.residualConductance }
  let S := some (Augmentation.gmin conductance).frame
  have firm : ∀ a, S = some a → a.Steadfast layer n := by
    intro a same
    obtain rfl := Option.some.inj same
    exact ⟨_, rfl, tied⟩
  have keeps : Rig.KeepsSteps
      (fun r : Rig δ α n ↦ r.Lays layer S none true ∧ r.Mirrors P) fun _ ↦ True :=
    Rig.keepsSteps_mirrors P firm
  unfold gmin
  rw [ends_bind, unclamped]
  simp only [ends_orFault_ok, ends_bind, ends_attach, ends_modifyTrack]
  refine ⟨fun t attached ↦ ?_, fun _ _ ↦ trivial⟩
  have laid := ((h.laid.attach attached).setForwarding true).setForwarding true
  have mirrors : (d.engine.rig.withTrack t).Mirrors P := by
    refine h.mirrors.of_shifts (Track.attach_shifts attached) ?_
    rw [Track.attach_overlay attached]
    intro g same
    cases same
    rfl
  refine (runStepper_run keeps _ _
    ⟨laid, (mirrors.setForwarding true).setForwarding true⟩).mono ?_ fun _ _ _ ↦ trivial
  rintro code d' ⟨e, cleaned, ended⟩
  obtain ⟨laid', mirrors'⟩ := cleaned.keeps
  have shifts := ((e.rig.track.setForwarding_shifts false).trans
    (Track.removeParameter_shifts _ Parameters.progressName)).trans (Track.detach_shifts _)
  refine earned_of_cleaned cleaned shifts fun success ↦ ?_
  obtain ⟨outcome, value, last, there, stands⟩ := ended success
  obtain ⟨v, known, there'⟩ := stands.lead laws rfl there
  refine ⟨outcome, last, stands.judged.vouches_of_blurs ?_ fun valid ↦ ?_⟩
  · have same : e.newton.battery.communicator = d.engine.newton.battery.communicator :=
      cleaned.alike.communicator
    rw [same]
    exact reports
  · exact mirrors'.blurs_of_gmin laws laid' none_left known (power v there') valid

/-! ## Homotopy -/

/-- Homotopy that steps the blend to one earns its code. -/
theorem homotopy_earned (laws : Scalar.ZeroLaws α)
    (reports : d.engine.newton.battery.communicator.Reports) (h : d.engine.rig.Bare P layer)
    {options : ModeOptions α} {ctx : ContinuationContext α}
    (name : options.continuation.homotopy.name = Parameters.blendName)
    (one : ctx.endOf options.continuation.homotopy = .ok 1) :
    Ends (homotopy options ctx) d (Earned P) (fun _ _ ↦ True) := by
  let start := d.engine.rig.track.x.toArray
  let d₁ : Drive δ α n := { d with engine := { d.engine with
    rig := d.engine.rig.withTrack (d.engine.rig.track.attachBlend (.atStart start)) } }
  have keeps : Rig.KeepsSteps
      (fun r : Rig δ α n ↦ r.Lays layer none (some start) true ∧ r.Mirrors P) fun _ ↦ True :=
    Rig.keepsSteps_mirrors P nofun
  have laid := (h.laid.attachBlend (.atStart start)).setForwarding true
  have mirrors : d₁.engine.rig.Mirrors P :=
    .of_invalid h.mirrors.settled (Rig.not_isValid_of_fresh rfl _)
  unfold homotopy
  simp only [one, ends_bind, ends_orFault_ok, ends_modifyTrack]
  refine (runStepper_run (d := d₁) keeps _ _ ⟨laid, mirrors.setForwarding true⟩).mono ?_
    fun _ _ _ ↦ trivial
  rintro code d' ⟨e, cleaned, ended⟩
  obtain ⟨laid', mirrors'⟩ := cleaned.keeps
  have shifts := ((e.rig.track.setForwarding_shifts false).trans
    (Track.removeParameter_shifts _ Parameters.blendName)).trans (Track.detachBlend_shifts _)
  refine earned_of_cleaned cleaned shifts fun success ↦ ?_
  obtain ⟨outcome, value, last, there, stands⟩ := ended success
  obtain ⟨v, known, there'⟩ := stands.lead laws rfl there
  dsimp only at known
  rw [name] at known
  refine ⟨outcome, last, stands.judged.vouches_of_blurs ?_ fun valid ↦ ?_⟩
  · have same : e.newton.battery.communicator = d.engine.newton.battery.communicator :=
      cleaned.alike.communicator
    rw [same]
    exact reports
  · exact mirrors'.blurs_of_blend laws laid' known there' valid

/-! ## Pseudo-time -/

/-- A march hands over to Newton's iteration, which earns the code. -/
theorem pseudoTransient_earned (h : d.engine.rig.Bare P layer) (options : ModeOptions α)
    (ctx : ContinuationContext α) :
    Ends (pseudoTransient options ctx) d (Earned P) (fun _ _ ↦ True) := by
  unfold pseudoTransient
  simp only [ends_bind, ends_lift, ends_attach, ends_attempt, ends_onEngine, Engine.ends_onRig,
    ends_modifyTrack, ends_ite, ends_pure]
  refine ⟨fun term _ ↦ ⟨fun t attached ↦ ?_, fun _ _ ↦ trivial⟩, fun _ _ ↦ trivial⟩
  refine (March.guards_run Rig.keepsMarch_lays _ _ (h.laid.attach attached)).mono ?_
    fun _ _ _ ↦ ⟨fun _ same ↦ (by cases same), fun _ _ ↦ trivial⟩
  intro report r kept
  -- The term comes off, and nothing is valid then.
  have bare : (r.withTrack r.track.detach).Bare P layer :=
    .of_fresh kept.detach (Track.detach_flags kept.isSome_strategy)
  refine ⟨fun _ _ ↦ ⟨fun _ success ↦ absurd success (by decide), fun _ ↦ ?_⟩,
    fun _ same ↦ by cases same⟩
  exact solveNewton_earned (d := { d with engine := { d.engine with rig := _ } }) bare

/-! ## All strategies -/

/-- What a strategy needs in order to have nothing left over at its end.  Those that lay nothing over
the equations need nothing.  The conductances end at a power of ten, which must not depend on how
its exponent is written down, as that of a zero with a sign. -/
def Clears (layer : δ) (n : Nat) (c : Communicator α) (options : ModeOptions α)
    (ctx : ContinuationContext α) : SolveType → Prop
  | .gminStepping => Scalar.ZeroLaws α ∧ c.Reports ∧
      (∀ v, (v == options.continuation.gmin.stop) = true →
        Scalar.exp10 v = Scalar.exp10 options.continuation.gmin.stop) ∧
      options.continuation.gmin.residualConductance = 0 ∧ ctx.voltage.Tied layer n
  | .artificialHomotopy => Scalar.ZeroLaws α ∧ c.Reports ∧
      options.continuation.homotopy.name = Parameters.blendName ∧
      ctx.endOf options.continuation.homotopy = .ok 1
  | _ => True

/-- A solve by a strategy that has nothing left over at its end, without initial conditions in use and
without a seed, earns its code. -/
theorem run_earned (h : d.engine.rig.Bare P layer) {options : ModeOptions α}
    {ctx : ContinuationContext α} {solveType : SolveType}
    (unclamped : clamp? options ctx = .ok none) (unseeded : d.seed = none)
    (clears : Clears layer n d.engine.newton.battery.communicator options ctx solveType) :
    Ends (run options ctx solveType) d (Earned P) (fun _ _ ↦ True) := by
  unfold run
  rw [ends_bind, ends_orFault]
  refine ⟨fun list _ ↦ ?_, fun _ _ ↦ trivial⟩
  cases list with
  | some list => exact phases_earned h ctx list
  | none =>
    cases solveType with
    | gminStepping =>
      obtain ⟨laws, reports, power, none_left, tied⟩ := clears
      exact gmin_earned laws reports h unclamped power none_left tied
    | pseudoTransient => exact pseudoTransient_earned h options ctx
    | artificialHomotopy =>
      obtain ⟨laws, reports, name, one⟩ := clears
      exact homotopy_earned laws reports h name one
    | _ => exact newton_earned h unclamped unseeded

/-- A solve by any strategy leaves a bare rig.  Without initial conditions in use and without a seed,
and if the strategy has nothing left over at its end, the code is earned. -/
theorem run_run (h : d.engine.rig.Bare P layer) (options : ModeOptions α)
    (ctx : ContinuationContext α) (solveType : SolveType) :
    Ends (run options ctx solveType) d
      (fun code d' ↦ d.Leaves P layer d' ∧ (clamp? options ctx = .ok none → d.seed = none →
        Clears layer n d.engine.newton.battery.communicator options ctx solveType → Earned P code d'))
      (fun _ d' ↦ d.Leaves P layer d') := by
  have earned := Ends.forall fun unclamped : clamp? options ctx = .ok none ↦
    Ends.forall fun unseeded : d.seed = none ↦
      Ends.forall fun clears : Clears layer n d.engine.newton.battery.communicator options ctx
        solveType ↦ run_earned h unclamped unseeded clears
  refine ((run_settles (Rig.settles_bare P) h options ctx solveType fun _ _ ↦ .inl trivial).and
    earned).mono ?_ ?_
  · exact fun code d' run ↦ ⟨run.1.leaves, run.2⟩
  · exact fun stop d' stopped ↦ stopped.1.2.leaves

end Drive

end OperatingPoint
