import OperatingPoint.Linear.FullPivot
import OperatingPoint.Proofs.MachineScalars
import OperatingPoint.Proofs.SettledAnalysis

/-!
# What an analysis has solved

Between two commands the engine of an analysis is *ready*: its rig is bare, and its Newton driver is
set up for the mode that it was built for.  Every command leaves it so, whether or not it stops, so
that this holds wherever a history leads.

A solve from there with a code that is a success, and with a verdict about the residual, has solved
the device equations: their residual at the solution is finite and below the tolerance.  What it has
laid over them on the way there has no part in that, provided that its strategy lets go of all of
it.
-/

set_option autoImplicit false

namespace OperatingPoint

open Step

variable {δ α : Type} [Scalar α] [DirectSolver α] [Device δ α] {n : Nat} {P : PureDevice δ α}
  {layer : δ} {c : Communicator α} {o : SolverOptions α} {mode : Mode}

/-! ## Engines between two commands -/

namespace Engine

variable {e e' : Engine δ α n}

/-- An engine between two commands, which was built for a mode. -/
structure Ready (P : PureDevice δ α) (layer : δ) (c : Communicator α) (o : SolverOptions α)
    (mode : Mode) (e : Engine δ α n) : Prop where
  bare : e.rig.Bare P layer
  alike : (Analysis.newtonFor c o mode).battery.Alike e.newton.battery

/-- A ready engine judges by the options of its mode. -/
theorem Ready.solves (h : e.Ready P layer c o mode) (solves : e.Solves P) :
    c.allFinite (e.rig.equations P).toArray = true ∧
      c.normInf (e.rig.equations P).toArray < (o.ofMode mode).nonlinear.rhsTol := by
  have communicator : e.newton.battery.communicator = c := h.alike.communicator
  have options : e.newton.battery.options = (o.ofMode mode).nonlinear := h.alike.options
  obtain ⟨finite, small⟩ := solves
  rw [communicator] at finite small
  rw [options] at small
  exact ⟨finite, small⟩

end Engine

namespace Analysis

variable {a a₀ a₁ a' : Analysis δ α}

/-! ## Analyses between two commands -/

/-- An analysis between two commands.  Its engine, if it is there, was built for the mode that is
noted, and is ready. -/
structure Ready (P : PureDevice δ α) (layer : δ) (c : Communicator α) (o : SolverOptions α)
    (a : Analysis δ α) : Prop where
  communicator : a.communicator = c
  options : a.options = o
  engine : ∀ e, a.engine = some e →
    ∃ mode, a.session.builtMode = some mode ∧ e.engine.Ready P layer c o mode

theorem ready_iff : a.Ready P layer c o ↔ a.Kept (fun _ ↦ Rig.Bare P layer) c o := by
  constructor
  · rintro ⟨communicator, options, engine⟩
    refine ⟨communicator, options, fun e there ↦ ?_⟩
    obtain ⟨mode, built, bare, alike⟩ := engine e there
    exact ⟨mode, built, bare, alike⟩
  · rintro ⟨communicator, options, engine⟩
    refine ⟨communicator, options, fun e there ↦ ?_⟩
    obtain ⟨mode, built, bare, alike⟩ := engine e there
    exact ⟨mode, built, bare, alike⟩

/-- An analysis at its beginning is ready. -/
theorem ready_of_new (made : new layer c o = .ok a₀) : a₀.Ready P layer c o :=
  ready_iff.2 (kept_of_new (fun _ ↦ Rig.settles_bare P) made)

/-- An analysis whose engine is the one for its mode. -/
structure Built (P : PureDevice δ α) (layer : δ) (c : Communicator α) (o : SolverOptions α)
    (a : Analysis δ α) : Prop where
  ready : a.Ready P layer c o
  fits : a.session.builtMode = some a.session.mode

theorem ensureBuilt_ready (h : a.Ready P layer c o) :
    Ends ensureBuilt a (fun _ a' ↦ a'.Built P layer c o ∧ a'.seed = a.seed)
      (fun _ a' ↦ a'.Ready P layer c o) :=
  (ensureBuilt_keeps (fun _ ↦ Rig.settles_bare P) (ready_iff.1 h)).mono
    (fun _ _ run ↦ ⟨⟨ready_iff.2 run.1.toKept, run.1.fits⟩, run.2⟩)
    fun _ _ stopped ↦ ready_iff.2 stopped.2

theorem ensureContext_ready (h : a.Built P layer c o) :
    Ends ensureContext a
      (fun ctx a' ↦ a'.Built P layer c o ∧ a'.context = some ctx ∧ a'.seed = a.seed)
      (fun _ a' ↦ a'.Ready P layer c o) :=
  (ensureContext_keeps ⟨ready_iff.1 h.ready, h.fits⟩).mono
    (fun _ _ run ↦ ⟨⟨ready_iff.2 run.1.toKept, run.1.fits⟩, run.2⟩)
    fun _ _ stopped ↦ ready_iff.2 stopped.2

/-! ## A whole solve -/

/-- The residual of the device equations at the solution. -/
def residual (P : PureDevice δ α) (a : Analysis δ α) : Array α :=
  match a.engine with
  | some e => (e.engine.rig.equations P).toArray
  | none => #[]

/-- The residual of the device equations is finite and below the tolerance of the mode. -/
structure Solves (P : PureDevice δ α) (a : Analysis δ α) : Prop where
  finite : a.communicator.allFinite (a.residual P) = true
  small : a.communicator.normInf (a.residual P) <
    (a.options.ofMode a.session.mode).nonlinear.rhsTol

/-- There are initial conditions, and the options of the mode want them used. -/
def UsesConditions (a : Analysis δ α) : Prop :=
  (a.context.bind ContinuationContext.initialConditions).isSome = true ∧
    (a.options.ofMode a.session.mode).continuation.useInitialConditions = true

omit [Device δ α] in
instance UsesConditions.instDecidable {a : Analysis δ α} : Decidable a.UsesConditions :=
  inferInstanceAs (Decidable (_ ∧ _))

/-- The strategy of the last solve has nothing left over at its end. -/
def Clears (layer : δ) (a : Analysis δ α) : Prop :=
  ∀ e ctx solveType, a.engine = some e → a.context = some ctx →
    a.session.lastSolveType = some solveType →
      Drive.Clears layer e.unknowns a.communicator (a.options.ofMode a.session.mode) ctx solveType

/-- A code that is no success, or a verdict about the residual that holds of the device
equations. -/
def Sound (P : PureDevice δ α) (code : Int) (a : Analysis δ α) : Prop :=
  0 < code → ∀ outcome, a.last = some outcome →
    outcome.status = .converged .normTooSmall ∨
      outcome.status = .converged .normalConvergence → a.Solves P

/-- What a drive has earned is true of the analysis that it is put back into. -/
theorem sound_of_earned {d : Drive δ α n} {code : Int} {before : Option (Outcome α)}
    (communicator : a.communicator = c) (options : a.options = o)
    (ready : d.engine.Ready P layer c o a.session.mode)
    (engine : a.engine = some ⟨n, d.engine⟩) (last : a.last = d.last.or before)
    (earned : d.Earned P code) : a.Sound P code := by
  intro success outcome there about
  obtain ⟨outcome', last', vouches⟩ := earned (decide_eq_true success)
  rw [last', Option.some_or] at last
  obtain rfl : outcome' = outcome := Option.some.inj (last.symm.trans there)
  have solves : d.engine.Solves P := by
    rcases about with rounding | normal
    · exact vouches _ rounding rfl
    · exact vouches _ normal rfl
  obtain ⟨finite, small⟩ := ready.solves solves
  refine ⟨?_, ?_⟩
  · rw [communicator, residual, engine]
    exact finite
  · rw [communicator, options, residual, engine]
    exact small

/-- What a solve from a ready analysis leads to. -/
theorem solve_run (h : a.Ready P layer c o) :
    Ends solve a
      (fun code a' ↦ a'.Ready P layer c o ∧
        (a.seed = none → ¬ a'.UsesConditions → a'.Clears layer → a'.Sound P code))
      (fun _ a' ↦ a'.Ready P layer c o) := by
  refine ends_solve (fun _ ↦ Rig.settles_bare P) (ready_iff.1 h)
    (fun _ _ _ early ↦ ready_iff.2 early) ?_
  intro a₁ e ctx prepared seed context there noted
  obtain ⟨bare, alike⟩ := prepared.engine_fits there
  have options := prepared.options
  have communicator := prepared.communicator
  have back : ∀ {d : Drive δ α e.unknowns},
      Drive.Leaves P layer { engine := e.engine, seed := a₁.seed } d →
        (a₁.putBack d).Kept (fun _ ↦ Rig.Bare P layer) c o := fun leaves ↦
    (prepared.toKept.withEngine prepared.fits
      ⟨leaves.bare, alike.trans leaves.alike⟩).of_same rfl rfl rfl rfl
  refine (Drive.run_run (d := { engine := e.engine, seed := a₁.seed }) bare _ ctx _).mono ?_
    fun _ _ leaves ↦ ready_iff.2 (back leaves)
  rintro code d ⟨leaves, earned⟩
  refine ⟨ready_iff.2 ((back leaves).of_same rfl rfl rfl rfl), fun unseeded unused clears ↦ ?_⟩
  have own : e.engine.newton.battery.communicator = a₁.communicator :=
    alike.communicator.trans communicator.symm
  have clears := clears ⟨e.unknowns, d.engine⟩ ctx _ rfl context noted
  have unclamped : Drive.clamp? (a₁.options.ofMode a₁.session.mode) ctx = .ok none := by
    refine Drive.clamp?_of_unused fun used ↦ unused ⟨?_, used.2⟩
    show (a₁.context.bind ContinuationContext.initialConditions).isSome = true
    rw [context]
    exact used.1
  refine sound_of_earned communicator options ⟨leaves.bare, alike.trans leaves.alike⟩ rfl rfl
    (earned unclamped (seed.trans unseeded) ?_)
  rw [own]
  exact clears

/-! ## Histories -/

/-- Wherever a history leads, the analysis is ready. -/
theorem run_ready (h : a.Ready P layer c o) (history : List (Request α)) :
    (a.run history).Ready P layer c o :=
  ready_iff.2 (run_kept (fun _ ↦ Rig.settles_bare P) (fun _ _ _ _ ↦ .inl trivial) (ready_iff.1 h)
    history)

/-- **Soundness.**  Wherever a history of an analysis leads, a solve without a seed and without
initial conditions in use, by a strategy that has nothing left over at its end, solves the device
equations if its code is a success and its verdict is about the residual. -/
theorem solve_sound_of_history (P : PureDevice δ α) (made : new layer c o = .ok a₀)
    (history : List (Request α)) (unseeded : (a₀.run history).seed = none) :
    Ends solve (a₀.run history)
      (fun code a ↦ a.communicator = c ∧ a.options = o ∧
        (¬ a.UsesConditions → a.Clears layer → a.Sound P code))
      (fun _ _ ↦ True) := by
  have ready : (a₀.run history).Ready P layer c o := run_ready (ready_of_new made) history
  refine (solve_run ready).mono ?_ fun _ _ _ ↦ trivial
  rintro code a ⟨ready', sound⟩
  exact ⟨ready'.communicator, ready'.options, sound unseeded⟩

/-- Options for a homotopy at the operating point, and the standard ones otherwise. -/
def homotopyOptions : SolverOptions Float :=
  let standard : SolverOptions Float := .standard
  { standard with dcOp := { standard.dcOp with
    continuation := { standard.dcOp.continuation with solveType := .artificialHomotopy } } }

-- What is said of the analysis is not to be compared by carrying out the history.
seal Ends in
/-- A homotopy from where another one has been solved and the solution moved away again. -/
theorem solve_sound_bare :
    let history : List (Request Float) := [⟨_, .solve⟩, ⟨_, .setSolution #[-2.0]⟩]
    ∃ a₀ : Analysis Circuit Float, new Circuit.bare .serial homotopyOptions = .ok a₀ ∧
      (a₀.run history).seed = none ∧
      Ends solve (a₀.run history) (fun code a ↦ code = 1 ∧ a.Solves Circuit.pure)
        fun _ _ ↦ False := by
  intro history
  have ran : Yields
      (new Circuit.bare .serial homotopyOptions : Except Stop (Analysis Circuit Float))
      fun a₀ ↦ (a₀.run history).seed = none ∧ Ends solve (a₀.run history)
        (fun code a ↦ code = 1 ∧ ¬ a.UsesConditions ∧ a.session.mode = .dcOperatingPoint ∧
          a.session.lastSolveType = some .artificialHomotopy ∧
          a.last.map Outcome.status = some (.converged .normTooSmall)) fun _ _ ↦ False := by
    decide +kernel
  obtain ⟨a₀, made, unseeded, run⟩ := ran.exists
  refine ⟨a₀, made, unseeded, ?_⟩
  refine (run.and (solve_sound_of_history Circuit.pure made history unseeded)).mono ?_
    fun _ _ stopped ↦ stopped.1
  rintro code a ⟨⟨rfl, unused, mode, kind, verdict⟩, communicator, options, sound⟩
  have clears : a.Clears Circuit.bare := by
    intro e ctx solveType _ _ same
    rw [kind] at same
    cases same
    rw [communicator, options, mode]
    exact Drive.clears_homotopy rfl rfl rfl
  obtain ⟨outcome, last, rounding⟩ := Option.map_eq_some_iff.1 verdict
  exact ⟨rfl, sound unused clears (by decide) outcome last (.inl rounding)⟩

end Analysis

end OperatingPoint
