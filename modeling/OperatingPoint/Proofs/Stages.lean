import OperatingPoint.Proofs.Attempts
import OperatingPoint.Proofs.ExactScalars
import OperatingPoint.Proofs.SettledAnalysis

/-!
# The stages of a continuation

A solve that steps a parameter is made of stages: one run of a stepper for each of its phases, up to
the first that does not come to its end.  Stepping of a conductance and homotopy have one stage.
`Analysis.stages` are those of the next solve.

The code of such a solve has one of two meanings.  Either it is that of a failed continuation, or
every phase has come to its end and it is the code of the last Newton solve.  The two cannot be
mixed up, whatever the table of codes says, since a run comes to its end with a code that is
positive.
-/

set_option autoImplicit false

namespace OperatingPoint

open Step

variable {δ α : Type} [Scalar α] [DirectSolver α]

/-- Whether a strategy steps a parameter. -/
def SolveType.steps (t : SolveType) : Bool := decide (t ≠ .newton ∧ t ≠ .pseudoTransient)

/-- A run of a stepper in the course of a solve: that of a phase, counted from zero, and the engine
that it begins with. -/
structure Stage (δ α : Type) [LE α] [DirectSolver α] where
  phase : Nat
  stepper : Stepper α
  unknowns : Nat
  start : Engine δ α unknowns

variable [Device δ α] {n : Nat}

namespace Stage

/-- The attempts of a stage. -/
def attempts (stage : Stage δ α) : List (stage.stepper.Attempt δ stage.unknowns) :=
  stage.stepper.attempts stage.start

/-- A stage that has reported that it is finished. -/
def Finished (stage : Stage δ α) : Prop :=
  Ends stage.stepper.run stage.start (fun report _ ↦ report.finished = true) (fun _ _ ↦ False)

/-- A stage that has been finished by an attempt with the given outcome.  Its Newton solve has
converged at the end value of the lead. -/
structure Accepts (stage : Stage δ α) (outcome : Outcome α) : Prop where
  finished : stage.Finished
  attempt : ∃ a, stage.attempts.getLast? = some a ∧ a.outcome? = some outcome ∧
    (a.value == stage.stepper.stop) = true
  converged : outcome.converged = true

theorem accepts_of_finished (stage : Stage δ α) {report : ContinuationReport α}
    {e' : Engine δ α stage.unknowns} (run : stage.stepper.run stage.start = .ok report e')
    (finished : report.finished = true) :
    ∃ outcome, stage.Accepts outcome ∧ report.conclusion = outcome.code := by
  obtain ⟨ending, last⟩ := Stepper.run_last run
  rw [finished] at ending
  cases final : (stage.stepper.attempts stage.start).getLast? with
  | none =>
    rw [final] at ending
    cases ending
  | some a =>
    rw [final, Option.elim_some] at ending last
    obtain ⟨converged, there⟩ := Bool.and_eq_true_iff.1 ending.symm
    obtain ⟨outcome, known, success⟩ := (Option.any_eq_true _ _).1 converged
    refine ⟨outcome, ⟨(ends_of_ok run).2 finished, ⟨a, final, known, there⟩, success⟩, ?_⟩
    rw [ContinuationReport.conclusion, last, known]
    exact if_pos finished

theorem not_finished (stage : Stage δ α) {report : ContinuationReport α}
    {e' : Engine δ α stage.unknowns} (run : stage.stepper.run stage.start = .ok report e')
    (unfinished : report.finished = false) :
    ¬ stage.Finished ∧ report.conclusion = CodeTable.continuationFailed := by
  rw [Finished, ends_of_ok run, unfinished]
  refine ⟨Bool.false_ne_true, ?_⟩
  unfold ContinuationReport.conclusion
  split
  · rw [unfinished]
    rfl
  · rfl

end Stage

namespace Drive

variable {ctx : ContinuationContext α} {d d' : Drive δ α n}

/-! ## The stages of a strategy -/

/-- The stages that phases come to, the first of which has the given number. -/
def phaseStages (ctx : ContinuationContext α) :
    (first : Nat) → List (List (Sweep α)) → Engine δ α n → List (Stage δ α)
  | _, [], _ => []
  | first, [] :: phases, e => phaseStages ctx (first + 1) phases e
  | first, (lead :: rest) :: phases, e =>
    match rest.mapM ctx.path, ctx.endOf lead with
    | .ok coupled, .ok stop =>
      let s : Stepper α := ⟨lead, stop, coupled⟩
      ⟨first, s, n, e⟩ :: match s.run e with
        | .ok report e' => if report.finished then phaseStages ctx (first + 1) phases e' else []
        | .error _ _ => []
    | _, _ => []

theorem phaseStages_of_ok {first : Nat} {lead : Sweep α} {rest : List (Sweep α)}
    {phases : List (List (Sweep α))} {e e' : Engine δ α n} {stop : α}
    {coupled : List (ParameterPath α)} {report : ContinuationReport α}
    (ways : rest.mapM ctx.path = .ok coupled) (ending : ctx.endOf lead = .ok stop)
    (run : Stepper.run ⟨lead, stop, coupled⟩ e = .ok report e') :
    phaseStages ctx first ((lead :: rest) :: phases) e =
      ⟨first, ⟨lead, stop, coupled⟩, n, e⟩ ::
        if report.finished then phaseStages ctx (first + 1) phases e' else [] := by
  rw [phaseStages, ways, ending]
  dsimp only
  rw [run]

theorem phaseStages_head (first : Nat) {lead : Sweep α} {rest : List (Sweep α)}
    (phases : List (List (Sweep α))) (e : Engine δ α n) {stop : α}
    {coupled : List (ParameterPath α)} (ways : rest.mapM ctx.path = .ok coupled)
    (ending : ctx.endOf lead = .ok stop) :
    ⟨first, ⟨lead, stop, coupled⟩, n, e⟩ ∈ phaseStages ctx first ((lead :: rest) :: phases) e := by
  rw [phaseStages, ways, ending]
  exact .head _

/-- The engine at which the phases of a continuation begin: the parameters are at their starts, and
they are forwarded. -/
def atStarts (list : List (List (Sweep α))) (e : Engine δ α n) : Engine δ α n :=
  { e with rig := e.rig.withTrack <| (list.flatten.foldl
    (fun t sweep ↦ t.setParameter sweep.name sweep.start) e.rig.track).setForwarding true }

/-- What stepping of a conductance lays over the equations before it steps. -/
def layConductance (options : ModeOptions α) (ctx : ContinuationContext α) :
    Step (Drive δ α n) Unit := do
  let g := options.continuation.gmin
  let conductance : Gmin α := {
    partition := ctx.voltage
    progress := g.start
    stop := g.stop
    floor := g.residualConductance }
  match ← Step.orFault (clamp? options ctx) with
  | some clamp =>
    impose clamp
    attach (.clampWithGmin conductance clamp)
  | none => attach (.gmin conductance)
  modifyTrack fun t ↦ t.setForwarding true

theorem gmin_eq (options : ModeOptions α) (ctx : ContinuationContext α) :
    (gmin options ctx : Step (Drive δ α n) Int) = layConductance options ctx >>= fun _ ↦
      runStepper ⟨options.continuation.gmin.sweep, options.continuation.gmin.stop, []⟩
        fun t ↦ (t.removeParameter Parameters.progressName).detach := by
  unfold gmin layConductance
  simp only [bind_assoc]
  congr 1
  funext clamp
  cases clamp <;> simp only [bind_assoc]

/-- The stages of a strategy. -/
def stages (options : ModeOptions α) (ctx : ContinuationContext α) (solveType : SolveType)
    (d : Drive δ α n) : List (Stage δ α) :=
  match phasesOf options.continuation solveType with
  | .ok (some list) => phaseStages ctx 0 list (atStarts list d.engine)
  | .ok none =>
    match solveType with
    | .gminStepping =>
      match layConductance options ctx d with
      | .ok _ d' =>
        let g := options.continuation.gmin
        [⟨0, ⟨g.sweep, g.stop, []⟩, n, d'.engine⟩]
      | .error _ _ => []
    | .artificialHomotopy =>
      let sweep := options.continuation.homotopy
      match ctx.endOf sweep with
      | .ok stop =>
        let blended (t : Track α n) : Track α n := t.attachBlend (Blend.atStart t.x.toArray)
        [⟨0, ⟨sweep, stop, []⟩, n,
          { d.engine with rig := d.engine.rig.withTrack (blended d.engine.rig.track) }⟩]
      | .error _ => []
    | _ => []
  | .error _ => []

/-- The number of phases of a strategy. -/
def phaseCount (c : ContinuationOptions α) (solveType : SolveType) : Nat :=
  match phasesOf c solveType with
  | .ok (some list) => list.length
  | .ok none => if solveType = .gminStepping ∨ solveType = .artificialHomotopy then 1 else 0
  | .error _ => 0

/-! ## What the code means -/

/-- What a code says of phases, of which there are `count` from the phase `first` on: either one of
them has not been finished and the code is that of a failure, or all of them have and it is that of
the last outcome.  If there are none the code is the one there was before. -/
inductive Means (stages : List (Stage δ α)) (first count : Nat) (before : Int) : Int → Prop
  | failed {phase : Nat} (here : first ≤ phase ∧ phase < first + count)
      (unfinished : ∀ stage ∈ stages, stage.phase = phase → ¬ stage.Finished) :
      Means stages first count before CodeTable.continuationFailed
  | finished {code : Int}
      (all : ∀ phase, first ≤ phase → phase < first + count →
        ∃ stage ∈ stages, stage.phase = phase ∧ ∃ outcome, stage.Accepts outcome ∧
          (phase + 1 = first + count → code = outcome.code))
      (none : count = 0 → code = before) : Means stages first count before code

/-- A stage that is finished, and the phases after it. -/
theorem Means.cons (stage : Stage δ α) {rest : List (Stage δ α)} {count : Nat} {before code : Int}
    {outcome : Outcome α} (accepts : stage.Accepts outcome)
    (h : Means rest (stage.phase + 1) count outcome.code code) :
    Means (stage :: rest) stage.phase (count + 1) before code := by
  cases h with
  | failed here unfinished =>
    refine .failed ⟨Nat.le_of_succ_le here.1, by omega⟩ fun other mem same ↦ ?_
    rcases List.mem_cons.1 mem with rfl | mem
    · omega
    · exact unfinished other mem same
  | finished all none =>
    refine .finished (fun phase after upTo ↦ ?_) (by omega)
    by_cases own : phase = stage.phase
    · exact ⟨stage, .head _, own.symm, outcome, accepts, fun last ↦ none (by omega)⟩
    · obtain ⟨other, mem, same, outcome', accepts', last⟩ := all phase (by omega) (by omega)
      exact ⟨other, .tail _ mem, same, outcome', accepts', fun final ↦ last (by omega)⟩

/-- A stage that is not finished is the last. -/
theorem Means.singleton (stage : Stage δ α) (count : Nat) (before : Int)
    (unfinished : ¬ stage.Finished) :
    Means [stage] stage.phase (count + 1) before CodeTable.continuationFailed :=
  .failed ⟨Nat.le_refl _, by omega⟩ fun _ mem _ ↦ List.mem_singleton.1 mem ▸ unfinished

theorem runPhases_means (code : Int) (first : Nat) (list : List (List (Sweep α)))
    (nonempty : [] ∉ list) :
    Ends (runPhases ctx code list) d
      (fun code' _ ↦ Means (phaseStages ctx first list d.engine) first list.length code code')
      (fun _ _ ↦ True) := by
  induction list generalizing d code first with
  | nil =>
    refine .finished (fun phase after upTo ↦ ?_) fun _ ↦ rfl
    rw [List.length_nil] at upTo
    omega
  | cons phase phases ih =>
    rw [List.mem_cons, not_or] at nonempty
    cases phase with
    | nil => exact absurd rfl nonempty.1
    | cons lead rest =>
      unfold runPhases
      simp only [ends_bind, ends_orFault, ends_onEngine, ends_conclude, ends_ite, ends_pure,
        implies_true, and_true]
      intro coupled ways stop ending
      let stage : Stage δ α := ⟨first, ⟨lead, stop, coupled⟩, n, d.engine⟩
      refine Ends.of_result (R := fun result ↦ stage.stepper.run d.engine = result) rfl
        (fun report e run ↦ ?_) fun _ _ _ ↦ trivial
      rw [phaseStages_of_ok ways ending run]
      cases finished : report.finished with
      | true =>
        obtain ⟨outcome, accepts, same⟩ := stage.accepts_of_finished run finished
        have success : 0 < outcome.code := of_decide_eq_true accepts.converged
        rw [same, if_pos rfl]
        refine ⟨fun failed ↦ absurd (failed ▸ success) (by decide), fun _ ↦ ?_⟩
        exact (ih outcome.code (first + 1) nonempty.2).mono
          (fun _ _ means ↦ Means.cons stage accepts means) fun _ _ _ ↦ trivial
      | false =>
        obtain ⟨unfinished, failed⟩ := stage.not_finished run finished
        rw [failed, if_neg Bool.false_ne_true]
        exact ⟨fun _ ↦ .singleton stage phases.length code unfinished,
          fun other ↦ absurd rfl other⟩

/-- A continuation in phases. -/
theorem phases_means (list : List (List (Sweep α))) (nonempty : [] ∉ list) :
    Ends (phases ctx list) d
      (fun code _ ↦ Means (phaseStages ctx 0 list (atStarts list d.engine)) 0 list.length
        CodeTable.continuationFailed code)
      (fun _ _ ↦ True) := by
  unfold phases
  simp only [ends_bind, ends_modifyTrack, ends_attempt]
  refine (runPhases_means (d := { d with engine := atStarts list d.engine })
    CodeTable.continuationFailed 0 list nonempty).mono ?_ ?_
  · intro code d' means
    simp only [ends_ite, ends_pure, ends_bind]
    exact ⟨fun _ ↦ means, fun _ ↦ (Ends.trivial _ _).mono (fun _ _ _ ↦ means) fun _ _ _ ↦ trivial⟩
  · intro stop d' _
    simp only [ends_throw]
    exact Ends.trivial _ _

/-- A stepper that is cleaned up after. -/
theorem runStepper_means (s : Stepper α) (cleanUp : Track α n → Track α n) (before : Int) :
    Ends (runStepper s cleanUp) d
      (fun code _ ↦ Means [⟨0, s, n, d.engine⟩] 0 1 before code) (fun _ _ ↦ True) := by
  let stage : Stage δ α := ⟨0, s, n, d.engine⟩
  unfold runStepper
  simp only [ends_bind, ends_attempt, ends_onEngine, ends_modifyTrack]
  refine Ends.of_result (R := fun result ↦ stage.stepper.run d.engine = result) rfl
    (fun report e run ↦ ?_) fun _ _ _ ↦ trivial
  rw [ends_lift_ok, ends_conclude]
  cases finished : report.finished with
  | true =>
    obtain ⟨outcome, accepts, same⟩ := stage.accepts_of_finished run finished
    refine Means.cons stage accepts (.finished (fun _ _ _ ↦ by omega) fun _ ↦ same)
  | false =>
    obtain ⟨unfinished, failed⟩ := stage.not_finished run finished
    rw [failed]
    exact .singleton stage 0 before unfinished

omit [Scalar α] [DirectSolver α] [Device δ α] in
/-- A strategy in phases has at least one, and each of them has a lead. -/
theorem phasesOf_nonempty {c : ContinuationOptions α} {solveType : SolveType}
    {list : List (List (Sweep α))} (phased : phasesOf c solveType = .ok (some list)) :
    list ≠ [] ∧ [] ∉ list := by
  unfold phasesOf at phased
  split at phased
  · split at phased <;> cases phased
    simp
  · split at phased <;> cases phased
    rename_i some
    simpa using some
  · split at phased <;> cases phased
    rename_i some
    refine ⟨List.cons_ne_nil _ _, fun nothing ↦ ?_⟩
    rw [← List.mem_singleton.1 nothing] at some
    exact some rfl
  all_goals try (split at phased)
  all_goals cases phased
  all_goals simp

omit [Scalar α] [DirectSolver α] [Device δ α] in
/-- The strategies without phases. -/
theorem cases_of_unphased {c : ContinuationOptions α} {solveType : SolveType}
    (unphased : phasesOf c solveType = .ok none) :
    solveType = .newton ∨ solveType = .gminStepping ∨ solveType = .pseudoTransient ∨
      solveType = .artificialHomotopy := by
  unfold phasesOf at unphased
  split at unphased
  all_goals try (split at unphased)
  all_goals first
    | cases unphased; done
    | simp

omit [Scalar α] [DirectSolver α] [Device δ α] in
/-- What steps a parameter without phases. -/
theorem eq_of_unphased {c : ContinuationOptions α} {solveType : SolveType}
    (steps : solveType.steps = true) (unphased : phasesOf c solveType = .ok none) :
    solveType = .gminStepping ∨ solveType = .artificialHomotopy := by
  rcases cases_of_unphased unphased with rfl | rfl | rfl | rfl
  · cases steps
  · exact .inl rfl
  · cases steps
  · exact .inr rfl

/-- The code of a strategy that steps a parameter says what has become of its phases. -/
theorem run_means (options : ModeOptions α) (ctx : ContinuationContext α) {solveType : SolveType}
    (steps : solveType.steps = true) (d : Drive δ α n) :
    Ends (run options ctx solveType) d
      (fun code _ ↦ 0 < phaseCount options.continuation solveType ∧
        Means (stages options ctx solveType d) 0 (phaseCount options.continuation solveType)
          CodeTable.continuationFailed code)
      (fun _ _ ↦ True) := by
  unfold run
  rw [ends_bind, ends_orFault]
  refine ⟨fun list chosen ↦ ?_, fun _ _ ↦ trivial⟩
  unfold phaseCount stages
  rw [chosen]
  cases list with
  | some list =>
    obtain ⟨some, nonempty⟩ := phasesOf_nonempty chosen
    exact (phases_means list nonempty).mono
      (fun _ _ means ↦ ⟨List.length_pos_iff.2 some, means⟩) fun _ _ _ ↦ trivial
  | none =>
    rcases eq_of_unphased steps chosen with rfl | rfl
    · dsimp only
      rw [gmin_eq, ends_bind, if_pos (.inl rfl)]
      refine Ends.of_result (R := fun result ↦ layConductance options ctx d = result) rfl
        (fun _ d' laid ↦ ?_) fun _ _ _ ↦ trivial
      rw [laid]
      exact (runStepper_means _ _ _).mono (fun _ _ means ↦ ⟨Nat.one_pos, means⟩) fun _ _ _ ↦ trivial
    · dsimp only
      unfold homotopy
      rw [if_pos (.inr rfl), ends_bind, ends_orFault]
      refine ⟨fun stop ending ↦ ?_, fun _ _ ↦ trivial⟩
      rw [ends_bind, ends_modifyTrack, ending]
      exact (runStepper_means _ _ _).mono (fun _ _ means ↦ ⟨Nat.one_pos, means⟩) fun _ _ _ ↦ trivial

end Drive

namespace Analysis

/-- The stages of the next solve. -/
def stages (a : Analysis δ α) : List (Stage δ α) :=
  match (ensureBuilt >>= fun _ ↦ ensureContext) a with
  | .ok ctx ready =>
    match ready.engine with
    | some e => Drive.stages (ready.options.ofMode ready.session.mode) ctx ready.effectiveSolveType
        { engine := e.engine, seed := ready.seed }
    | none => []
  | .error _ _ => []

/-- The number of phases of the next solve. -/
def phaseCount (a : Analysis δ α) : Nat :=
  Drive.phaseCount (a.options.ofMode a.session.mode).continuation a.effectiveSolveType

/-- What is built and read before a solve does not change which strategy is next. -/
theorem ready_same (a : Analysis δ α) :
    Ends (ensureBuilt >>= fun _ ↦ ensureContext) a
      (fun _ ready ↦ ready.options = a.options ∧ ready.session.mode = a.session.mode ∧
        ready.session.firstSolveComplete = a.session.firstSolveComplete)
      (fun _ _ ↦ True) := by
  have built : Ends ensureBuilt a
      (fun _ ready ↦ ready.options = a.options ∧ ready.session.mode = a.session.mode ∧
        ready.session.firstSolveComplete = a.session.firstSolveComplete)
      (fun _ _ ↦ True) := by
    refine .of_result (ensureBuilt_run a) ?_ fun _ _ _ ↦ trivial
    intro _ ready run
    cases run <;> exact ⟨rfl, rfl, rfl⟩
  rw [ends_bind]
  refine built.mono (fun _ ready same ↦ ?_) fun _ _ _ ↦ trivial
  refine .of_result (ensureContext_run ready) ?_ fun _ _ _ ↦ trivial
  intro ctx ready' run
  cases run <;> exact same

/-- The code of a solve that steps a parameter says what has become of its phases. -/
theorem solve_means (a : Analysis δ α) (steps : a.effectiveSolveType.steps = true) :
    Ends solve a
      (fun code _ ↦ 0 < a.phaseCount ∧
        Drive.Means a.stages 0 a.phaseCount CodeTable.continuationFailed code)
      (fun _ _ ↦ True) := by
  have ready : Ends (ensureBuilt >>= fun _ ↦ ensureContext) a
      (fun ctx ready ↦ (ensureBuilt >>= fun _ ↦ ensureContext) a = .ok ctx ready ∧
        ready.options = a.options ∧ ready.session.mode = a.session.mode ∧
        ready.session.firstSolveComplete = a.session.firstSolveComplete)
      (fun _ _ ↦ True) :=
    ((Ends.of_result (R := fun result ↦ (ensureBuilt >>= fun _ ↦ ensureContext) a = result) rfl
      (fun _ _ run ↦ run) fun _ _ _ ↦ trivial).and (ready_same a)).mono (fun _ _ both ↦ both)
      fun _ _ _ ↦ trivial
  refine ends_solve_of (ready.mono ?_ fun _ _ _ ↦ trivial)
  rintro ctx ready ⟨read, options, mode, complete⟩
  have next : ready.effectiveSolveType = a.effectiveSolveType := by
    unfold effectiveSolveType
    rw [options, mode, complete]
  refine ⟨fun _ ↦ trivial, fun e there ↦ ?_⟩
  have begun : a.stages = Drive.stages (ready.options.ofMode ready.session.mode) ctx
      ready.effectiveSolveType { engine := e.engine, seed := ready.seed } := by
    unfold stages
    rw [read]
    dsimp only
    rw [there]
  rw [begun, phaseCount, ← next, ← options, ← mode]
  exact Drive.run_means _ ctx (next ▸ steps) _

/-- **Uniform result.**  A solve that steps a parameter and ends with a code has either that of a
failed continuation, or a positive one.  In the second case every phase has been finished, by a
Newton solve that has converged at the end value of its lead, and the code is that of the last
Newton solve of the last phase.  And if every phase is finished, the code is positive. -/
theorem solve_code (a : Analysis δ α) (steps : a.effectiveSolveType.steps = true) :
    Ends solve a
      (fun code _ ↦ 0 < a.phaseCount ∧
        (code = -1 ∨ 0 < code ∧
          ∀ phase < a.phaseCount, ∃ stage ∈ a.stages, stage.phase = phase ∧
            ∃ outcome, stage.Accepts outcome ∧ (phase + 1 = a.phaseCount → code = outcome.code)) ∧
        ((∀ phase < a.phaseCount, ∃ stage ∈ a.stages, stage.phase = phase ∧ stage.Finished) →
          0 < code))
      (fun _ _ ↦ True) := by
  refine (solve_means a steps).mono ?_ fun _ _ _ ↦ trivial
  rintro code _ ⟨some, means⟩
  cases means with
  | failed here unfinished =>
    refine ⟨some, .inl rfl, fun all ↦ ?_⟩
    obtain ⟨stage, mem, same, finished⟩ := all _ (Nat.zero_add a.phaseCount ▸ here.2)
    exact absurd finished (unfinished stage mem same)
  | finished all _ =>
    rw [Nat.zero_add] at all
    have success : 0 < code := by
      obtain ⟨_, -, -, outcome, accepts, last⟩ := all (a.phaseCount - 1) (Nat.zero_le _) (by omega)
      rw [last (by omega)]
      exact of_decide_eq_true accepts.converged
    exact ⟨some, .inr ⟨success, fun phase upTo ↦ all phase (Nat.zero_le _) upTo⟩, fun _ ↦ success⟩

/-- Options that step a current and then something else, with a table in which a residual that is
small enough has a code of its own, and a solve that needs too many steps counts as a success. -/
def recoded : SolverOptions ExtendedRat :=
  let standard : SolverOptions ExtendedRat := .standard
  { standard with
    dcOp := { standard.dcOp with
      continuation := { standard.dcOp.continuation with
        solveType := .multiParameter
        parameters := [.ramp "current", .ramp "gain"] } }
    codes := { normTooSmall := 7, tooManySteps := 5 } }

-- What is said of the solve is not to be compared by carrying it out.
seal Ends in
/-- Both phases come to their ends, and the code is that of a small residual in this table. -/
theorem solve_code_recoded :
    ∃ a₀ : Analysis Conductors ExtendedRat, new {} .serial recoded = .ok a₀ ∧
      a₀.effectiveSolveType.steps = true ∧ a₀.phaseCount = 2 ∧
      Ends solve a₀
        (fun code _ ↦ code = 7 ∧ ∀ phase < 2, ∃ stage ∈ a₀.stages, stage.phase = phase ∧
          ∃ outcome, stage.Accepts outcome ∧ (phase + 1 = 2 → outcome.code = 7))
        (fun _ _ ↦ False) := by
  have ran : Yields (new {} .serial recoded : Except Stop (Analysis Conductors ExtendedRat))
      fun a₀ ↦ a₀.effectiveSolveType.steps = true ∧ a₀.phaseCount = 2 ∧
        Ends solve a₀ (fun code _ ↦ code = 7) (fun _ _ ↦ False) := by
    decide +kernel
  obtain ⟨a₀, made, steps, count, run⟩ := ran.exists
  refine ⟨a₀, made, steps, count, (run.and (solve_code a₀ steps)).mono ?_ fun _ _ h ↦ h.1⟩
  rintro code _ ⟨rfl, -, failed | ⟨-, all⟩, -⟩
  · cases failed
  · rw [count] at all
    refine ⟨rfl, fun phase upTo ↦ ?_⟩
    obtain ⟨stage, mem, same, outcome, accepts, last⟩ := all phase upTo
    exact ⟨stage, mem, same, outcome, accepts, fun final ↦ (last final).symm⟩

end Analysis

end OperatingPoint
