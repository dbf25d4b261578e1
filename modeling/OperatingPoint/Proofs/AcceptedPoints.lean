import OperatingPoint.Proofs.AnalysisCommands
import OperatingPoint.Proofs.CapturedRun

/-!
# Accepted points

The points that a device layer is handed as accepted are those that continuations have found.  On a
bench this is what `Bench.captures` says.  An analysis has but one track, so that the last point
that was handed over in the current generation is the solution: `Rig.Echoes`.  A strategy that steps
a parameter and succeeds has handed its last point over, and what it takes off afterwards leaves the
solution where it is.
-/

set_option autoImplicit false

namespace OperatingPoint

open Step

variable {δ α : Type} [Scalar α] [DirectSolver α] [Device δ α] {n : Nat}

/-! ## One track -/

namespace Rig

variable {r r' : Rig (Journal δ α) α n}

/-- The point of a rig is the last that was handed over. -/
def HandedOn (r : Rig (Journal δ α) α n) : Prop :=
  r.journal.accepted.head? = some r.track.x.toArray

/-- A rig whose track is the only one: if a point was handed over in its generation, it is the last
one and the rig is still there. -/
structure Echoes (r : Rig (Journal δ α) α n) : Prop where
  rest : r.AtRest
  upTo : ∀ generation, r.track.captured = some generation →
    generation ≤ r.track.iterate.generation
  here : r.track.captured = some r.track.iterate.generation → r.HandedOn

omit [Device δ α] in
theorem Echoes.silent (h : r.Echoes) (silent : r.Silent r') : r'.Echoes where
  rest := silent.rest
  upTo generation captured := by
    rw [silent.captured] at captured
    exact Nat.le_trans (h.upTo generation captured) silent.generation
  here captured := by
    rw [silent.captured] at captured
    have same := Nat.le_antisymm (h.upTo _ captured) silent.generation
    rw [HandedOn, silent.accepted, silent.x same]
    exact h.here (same ▸ captured)

theorem keepsCommands_echoes : KeepsCommands (Echoes (δ := δ) (α := α) (n := n)) :=
  { keepsQuiet_of_silent (I := Echoes) Echoes.rest Echoes.silent with
    parameter := fun h name value ↦
      h.silent (.shift h.rest (Track.setParameter_shifts _ name value))
    accept := fun h ↦ ⟨⟨h.rest.paired, h.rest.rests⟩,
      fun _ same ↦ Nat.le_of_eq (Option.some.inj same).symm, fun _ ↦ rfl⟩ }

theorem keepsEngines_echoes {c : Communicator α} :
    Analysis.KeepsEngines c fun n ↦ Echoes (δ := δ) (α := α) (n := n) where
  rig _ := keepsCommands_echoes
  previous h x := h.silent ⟨⟨.setPrevious x, .of_fresh rfl⟩, rfl, rfl, Nat.le_succ _,
    fun same ↦ absurd same (Nat.succ_ne_self _)⟩
  afresh paired _ _ fresh := ⟨⟨paired, .of_fresh fresh⟩, nofun, nofun⟩

omit [Device δ α] in
theorem HandedOn.shift (h : r.HandedOn) {t : Track α n} (shifts : r.track.Shifts t) :
    (r.withTrack t).HandedOn := by
  rw [HandedOn]
  show r.journal.accepted.head? = some t.iterate.x.toArray
  rw [shifts.x]
  exact h

end Rig

/-! ## Strategies that step a parameter -/

namespace Drive

variable {ctx : ContinuationContext α} {d : Drive (Journal δ α) α n}

theorem runPhases_handsOn (h : d.engine.rig.Echoes) (code : Int) (list : List (List (Sweep α))) :
    Ends (runPhases ctx code list) d
      (fun code' d' ↦ (CodeTable.isSuccess code = true → d.engine.rig.HandedOn) →
        CodeTable.isSuccess code' = true → d'.engine.rig.HandedOn)
      (fun _ _ ↦ True) := by
  induction list generalizing d code with
  | nil => exact fun before success ↦ before success
  | cons phase phases ih =>
    cases phase with
    | nil => exact ih h code
    | cons lead rest =>
      unfold runPhases
      simp only [ends_bind, ends_orFault, ends_onEngine, ends_conclude, ends_ite, ends_pure,
        implies_true, and_true]
      intro coupled _ stop _
      refine .of_result (R := fun result ↦ Stepper.run ⟨lead, stop, coupled⟩ d.engine = result) rfl
        (fun report e run ↦ ?_) fun _ _ _ ↦ trivial
      have echoes := (keeps_run_stepper Rig.keepsCommands_echoes _ d.engine h).ok run
      have handedOn : CodeTable.isSuccess report.conclusion = true → e.rig.HandedOn := fun success ↦
        echoes.here (Stepper.run_captured run (report.finished_of_success success))
      exact ⟨fun _ _ ↦ handedOn, fun _ ↦ (ih (d := { d with engine := e, last := report.last })
        echoes report.conclusion).mono (fun _ _ later _ ↦ later handedOn) fun _ _ _ ↦ trivial⟩

theorem phases_handsOn (h : d.engine.rig.Echoes) (list : List (List (Sweep α))) :
    Ends (phases ctx list) d
      (fun code d' ↦ CodeTable.isSuccess code = true → d'.engine.rig.HandedOn)
      (fun _ _ ↦ True) := by
  have keeps := Rig.keepsCommands_echoes (δ := δ) (α := α) (n := n)
  unfold phases
  simp only [ends_bind, ends_modifyTrack, ends_attempt]
  have started := keeps.shift (keeps.shift h (Track.setParameters_shifts list.flatten _))
    (Track.setForwarding_shifts _ true)
  refine (runPhases_handsOn (d := { d with engine := { d.engine with rig := _ } }) started
    CodeTable.continuationFailed list).mono (fun code d' later ↦ ?_) fun stop d' _ ↦ ?_
  · simp only [ends_ite, ends_pure, ends_bind]
    refine ⟨fun success _ ↦ ?_, fun failed ↦ ?_⟩
    · have handedOn := later (fun failed ↦ absurd failed (by decide)) success
      exact handedOn.shift (Track.setForwarding_shifts _ false)
    · exact (Ends.trivial _ _).mono (fun _ _ _ success ↦ absurd success failed) fun _ _ _ ↦ trivial
  · simp only [ends_throw]
    exact Ends.trivial _ _

theorem runStepper_handsOn (h : d.engine.rig.Echoes) (s : Stepper α)
    {cleanUp : Track α n → Track α n} (shifts : ∀ t : Track α n, t.Shifts (cleanUp t)) :
    Ends (runStepper s cleanUp) d
      (fun code d' ↦ CodeTable.isSuccess code = true → d'.engine.rig.HandedOn)
      (fun _ _ ↦ True) := by
  unfold runStepper
  simp only [ends_bind, ends_attempt, ends_onEngine, ends_modifyTrack]
  refine .of_result (R := fun result ↦ s.run d.engine = result) rfl (fun report e run ↦ ?_)
    fun _ _ _ ↦ trivial
  rw [ends_lift_ok, ends_conclude]
  intro success
  have echoes := (keeps_run_stepper Rig.keepsCommands_echoes _ d.engine h).ok run
  have handedOn := echoes.here (Stepper.run_captured run (report.finished_of_success success))
  exact handedOn.shift ((Track.setForwarding_shifts _ false).trans (shifts _))

/-- A strategy that steps a parameter and succeeds ends at the last point that was handed over. -/
theorem run_handsOn (h : d.engine.rig.Echoes) (options : ModeOptions α)
    (ctx : ContinuationContext α) {solveType : SolveType} (steps : solveType.steps = true) :
    Ends (run options ctx solveType) d
      (fun code d' ↦ CodeTable.isSuccess code = true → d'.engine.rig.HandedOn)
      (fun _ _ ↦ True) := by
  unfold run
  rw [ends_bind, ends_orFault]
  refine ⟨fun list chosen ↦ ?_, fun _ _ ↦ trivial⟩
  cases list with
  | some list => exact phases_handsOn h list
  | none =>
    rcases eq_of_unphased steps chosen with rfl | rfl
    · dsimp only
      rw [gmin_eq, ends_bind]
      exact (keeps_layConductance (S := fun _ ↦ True) Rig.keepsCommands_echoes options ctx d
        ⟨h, trivial⟩).mono
        (fun _ _ echoes ↦ runStepper_handsOn echoes.1 _ offConductance_shifts) fun _ _ _ ↦ trivial
    · dsimp only
      unfold homotopy
      rw [ends_bind, ends_orFault]
      refine ⟨fun stop _ ↦ ?_, fun _ _ ↦ trivial⟩
      rw [ends_bind, ends_modifyTrack]
      exact runStepper_handsOn (d := { d with engine := { d.engine with rig := _ } })
        (Rig.keepsCommands_echoes.shift h (Track.attachBlend_shifts _ _)) _ offBlend_shifts

end Drive

namespace Analysis

/-- The last point that the device layer was handed as accepted. -/
def lastAccepted (a : Analysis (Journal δ α) α) : Option (Array α) :=
  a.device?.bind fun journal ↦ journal.accepted.head?

/-- After a solve that steps a parameter and succeeds, the last accepted point is the solution. -/
theorem solve_handsOn {a : Analysis (Journal δ α) α} {c : Communicator α}
    (h : a.Has c fun n ↦ Rig.Echoes (n := n))
    (steps : a.effectiveSolveType.steps = true) :
    Ends solve a (fun code a' ↦ 0 < code → a'.lastAccepted = some a'.solution)
      (fun _ _ ↦ True) := by
  have ready := (((has_ensureBuilt Rig.keepsEngines_echoes).bind fun _ ↦ has_ensureContext) a h).and
    (ready_same a)
  refine ends_solve_of (ready.mono ?_ fun _ _ _ ↦ trivial)
  rintro ctx a₁ ⟨echoes, options, mode, complete⟩
  have next : a₁.effectiveSolveType = a.effectiveSolveType := by
    unfold effectiveSolveType
    rw [options, mode, complete]
  refine ⟨fun _ ↦ trivial, fun e there ↦ ?_⟩
  exact (Drive.run_handsOn (d := { engine := e.engine, seed := a₁.seed }) (echoes.engine e there)
    _ ctx (next ▸ steps)).mono (fun code d handedOn success ↦ handedOn (decide_eq_true success))
    fun _ _ _ ↦ trivial

end Analysis

/-- **Accepted points.**  On a bench, whatever its history: the points that the device layer has
been handed are the captures of the history, and no generation of a track comes up twice among them.
A run of a stepper hands over the points of its attempts that have found a solution, and gives up as
many as have ended without one; if it accepts a point and does not stop, the track ends at its last
capture.  In an analysis, whatever its history, the last point that the device layer was handed is
the solution after every solve that steps a parameter and succeeds. -/
theorem accepted_points_of_history (device : δ) (communicator : Communicator α) :
    (∀ (linear : LinearOptions α) (newton : Newton α) (history : List (Bench.Request α n)),
      let start : Bench (Journal δ α) α n := .empty ⟨device, []⟩ communicator linear newton n
      let b := start.run history
      b.store.device.accepted = (start.captures history).points ∧
        (start.captures history).Increasing ∧
        ∀ k t s, b.Live k t →
          Ends (Bench.perform (.step k s)) b
            (fun report b' ↦ b.Tells k s t b' ∧ (0 < report.accepted → ∃ t', b'.Live k t' ∧
              ((start.captures (history ++ [⟨_, .step k s⟩])).last k).map Capture.point =
                some t'.x.toArray))
            (fun _ b' ↦ b.Tells k s t b')) ∧
      ∀ (options : SolverOptions α) (a₀ : Analysis (Journal δ α) α),
        Analysis.new ⟨device, []⟩ communicator options = .ok a₀ →
        ∀ history, (a₀.run history).effectiveSolveType.steps = true →
          Ends Analysis.solve (a₀.run history)
            (fun code a' ↦ 0 < code → a'.lastAccepted = some a'.solution) (fun _ _ ↦ True) := by
  refine ⟨fun linear newton history ↦ ?_, fun options a₀ made history steps ↦ ?_⟩
  · intro start b
    have recorded : b.Recorded (start.captures history ++ []) :=
      Bench.recorded_run (Bench.recorded_empty _ rfl _ _ _) history
    rw [List.append_nil] at recorded
    refine ⟨recorded.accepted, recorded.increasing, fun k t s live ↦ ?_⟩
    rw [Bench.captures_append]
    exact Bench.step_tells recorded live s
  · have echoes := Analysis.has_of_new Rig.keepsEngines_echoes made
    exact Analysis.solve_handsOn (Analysis.has_run Rig.keepsEngines_echoes echoes _) steps

/-- A current that is stepped from zero to one. -/
def currentStepper : Stepper ExtendedRat := ⟨.ramp "current", 1, []⟩

/-- Options that step a current. -/
def steppingCurrent : SolverOptions ExtendedRat :=
  let standard : SolverOptions ExtendedRat := .standard
  { standard with dcOp := { standard.dcOp with
      continuation := { standard.dcOp.continuation with
        solveType := .naturalParameter
        parameters := [.ramp "current"] } } }

-- What is said of the runs is not to be compared by carrying them out.
seal Ends in
/-- A current that has been stepped already is stepped again on a bench, and once in an analysis. -/
theorem accepted_points_of_history_current :
    let history : List (Bench.Request ExtendedRat 1) :=
      [⟨_, .add #[0.0]⟩, ⟨_, .step 0 currentStepper⟩]
    let newton : Newton ExtendedRat := { battery := .new .serial .standard {} false }
    let start : Bench (Journal Conductors ExtendedRat) ExtendedRat 1 :=
      .empty ⟨{}, []⟩ .serial .standard newton 1
    let b := start.run history
    2 ≤ b.store.device.accepted.length ∧ (start.captures history).Increasing ∧
      (∃ t, b.Live 0 t ∧ Ends (Bench.perform (.step 0 currentStepper)) b
        (fun _ b' ↦ b.Tells 0 currentStepper t b' ∧ ∃ t', b'.Live 0 t' ∧
          ((start.captures (history ++ [⟨_, .step 0 currentStepper⟩])).last 0).map Capture.point =
            some t'.x.toArray)
        (fun _ _ ↦ False)) ∧
      ∃ a₀ : Analysis (Journal Conductors ExtendedRat) ExtendedRat,
        Analysis.new ⟨{}, []⟩ .serial steppingCurrent = .ok a₀ ∧
        Ends Analysis.solve a₀ (fun code a' ↦ code = 1 ∧ a'.lastAccepted = some a'.solution)
          (fun _ _ ↦ False) := by
  intro history newton start b
  obtain ⟨onBench, inAnalysis⟩ := accepted_points_of_history (n := 1) ({} : Conductors) .serial
  obtain ⟨-, increasing, steps⟩ := onBench .standard newton history
  have made : Yields (Analysis.new ⟨{}, []⟩ .serial steppingCurrent :
      Except Stop (Analysis (Journal Conductors ExtendedRat) ExtendedRat)) fun a₀ ↦
        a₀.effectiveSolveType.steps = true ∧
          Ends Analysis.solve a₀ (fun code _ ↦ code = 1) (fun _ _ ↦ False) := by
    decide +kernel
  obtain ⟨a₀, made, stepping, solved⟩ := made.exists
  refine ⟨by decide +kernel, increasing, ?_, a₀, made, ?_⟩
  · have there : b.tracks[0]?.join.isSome = true := by decide +kernel
    obtain ⟨t, live⟩ := Option.isSome_iff_exists.1 there
    have live : b.Live 0 t := Option.join_eq_some_iff.1 live
    have ran : Ends (Bench.perform (.step 0 currentStepper)) b (fun report _ ↦ 0 < report.accepted)
        (fun _ _ ↦ False) := by
      decide +kernel
    exact ⟨t, live, (ran.and (steps 0 t currentStepper live)).mono
      (fun _ _ both ↦ ⟨both.2.1, both.2.2 both.1⟩) fun _ _ both ↦ both.1⟩
  · refine (solved.and (inAnalysis steppingCurrent a₀ made [] stepping)).mono ?_ fun _ _ h ↦ h.1
    rintro code a' ⟨rfl, last⟩
    exact ⟨rfl, last (by decide)⟩

end OperatingPoint
