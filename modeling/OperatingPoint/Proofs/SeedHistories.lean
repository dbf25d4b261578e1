import OperatingPoint.Proofs.AnalysisCommands
import OperatingPoint.Proofs.BenchStops
import OperatingPoint.Proofs.SeedSteps
import OperatingPoint.Proofs.Sessions

/-!
# Seeds that wait

A seed that has been set waits for a solve by plain Newton without initial conditions in use.  That
solve takes it, however it ends, and no other command does: not a solve by another strategy, or with
conditions in use, or one that stops before its strategy has begun.

Whether a solve is such a one is decided when the engine is built and the context is read, before
the strategy begins: `Analysis.plainEngine?`.
-/

set_option autoImplicit false

namespace OperatingPoint

open Step

variable {δ α β : Type} [Scalar α] [DirectSolver α] [Device δ α] {n : Nat} {p : Partition}
  {layer : δ} {c : Communicator α} {o : SolverOptions α}

/-! ## Engines at rest -/

namespace Rig

theorem keepsEngines_rest :
    Analysis.KeepsEngines c fun n ↦ AtRest (δ := δ) (α := α) (n := n) where
  rig _ := keepsCommands_rest
  previous _ x := ⟨.setPrevious x, .of_fresh rfl⟩
  afresh paired _ _ fresh := ⟨paired, .of_fresh fresh⟩

/-- A rig at rest whose store has a given communicator. -/
def Joins (c : Communicator α) (r : Rig δ α n) : Prop := r.AtRest ∧ r.store.communicator = c

theorem keepsCommands_joins : KeepsCommands (Joins (δ := δ) (n := n) c) where
  toKeeps := keeps_rest_and (fun h _ ↦ h)
    (fun r h ↦ (computeResidual_frames r).mono (fun _ _ frames ↦ frames.communicator.trans h)
      fun _ _ frames ↦ frames.communicator.trans h)
    (fun r h ↦ (computeJacobian_frames r).mono (fun _ _ frames ↦ frames.communicator.trans h)
      fun _ _ frames ↦ frames.communicator.trans h)
    fun mayReuse r h ↦ (computeNewton_frames r mayReuse).mono
      (fun _ _ frames ↦ frames.communicator.trans h)
      fun _ _ frames ↦ frames.communicator.trans h
  parameter h name value := ⟨keepsCommands_rest.parameter h.1 name value, h.2⟩
  accept h := ⟨keepsCommands_rest.accept h.1, h.2⟩
  abandon h := ⟨keepsCommands_rest.abandon h.1, h.2⟩
  pseudo h _ _ there same := ⟨keepsCommands_rest.pseudo h.1 there same, h.2⟩
  shift h _ shifts := ⟨keepsCommands_rest.shift h.1 shifts, h.2⟩
  derivatives h := ⟨keepsCommands_rest.derivatives h.1, h.2⟩
  gradient := by
    intro r h
    refine (keepsCommands_rest.gradient r h.1).mp (.of_result (computeGradient_run r) ?_ ?_)
    · intro _ r' run rest
      cases run with
      | known => exact h
      | computed => exact ⟨rest, h.2⟩
    · intro _ r' run _
      cases run with
      | noJacobian => exact h
      | noResidual => exact h
  give h name value := ⟨keepsCommands_rest.give h.1 name value, h.2⟩

theorem keepsEngines_joins : Analysis.KeepsEngines c fun n ↦ Joins (δ := δ) (n := n) c where
  rig _ := keepsCommands_joins
  previous h x := ⟨⟨.setPrevious x, .of_fresh rfl⟩, h.2⟩
  afresh paired same _ fresh := ⟨⟨paired, .of_fresh fresh⟩, same⟩

end Rig

namespace Analysis

variable {a a₀ : Analysis δ α} {S : Option Partition → Prop}

/-! ## Who takes a seed -/

/-- Whether a command sets a seed. -/
def Command.setsSeed : Command α β → Bool
  | .setSeed _ => true
  | _ => false

/-- Whether a command is a whole solve. -/
def Command.solves : Command α β → Bool
  | .solve => true
  | _ => false

/-- The engine on which a solve would run plain Newton without initial conditions in use, if that is
what it would do. -/
def plainEngine? (a : Analysis δ α) : Option (SizedEngine δ α) :=
  match (ensureBuilt >>= fun _ ↦ ensureContext) a with
  | .ok _ ready =>
    if ready.effectiveSolveType = .newton ∧ ¬ ready.UsesConditions then ready.engine else none
  | .error _ _ => none

theorem plainEngine?_eq_some_iff {e : SizedEngine δ α} :
    a.plainEngine? = some e ↔ ∃ ctx ready,
      (ensureBuilt >>= fun _ ↦ ensureContext) a = .ok ctx ready ∧
      ready.effectiveSolveType = .newton ∧ ¬ ready.UsesConditions ∧ ready.engine = some e := by
  unfold plainEngine?
  cases run : (ensureBuilt >>= fun _ ↦ ensureContext) a with
  | ok ctx ready => simp [and_assoc]
  | error stop a' => simp

/-- Whether a command is a solve by plain Newton without initial conditions in use. -/
def Visit.solvesPlainly (v : Visit δ α) : Bool :=
  v.request.2.solves && v.found.plainEngine?.isSome

omit [Device δ α] in
/-- What plain Newton clamps is told by whether initial conditions are in use. -/
theorem clamp?_eq_none_iff {ctx : ContinuationContext α} (context : a.context = some ctx) :
    Drive.clamp? (a.options.ofMode a.session.mode) ctx = .ok none ↔ ¬ a.UsesConditions := by
  unfold UsesConditions Drive.clamp?
  rw [context, Option.bind_some]
  cases ctx.initialConditions with
  | none => simp
  | some conditions =>
    obtain ⟨partition, values⟩ := conditions
    cases (a.options.ofMode a.session.mode).continuation.useInitialConditions with
    | false => simp
    | true => cases clamped : Clamp.ofValues partition values <;> simp [Except.map, clamped]

/-! ## Commands that leave a seed alone -/

omit [Device δ α] in
theorem seed_onEngine (act : {n : Nat} → Step (Engine δ α n) β) :
    Preserves (onEngine act) fun a ↦ S a.seed := by
  intro a h
  refine ends_onEngine (fun e there ↦ ?_) fun _ ↦ h
  exact (Ends.trivial act e.engine).mono (fun _ _ _ ↦ h) fun _ _ _ ↦ h

theorem seed_ensureBuilt : Preserves ensureBuilt fun a : Analysis δ α ↦ S a.seed := by
  intro a h
  refine .of_result (ensureBuilt_run a) ?_ ?_
  · intro _ a' run
    cases run <;> exact h
  · intro stop a' run
    cases run <;> exact h

/-- The context that has been read is the one of the analysis, whose seed waits on. -/
theorem seed_ensureContext (h : S a.seed) :
    Ends ensureContext a (fun ctx a' ↦ S a'.seed ∧ a'.context = some ctx)
      (fun _ a' ↦ S a'.seed) := by
  refine .of_result (ensureContext_run a) ?_ ?_
  · intro ctx a' run
    cases run with
    | known known => exact ⟨h, known⟩
    | read => exact ⟨h, rfl⟩
  · intro stop a' run
    cases run <;> exact h

/-- What is built and read before a solve leaves a seed alone. -/
theorem seed_ready (h : S a.seed) :
    Ends (ensureBuilt >>= fun _ ↦ ensureContext) a (fun ctx a' ↦ S a'.seed ∧ a'.context = some ctx)
      (fun _ a' ↦ S a'.seed) := by
  rw [ends_bind]
  exact (seed_ensureBuilt a h).mono (fun _ _ waits ↦ seed_ensureContext waits) fun _ _ waits ↦ waits

/-- A solve leaves a seed alone, unless it runs plain Newton without initial conditions in use. -/
theorem seed_solve (has : a.Has c fun n ↦ Rig.AtRest (n := n)) (h : S a.seed)
    (takes : ∀ e, a.plainEngine? = some e → ∀ p, S (some p) → S none) :
    Ends solve a (fun _ a' ↦ S a'.seed) (fun _ a' ↦ S a'.seed) := by
  have built : Preserves (ensureBuilt >>= fun _ ↦ ensureContext)
      (Has c fun n ↦ Rig.AtRest (δ := δ) (α := α) (n := n)) :=
    .bind (has_ensureBuilt Rig.keepsEngines_rest) fun _ ↦ has_ensureContext
  refine ends_solve_of (.of_result (R := fun result ↦
    (ensureBuilt >>= fun _ ↦ ensureContext) a = result) rfl ?_
      fun _ _ run ↦ (seed_ready h).error run)
  intro ctx a₁ run
  obtain ⟨waits, context⟩ := (seed_ready h).ok run
  refine ⟨fun _ ↦ waits, fun e there ↦ ?_⟩
  refine (Drive.keeps_run Rig.keepsCommands_rest (fun plain unclamped ↦ takes e ?_) _
    ⟨((built a has).ok run).engine e there, waits⟩).mono (fun _ _ kept ↦ kept.2)
    fun _ _ kept ↦ kept.2
  exact plainEngine?_eq_some_iff.2
    ⟨ctx, a₁, run, plain, (clamp?_eq_none_iff context).1 unclamped, there⟩

/-- Any other command leaves it alone, unless it sets another one. -/
theorem seed_perform (has : a.Has c fun n ↦ Rig.AtRest (n := n)) (h : S a.seed)
    (command : Command α β) (unset : command.setsSeed = false)
    (takes : command.solves = true → ∀ e, a.plainEngine? = some e → ∀ p, S (some p) → S none) :
    Ends (perform command) a (fun _ a' ↦ S a'.seed) (fun _ a' ↦ S a'.seed) := by
  cases command with
  | solve => exact seed_solve has h (takes rfl)
  | step =>
    have kept : Preserves step fun a : Analysis δ α ↦ S a.seed :=
      .bind seed_ensureBuilt fun _ ↦ .bind (seed_onEngine _) fun _ ↦
        .bind (.modify fun _ h ↦ h) fun _ ↦ .pure _
    exact kept a h
  | setMode => exact h
  | resetSession => exact h
  | setTimePoint => exact h
  | setInitialConditions conditions =>
    have kept : Preserves (setInitialConditions conditions) fun a : Analysis δ α ↦ S a.seed := by
      refine .bind .get fun a ↦ ?_
      split
      · exact .bind (.orFault _) fun _ ↦ .modify fun _ h ↦ h
      · exact .modify fun _ h ↦ h
    exact kept a h
  | setSeed => cases unset
  | setSolution x =>
    rw [perform]
    exact seed_onEngine _ a h
  | setPrevious x =>
    rw [perform]
    exact seed_onEngine _ a h
  | applyJacobian v length =>
    exact Preserves.bind (.lift _) (fun _ ↦ seed_onEngine _) a h
  | applyTranspose v length =>
    exact Preserves.bind (.lift _) (fun _ ↦ seed_onEngine _) a h

/-- A history in which no seed is set leaves one alone, if no solve by plain Newton takes it. -/
theorem seed_run (has : a.Has c fun n ↦ Rig.AtRest (n := n)) (h : S a.seed)
    (history : List (Request α)) (unset : ∀ request ∈ history, request.2.setsSeed = false)
    (takes : ∀ v ∈ a.visits history, v.solvesPlainly = true → ∀ p, S (some p) → S none) :
    S (a.run history).seed := by
  induction history generalizing a with
  | nil => exact h
  | cons request rest ih =>
    obtain ⟨first, unset⟩ := List.forall_mem_cons.1 unset
    obtain ⟨now, later⟩ := List.forall_mem_cons.1 takes
    refine ih (has_perform Rig.keepsEngines_rest request.2 a has).after ?_ unset later
    refine (seed_perform has h request.2 first fun solves e plain ↦ now ?_).after
    rw [Visit.solvesPlainly, solves, plain]
    rfl

/-! ## The solve that takes a seed -/

/-- The engine of a solve by plain Newton has what the engine of the analysis has. -/
theorem plainEngine?_has {I : (n : Nat) → Rig δ α n → Prop} (keeps : KeepsEngines c I)
    (has : a.Has c I) {e : SizedEngine δ α} (plain : a.plainEngine? = some e) :
    I e.unknowns e.engine.rig := by
  obtain ⟨ctx, ready, run, -, -, there⟩ := plainEngine?_eq_some_iff.1 plain
  have built : Preserves (ensureBuilt >>= fun _ ↦ ensureContext) (Has c I) :=
    .bind (has_ensureBuilt keeps) fun _ ↦ has_ensureContext
  exact ((built a has).ok run).engine e there

/-- Nothing is laid over the equations of an engine between two solves. -/
theorem plainEngine?_laid {N : String → Prop}
    (kept : a.Kept (fun n ↦ Rig.Laid (n := n) layer N none none false) c o) {e : SizedEngine δ α}
    (plain : a.plainEngine? = some e) : e.engine.rig.Lays layer none none false := by
  obtain ⟨ctx, ready, run, -, -, there⟩ := plainEngine?_eq_some_iff.1 plain
  have prepared : Ends (ensureBuilt >>= fun _ ↦ ensureContext) a
      (fun _ ready ↦ ready.Prepared (fun n ↦ Rig.Laid (n := n) layer N none none false) c o)
      (fun _ _ ↦ True) := by
    rw [ends_bind]
    refine (ensureBuilt_keeps (fun _ ↦ Rig.settles_laid) kept).mono (fun _ _ built ↦ ?_)
      fun _ _ _ ↦ trivial
    exact (ensureContext_keeps built.1).mono (fun _ _ read ↦ read.1) fun _ _ _ ↦ trivial
  exact ((prepared.ok run).engine_fits there).keeps.toLays

/-- What a solve by plain Newton on an engine does with the seed that is waiting. -/
structure TakesSeed (p : Partition) (e : SizedEngine δ α) (a : Analysis δ α) : Prop where
  seed : a.seed = none
  misfit : p.bound ≠ e.unknowns → a.engine = some e
  fit : p.bound = e.unknowns →
    a.engine = some ⟨e.unknowns, (Step.after Engine.solve (e.engine.seeded p)).detached⟩

theorem solve_takes {e : SizedEngine δ α} (bare : e.engine.rig.track.overlay.strategy = none)
    (waiting : a.seed = some p) (plain : a.plainEngine? = some e) :
    Ends solve a (fun _ a' ↦ a'.TakesSeed p e) (fun _ a' ↦ a'.TakesSeed p e) := by
  obtain ⟨ctx, a₁, run, kind, unused, there⟩ := plainEngine?_eq_some_iff.1 plain
  obtain ⟨waits, context⟩ := (seed_ready (S := fun s ↦ s = some p) waiting).ok run
  refine ends_solve_of ((ends_of_ok run).2 ⟨fun lost ↦ ?_, fun e' there' ↦ ?_⟩)
  · rw [there] at lost
    cases lost
  · obtain rfl := Option.some.inj (there.symm.trans there')
    have back : ∀ {d : Drive δ α e.unknowns} {a' : Analysis δ α},
        Drive.Takes p { engine := e.engine, seed := a₁.seed } d → a'.seed = d.seed →
        a'.engine = some ⟨e.unknowns, d.engine⟩ → a'.TakesSeed p e := by
      intro d a' taken seed engine
      refine ⟨seed.trans taken.seed, fun misfit ↦ ?_, fun fit ↦ ?_⟩
      · rw [engine, taken.misfit misfit]
      · rw [engine, taken.fit fit]
    rw [kind]
    exact (Drive.newton_takes (d := { engine := e.engine, seed := a₁.seed }) bare
      ((clamp?_eq_none_iff context).2 unused) waits).mono
      (fun _ _ taken ↦ back taken rfl rfl) fun _ _ taken ↦ back taken rfl rfl

/-- **The one solve and the one step of a seed.**  In exact arithmetic, with an exact linear solver
and on any device layer: a seed that was set waits through any history in which no other is set and
no solve runs plain Newton without initial conditions in use.  The first solve that does takes it,
however it ends, and there is none from then on until another one is set.

In that solve, the first iteration leaves the seeded unknowns where they are; the first Jacobian has
rows of the identity in the seeded rows; and what is loaded after it, residuals and Jacobians, is
stored as the device layer answers it.  The one exception is a seed that was set for another number
of unknowns, with which nothing is done at all. -/
theorem seed_acts_once {layer : Journal δ α} {a₀ : Analysis (Journal δ α) α}
    (exact : Scalar.Exact α) (direct : DirectSolver.Exact α) (hears : c.Hears)
    (made : new layer c o = .ok a₀) (before between : List (Request α))
    (waiting : (a₀.run before).seed = some p)
    (unset : ∀ request ∈ between, request.2.setsSeed = false)
    (spared : ∀ v ∈ (a₀.run before).visits between, v.solvesPlainly = false) :
    let a := (a₀.run before).run between
    a.seed = some p ∧ ∀ e, a.plainEngine? = some e →
      (Step.after solve a).TakesSeed p e ∧
      (p.bound = e.unknowns → (e.engine.seeded p).ActsOnce p) ∧
      ∀ later : List (Request α), (∀ request ∈ later, request.2.setsSeed = false) →
        ((Step.after solve a).run later).seed = none := by
  intro a
  have settles : ∀ n, Rig.Settles layer (fun _ ↦ True)
      (Rig.Laid (α := α) (n := n) layer (fun _ ↦ True) none none false) :=
    fun _ ↦ Rig.settles_laid
  have own : Owns (fun _ ↦ True) o := fun _ _ _ _ ↦ .inl trivial
  have kept := run_kept settles own (run_kept settles own (kept_of_new settles made) before) between
  have rest := has_run Rig.keepsEngines_rest (has_of_new Rig.keepsEngines_rest made) before
  have joins := has_run Rig.keepsEngines_joins
    (has_run Rig.keepsEngines_joins (has_of_new Rig.keepsEngines_joins made) before) between
  have waits : a.seed = some p :=
    seed_run (S := fun s ↦ s = some p) rest waiting between unset fun v there plain ↦ by
      rw [spared v there] at plain
      cases plain
  refine ⟨waits, fun e plain ↦ ?_⟩
  have laid := plainEngine?_laid kept plain
  have taken : (Step.after solve a).TakesSeed p e :=
    (solve_takes (Option.map_eq_none_iff.1 laid.strategy) waits plain).after
  refine ⟨taken, fun fits ↦ ?_, fun later unset ↦ ?_⟩
  · have communicator := (plainEngine?_has Rig.keepsEngines_joins joins plain).2
    exact Engine.seeded_actsOnce exact direct (communicator ▸ hears) laid fits
  · have after := (has_solve Rig.keepsEngines_rest a
      (has_run Rig.keepsEngines_rest rest between)).after
    exact seed_run (S := fun s ↦ s = none) after taken.seed later unset
      fun _ _ _ _ some ↦ by cases some

/-- Two conductors, of which the first has a name. -/
structure NamedConductors where
  conductors : Conductors := { unknowns := 2, current := 1 }

instance NamedConductors.instDevice : Device NamedConductors ExtendedRat where
  unknowns c := Device.unknowns c.conductors
  loadResidual c x previous buffer :=
    let load := Device.loadResidual c.conductors x previous buffer
    ⟨load.ok, load.buffer, ⟨load.device⟩⟩
  loadJacobian c x previous buffer :=
    let load := Device.loadJacobian c.conductors x previous buffer
    ⟨load.ok, load.buffer, ⟨load.device⟩⟩
  unknown? _ name := if name = "v" then some 0 else none

/-- Options of plain Newton, but for a sweep, which starts with steps of a conductance to
reference. -/
def steppedSweep : SolverOptions ExtendedRat :=
  let standard : SolverOptions ExtendedRat := .standard
  { standard with
    dcSweep := { standard.dcSweep with
      continuation := { standard.dcSweep.continuation with
        solveType := .gminStepping
        gmin := { standard.dcSweep.continuation.gmin with start := 0, stop := -1 } } } }

-- What is said of the analysis is not to be compared by carrying out the history.
seal Ends in
/-- A seed on the first of two conductors waits while a sweep is started, and is taken by the solve
of an operating point, which ends after two iterations. -/
theorem seed_acts_once_conductors :
    let before : List (Request ExtendedRat) := [⟨_, .setSeed (.ofList [("v", 2.0)])⟩]
    let between : List (Request ExtendedRat) := [⟨_, .setMode .dcSweep⟩, ⟨_, .solve⟩,
      ⟨_, .setMode .dcOperatingPoint⟩, ⟨_, .setSolution #[2.0, 0]⟩]
    ∃ a₀ : Analysis (Journal NamedConductors ExtendedRat) ExtendedRat,
      new ⟨{}, []⟩ .serial steppedSweep = .ok a₀ ∧
      let a := (a₀.run before).run between
      ∃ p e, a.seed = some p ∧ a.plainEngine? = some e ∧
        (Step.after solve a).TakesSeed p e ∧ (e.engine.seeded p).ActsOnce p ∧
        ((Step.after solve a).run between).seed = none ∧
        (Step.after solve a).last.map Outcome.iterations = some 2 := by
  intro before between
  have unset : ∀ request ∈ between, request.2.setsSeed = false :=
    List.forall_mem_cons.2 ⟨rfl, List.forall_mem_cons.2 ⟨rfl, List.forall_mem_cons.2
      ⟨rfl, List.forall_mem_singleton.2 rfl⟩⟩⟩
  have ran : Yields (new ⟨{}, []⟩ .serial steppedSweep :
      Except Stop (Analysis (Journal NamedConductors ExtendedRat) ExtendedRat))
      fun a₀ ↦ let a := (a₀.run before).run between
        (a₀.run before).seed.isSome = true ∧
        (((a₀.run before).visits between).all fun v ↦ !v.solvesPlainly) = true ∧
        a.plainEngine?.isSome = true ∧
        a.seed.map Partition.bound = a.plainEngine?.map SizedEngine.unknowns ∧
        (Step.after solve a).last.map Outcome.iterations = some 2 := by
    decide +kernel
  obtain ⟨a₀, made, waiting, spared, plain, bounds, iterations⟩ := ran.exists
  obtain ⟨p, waiting⟩ := Option.isSome_iff_exists.1 waiting
  obtain ⟨e, plain⟩ := Option.isSome_iff_exists.1 plain
  have ⟨waits, acts⟩ := seed_acts_once (c := .serial) ExtendedRat.exact ExtendedRat.direct_exact rfl
    made before between waiting unset fun v there ↦ by simpa using List.all_eq_true.1 spared v there
  rw [waits, plain] at bounds
  obtain ⟨taken, once, later⟩ := acts e plain
  exact ⟨a₀, made, p, e, waits, plain, taken, once (Option.some.inj bounds), later between unset,
    iterations⟩

end Analysis

end OperatingPoint
