import OperatingPoint.Proofs.BenchCommands
import OperatingPoint.Proofs.Stages

/-!
# What every command of an analysis keeps, whatever is laid over the equations

A strategy is made of the same few things as the commands to a track of a bench: moves, shifts,
computations and whole programs.  So a property of rigs that survives these survives a solve by any
strategy, however it ends.  `Analysis.KeepsEngines` adds what else an analysis does to its engine:
it changes the previous point, and it starts afresh when the mode changes.

Where `Rig.Settles` is about what a solve leaves behind, nothing has to be known of the overlay
here, and the property need not hold of a rig at which nothing is computed.
-/

set_option autoImplicit false

namespace OperatingPoint

open Step

variable {δ α : Type} [Scalar α] [DirectSolver α] [Device δ α] {n : Nat} {β : Type}

omit [DirectSolver α] [Device δ α] in
theorem Track.setParameters_shifts (list : List (Sweep α)) (t : Track α n) :
    t.Shifts (list.foldl (fun t sweep ↦ t.setParameter sweep.name sweep.start) t) := by
  induction list generalizing t with
  | nil => exact .refl t
  | cons sweep rest ih => exact (t.setParameter_shifts _ _).trans (ih _)

omit [DirectSolver α] [Device δ α] in
theorem Track.attachBlend_shifts (t : Track α n) (b : Blend α) : t.Shifts (t.attachBlend b) :=
  .of_invalidate rfl rfl

/-! ## Strategies -/

namespace Drive

variable {ctx : ContinuationContext α} {I : Rig δ α n → Prop} {S : Option Partition → Prop}

/-- A step of a drive that keeps a property of its rig and one of the seed that is waiting. -/
abbrev Keeps (I : Rig δ α n → Prop) (S : Option Partition → Prop) (act : Step (Drive δ α n) β) :
    Prop :=
  Preserves act fun d ↦ I d.engine.rig ∧ S d.seed

omit [Device δ α] in
theorem keeps_onEngine {act : Step (Engine δ α n) β} (h : Preserves act fun e ↦ I e.rig) :
    Keeps I S (onEngine act) :=
  .zoom h (fun _ h ↦ h.1) fun _ _ h h' ↦ ⟨h', h.2⟩

variable (keeps : Rig.KeepsCommands I)
include keeps

theorem keeps_modifyTrack {change : Track α n → Track α n}
    (shifts : ∀ t : Track α n, t.Shifts (change t)) : Keeps I S (modifyTrack change) :=
  keeps_onEngine fun _ h ↦ keeps.shift h (shifts _)

theorem keeps_attach (a : Augmentation α) : Keeps I S (attach a) := by
  intro d h
  rw [ends_attach]
  exact ⟨fun t attached ↦ ⟨keeps.shift h.1 (Track.attach_shifts attached), h.2⟩, fun _ _ ↦ h⟩

theorem keeps_impose (c : Clamp α) : Keeps I S (impose c) := by
  intro d h
  rw [ends_impose]
  exact ⟨fun x _ ↦ ⟨keeps.move h.1 x, h.2⟩, fun _ _ ↦ h⟩

omit [Device δ α] keeps in
theorem keeps_conclude (report : ContinuationReport α) :
    Keeps I S (conclude report : Step (Drive δ α n) Int) := by
  intro d h
  rw [ends_conclude]
  exact h

theorem keeps_solveNewton : Keeps I S solveNewton := by
  refine .bind (keeps_onEngine fun e h ↦ ?_) fun _ ↦ .bind (.modify fun _ h ↦ h) fun _ ↦ .pure _
  exact (Engine.solve_keeps keeps.toKeeps h).mono (fun _ _ kept ↦ kept.arrives.keeps)
    fun _ _ halted ↦ halted.2.keeps

theorem keeps_solveUnder (a : Augmentation α) : Keeps I S (solveUnder a) :=
  .bind (keeps_attach keeps a) fun _ ↦ .bind (.attempt (keeps_solveNewton keeps)) fun _ ↦
    .bind (keeps_modifyTrack keeps fun t ↦ t.detach_shifts) fun _ ↦ .lift _

/-- Newton's iteration takes the seed that is waiting, unless initial conditions are clamped. -/
theorem keeps_newton {options : ModeOptions α}
    (takes : clamp? options ctx = .ok none → ∀ p, S (some p) → S none) :
    Keeps I S (newton options ctx) := by
  intro d h
  unfold newton
  rw [ends_bind, ends_orFault]
  refine ⟨fun clamp chosen ↦ ?_, fun _ _ ↦ h⟩
  cases clamp with
  | some clamp =>
    have clamped : Keeps I S (impose clamp >>= fun _ ↦ solveUnder (.clamp clamp)) :=
      .bind (keeps_impose keeps clamp) fun _ ↦ keeps_solveUnder keeps _
    exact clamped d h
  | none =>
    rw [ends_bind, ends_get]
    cases waiting : d.seed with
    | some p =>
      rw [ends_bind, ends_modify]
      exact keeps_solveUnder keeps _ _ ⟨h.1, takes chosen p (waiting ▸ h.2)⟩
    | none => exact keeps_solveNewton keeps d h

theorem keeps_run_stepper (s : Stepper α) : Preserves s.run fun e ↦ I e.rig := by
  intro e h
  have forwarding := keeps.shift h (e.rig.track.setForwarding_shifts true)
  exact (Stepper.run_keeps keeps.toKeepsSteps forwarding).mono (fun _ _ kept ↦ kept.keeps)
    fun _ _ halted ↦ halted.2.keeps

theorem keeps_runPhases (code : Int) (list : List (List (Sweep α))) :
    Keeps I S (runPhases ctx code list) := by
  induction list generalizing code with
  | nil => exact .pure _
  | cons phase phases ih =>
    cases phase with
    | nil => exact ih code
    | cons lead rest =>
      refine .bind (.orFault _) fun coupled ↦ .bind (.orFault _) fun stop ↦
        .bind (keeps_onEngine (keeps_run_stepper keeps _)) fun report ↦
        .bind (keeps_conclude report) fun code ↦ .ite (.pure _) (ih code)

theorem keeps_restoreEnds (list : List (Sweep α)) : Keeps I S (restoreEnds ctx list) := by
  induction list with
  | nil => exact .pure _
  | cons sweep rest ih =>
    refine .bind (.orFault _) fun stop ↦ .bind (keeps_onEngine ?_) fun _ ↦ ih
    exact .zoom (keeps.preserves_push sweep.name stop) (fun _ h ↦ h) fun _ _ _ h ↦ h

theorem keeps_phases (list : List (List (Sweep α))) : Keeps I S (phases ctx list) := by
  refine .bind (keeps_modifyTrack keeps (Track.setParameters_shifts _)) fun _ ↦
    .bind (keeps_modifyTrack keeps fun t ↦ t.setForwarding_shifts true) fun _ ↦
    .bind (.attempt (keeps_runPhases keeps _ list)) fun result ↦
    .bind (keeps_modifyTrack keeps fun t ↦ t.setForwarding_shifts false) fun _ ↦ ?_
  cases result with
  | ok code =>
    exact .ite (.pure _) (.bind (keeps_restoreEnds keeps _) fun _ ↦ .pure _)
  | error stop =>
    exact .bind (.attempt (keeps_restoreEnds keeps _)) fun _ ↦ .throw stop

theorem keeps_runStepper (s : Stepper α) {cleanUp : Track α n → Track α n}
    (shifts : ∀ t : Track α n, t.Shifts (cleanUp t)) : Keeps I S (runStepper s cleanUp) :=
  .bind (.attempt (keeps_onEngine (keeps_run_stepper keeps s))) fun _ ↦
    .bind (keeps_modifyTrack keeps fun t ↦ (t.setForwarding_shifts false).trans (shifts _)) fun _ ↦
    .bind (.lift _) fun report ↦ keeps_conclude report

theorem keeps_layConductance (options : ModeOptions α) (ctx : ContinuationContext α) :
    Keeps I S (layConductance options ctx) := by
  have forwarded : Keeps I S (modifyTrack fun t ↦ t.setForwarding true) :=
    keeps_modifyTrack keeps fun t ↦ t.setForwarding_shifts true
  refine .bind (.orFault _) fun clamp ↦ ?_
  cases clamp with
  | some clamp =>
    exact .bind (keeps_impose keeps clamp) fun _ ↦ .bind (keeps_attach keeps _) fun _ ↦ forwarded
  | none => exact .bind (keeps_attach keeps _) fun _ ↦ forwarded

omit [DirectSolver α] [Device δ α] keeps in
/-- What is taken off after stepping of a conductance. -/
theorem offConductance_shifts (t : Track α n) :
    t.Shifts (t.removeParameter Parameters.progressName).detach :=
  (t.removeParameter_shifts _).trans (Track.detach_shifts _)

omit [DirectSolver α] [Device δ α] keeps in
/-- What is taken off after a homotopy. -/
theorem offBlend_shifts (t : Track α n) :
    t.Shifts (t.removeParameter Parameters.blendName).detachBlend :=
  (t.removeParameter_shifts _).trans (Track.detachBlend_shifts _)

theorem keeps_gmin (options : ModeOptions α) (ctx : ContinuationContext α) :
    Keeps I S (gmin options ctx) := by
  rw [gmin_eq]
  exact .bind (keeps_layConductance keeps options ctx) fun _ ↦
    keeps_runStepper keeps _ offConductance_shifts

theorem keeps_pseudoTransient (options : ModeOptions α) (ctx : ContinuationContext α) :
    Keeps I S (pseudoTransient options ctx) := by
  have marched : Keeps I S
      (onEngine (Engine.onRig (March.run options.continuation.pseudoTransient))) :=
    keeps_onEngine (.zoom (March.guards_run keeps.toKeepsMarch _).preserves (fun _ h ↦ h)
      fun _ _ _ h ↦ h)
  exact .bind (.lift _) fun term ↦ .bind (keeps_attach keeps _) fun _ ↦
    .bind (.attempt marched) fun _ ↦
    .bind (keeps_modifyTrack keeps fun t ↦ t.detach_shifts) fun _ ↦
    .bind (.lift _) fun report ↦ .ite (.pure _) (keeps_solveNewton keeps)

theorem keeps_homotopy (options : ModeOptions α) (ctx : ContinuationContext α) :
    Keeps I S (homotopy options ctx) :=
  .bind (.orFault _) fun _ ↦
    .bind (keeps_modifyTrack keeps fun t ↦ t.attachBlend_shifts _) fun _ ↦
    keeps_runStepper keeps _ offBlend_shifts

/-- A solve by any strategy. -/
theorem keeps_run {options : ModeOptions α} {solveType : SolveType}
    (takes : solveType = .newton → clamp? options ctx = .ok none → ∀ p, S (some p) → S none) :
    Keeps I S (run options ctx solveType) := by
  intro d h
  unfold run
  rw [ends_bind, ends_orFault]
  refine ⟨fun list chosen ↦ ?_, fun _ _ ↦ h⟩
  cases list with
  | some list => exact keeps_phases keeps list d h
  | none =>
    rcases cases_of_unphased chosen with rfl | rfl | rfl | rfl
    · exact keeps_newton keeps (takes rfl) d h
    · exact keeps_gmin keeps options ctx d h
    · exact keeps_pseudoTransient keeps options ctx d h
    · exact keeps_homotopy keeps options ctx d h

end Drive

/-! ## Analyses -/

namespace Analysis

/-- A property of rigs that survives whatever an analysis does to its engine, with the communicator
that the analysis has. -/
structure KeepsEngines (c : Communicator α) (I : (n : Nat) → Rig δ α n → Prop) : Prop where
  rig : ∀ n, Rig.KeepsCommands (I n)
  /-- The previous point changes, and nothing is known any more. -/
  previous : ∀ {n} {r : Rig δ α n}, I n r → ∀ x,
    I n { store := r.store.setPrevious x, track := r.track.invalidate }
  /-- An engine starts afresh. -/
  afresh : ∀ {n} {s : Store δ α n}, s.Paired → s.communicator = c → ∀ {it : Iterate α n},
    it.flags = {} → I n ⟨s, { iterate := it }⟩

/-- The rig of the engine, if there is one, has a property. -/
structure Has (c : Communicator α) (I : (n : Nat) → Rig δ α n → Prop) (a : Analysis δ α) :
    Prop where
  communicator : a.communicator = c
  engine : ∀ e, a.engine = some e → I e.unknowns e.engine.rig

variable {a a' a₀ : Analysis δ α} {I : (n : Nat) → Rig δ α n → Prop} {device : δ}
  {c : Communicator α} {o : SolverOptions α} {mode : Mode}

omit [Device δ α] in
/-- A change of what an analysis remembers. -/
theorem Has.of_same (h : a.Has c I) (communicator : a'.communicator = a.communicator)
    (engine : a'.engine = a.engine) : a'.Has c I where
  communicator := communicator.trans h.communicator
  engine e there := h.engine e (engine.symm.trans there)

omit [Device δ α] in
theorem has_engine {e : SizedEngine δ α} (communicator : a.communicator = c)
    (h : I e.unknowns e.engine.rig) (there : a.engine = some e) : a.Has c I where
  communicator := communicator
  engine e' same := by
    obtain rfl := Option.some.inj (there.symm.trans same)
    exact h

omit [Device δ α] in
theorem has_onEngine {act : {n : Nat} → Step (Engine δ α n) β}
    (keeps : ∀ {n : Nat}, Preserves (act : Step (Engine δ α n) β) fun e ↦ I n e.rig) :
    Preserves (onEngine act) (Has c I) := by
  intro a h
  refine ends_onEngine (fun e there ↦ ?_) fun _ ↦ h
  exact (keeps e.engine (h.engine e there)).mono
    (fun _ _ kept ↦ has_engine h.communicator kept rfl)
    fun _ _ kept ↦ has_engine h.communicator kept rfl

theorem has_of_new (keeps : KeepsEngines c I) (made : new device c o = .ok a₀) : a₀.Has c I := by
  obtain ⟨e, built, same⟩ := bind_eq_ok.1 made
  obtain ⟨store, stored, built⟩ := bind_eq_ok.1 built
  obtain ⟨_, _, stored⟩ := bind_eq_ok.1 stored
  cases stored
  cases built
  cases same
  refine has_engine rfl ?_ rfl
  apply keeps.afresh <;> rfl

variable (keeps : KeepsEngines c I)
include keeps

theorem has_ensureBuilt : Preserves ensureBuilt (Has c I) := by
  intro a h
  refine .of_result (ensureBuilt_run a) ?_ ?_
  · intro _ a' run
    cases run with
    | built => exact h
    | rebuilt outmoded there made =>
      obtain ⟨_, _, made⟩ := bind_eq_ok.1 made
      obtain ⟨x, _, made⟩ := bind_eq_ok.1 made
      obtain ⟨previous, _, made⟩ := bind_eq_ok.1 made
      cases made
      refine has_engine h.communicator ?_ rfl
      refine keeps.afresh (.setPrevious previous) ?_ rfl
      exact h.communicator
  · intro stop a' run
    cases run with
    | lost => exact h
    | refused => exact ⟨h.communicator, fun e lost ↦ by cases lost⟩

omit keeps in
theorem has_ensureContext : Preserves ensureContext (Has (δ := δ) c I) := by
  intro a h
  refine .of_result (ensureContext_run a) ?_ ?_
  · intro ctx a' run
    cases run with
    | known => exact h
    | read => exact h.of_same rfl rfl
  · intro stop a' run
    cases run with
    | lost => exact h
    | refused => exact h

theorem has_solve : Preserves solve (Has c I) := by
  intro a h
  refine ends_solve_of (((has_ensureBuilt keeps).bind (fun _ ↦ has_ensureContext) a h).mono ?_
    fun _ _ kept ↦ kept)
  intro ctx a₁ h
  refine ⟨fun _ ↦ h.of_same rfl rfl, fun e there ↦ ?_⟩
  exact (Drive.keeps_run (S := fun _ ↦ True) (keeps.rig _) (fun _ _ _ _ ↦ trivial) _
    ⟨h.engine e there, trivial⟩).mono
    (fun _ _ kept ↦ has_engine h.communicator kept.1 rfl)
    fun _ _ kept ↦ has_engine h.communicator kept.1 rfl

theorem has_step : Preserves step (Has c I) := by
  refine .bind (has_ensureBuilt keeps) fun _ ↦ .bind (has_onEngine ?_) fun result ↦
    .bind (.modify fun _ h ↦ h.of_same rfl rfl) fun _ ↦ .pure _
  intro n
  have advanced : Preserves (do
      let status ← Engine.advance
      return (status, (← get).newton.outcome) : Step (Engine δ α n) _) fun e ↦ I n e.rig := by
    refine .bind (fun e h ↦ ?_) fun status ↦ .bind .get fun _ ↦ .pure _
    exact (Engine.advance_keeps (keeps.rig n).toKeeps h).mono (fun _ _ kept ↦ kept.keeps)
      fun _ _ halted ↦ halted.1.keeps
  exact .bind .get fun e ↦ .ite (.bind (.modify fun _ h ↦ h) fun _ ↦ advanced) advanced

theorem has_ensureJacobian {n : Nat} :
    Preserves (ensureJacobian : Step (Engine δ α n) Unit) fun e ↦ I n e.rig := by
  have computed : Preserves (Engine.onRig Rig.computeJacobian : Step (Engine δ α n) Bool)
      fun e ↦ I n e.rig :=
    .zoom (keeps.rig n).preserves_jacobian (fun _ h ↦ h) fun _ _ _ h ↦ h
  exact .bind computed fun _ ↦ .ite (.pure _) (.throw _)

/-- Every command keeps the property, however it ends. -/
theorem has_perform (command : Command α β) : Preserves (perform command) (Has c I) := by
  cases command with
  | solve => exact has_solve keeps
  | step => exact has_step keeps
  | setMode => exact .modify fun _ h ↦ h.of_same rfl rfl
  | resetSession => exact .modify fun _ h ↦ h.of_same rfl rfl
  | setTimePoint => exact .modify fun _ h ↦ h.of_same rfl rfl
  | setInitialConditions conditions =>
    refine .bind .get fun a ↦ ?_
    split
    · exact .bind (.orFault _) fun _ ↦ .modify fun _ h ↦ h.of_same rfl rfl
    · exact .modify fun _ h ↦ h.of_same rfl rfl
  | setSeed seed =>
    refine .bind (has_onEngine ?_) fun partition ↦ .modify fun _ h ↦ h.of_same rfl rfl
    exact .bind .get fun e ↦ .bind (.orFault _) fun _ ↦ .bind (.lift _) fun x ↦
      .bind (fun _ h ↦ (keeps.rig _).move h x) fun _ ↦ .pure _
  | setSolution x =>
    rw [perform]
    exact has_onEngine (.bind (.orFault _) fun x _ h ↦ (keeps.rig _).move h x)
  | setPrevious x =>
    rw [perform]
    exact has_onEngine (.bind (.orFault _) fun x _ h ↦ keeps.previous h x)
  | applyJacobian v length =>
    refine .bind (.lift _) fun _ ↦ has_onEngine (.bind (has_ensureJacobian keeps) fun _ ↦ ?_)
    exact .bind .get fun _ ↦ .bind (.orFault _) fun _ ↦ .pure _
  | applyTranspose v length =>
    refine .bind (.lift _) fun _ ↦ has_onEngine (.bind (has_ensureJacobian keeps) fun _ ↦ ?_)
    exact .bind .get fun _ ↦ .bind (.orFault _) fun _ ↦ .pure _

/-- Wherever a history leads, the property holds. -/
theorem has_run (h : a.Has c I) (history : List (Request α)) : (a.run history).Has c I := by
  induction history generalizing a with
  | nil => exact h
  | cons request rest ih => exact ih (has_perform keeps request.2 a h).after

end Analysis

end OperatingPoint
