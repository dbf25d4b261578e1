import OperatingPoint.Analysis.Command
import OperatingPoint.Proofs.SettledRun

/-!
# What all the commands of an analysis keep

A property of rigs that strategies settle is kept by every command of an analysis, whether or not it
stops, and so it holds wherever a history leads.  Building the engine anew starts from nothing; the
other commands move the iterate, compute, or carry out a solve.

Along with the property it is known what the Newton driver is set up for, and that a solve does not
attach a strategy on top of another.
-/

set_option autoImplicit false

namespace OperatingPoint

open Step

variable {δ α : Type} [Scalar α] [DirectSolver α] [Device δ α] {n : Nat} {layer : δ}
  {N : String → Prop} {c : Communicator α} {o : SolverOptions α} {mode : Mode}

/-! ## Engines between two commands -/

/-- An engine between two commands that was built for a mode, with a property of its rig. -/
structure Engine.Fits (I : Rig δ α n → Prop) (c : Communicator α) (o : SolverOptions α)
    (mode : Mode) (e : Engine δ α n) : Prop where
  keeps : I e.rig
  alike : (Analysis.newtonFor c o mode).battery.Alike e.newton.battery

namespace Engine

variable {I : Rig δ α n → Prop}

theorem preserves_setX (settles : Rig.Settles layer N I) (x : Vector α n) :
    Preserves (modifyTrack fun t ↦ t.setX x : Step (Engine δ α n) Unit) (Fits I c o mode) :=
  fun _ h ↦ ⟨settles.move h.keeps x, h.alike⟩

theorem preserves_ensureJacobian (settles : Rig.Settles layer N I) :
    Preserves (Analysis.ensureJacobian : Step (Engine δ α n) Unit) (Fits I c o mode) := by
  intro e h
  unfold Analysis.ensureJacobian
  simp only [ends_bind, ends_onRig, ends_ite, ends_pure, ends_fault]
  refine (settles.jacobian h.keeps).mono ?_ fun _ r kept ↦ ⟨kept.2, h.alike⟩
  exact fun _ r kept ↦ ⟨fun _ ↦ ⟨kept, h.alike⟩, fun _ ↦ ⟨kept, h.alike⟩⟩

/-- An iteration on its own. -/
theorem preserves_advance (settles : Rig.Settles layer N I) :
    Preserves (advance : Step (Engine δ α n) Status) (Fits I c o mode) := by
  intro e h
  refine (advance_keeps settles.toKeeps h.keeps).mono ?_ ?_
  · exact fun _ e' advanced ↦ ⟨advanced.keeps, h.alike.trans advanced.alike⟩
  · exact fun _ e' halted ↦ ⟨halted.1.keeps, h.alike.trans halted.1.alike⟩

/-- The previous point changes, and nothing is computed any more. -/
theorem fits_setPrevious (settles : Rig.Settles layer N I) {e : Engine δ α n}
    (h : e.Fits I c o mode) (x : Vector α n) :
    ({ e with rig := { store := e.rig.store.setPrevious x, track := e.rig.track.invalidate } } :
      Engine δ α n).Fits I c o mode := by
  have laid := settles.laid h.keeps
  refine ⟨settles.blank ⟨laid.of_lays ?_ rfl, rfl⟩, h.alike⟩
  exact ⟨⟨.setPrevious x, .of_fresh rfl⟩, laid.holds, laid.names, laid.strategy, laid.blend,
    laid.forwarding⟩

/-- At a store from which nothing has been computed. -/
theorem fits_of_new (settles : Rig.Settles layer N I) {s : Store δ α n} {it : Iterate α n}
    (paired : s.Paired) (fresh : it.flags = {}) (reached : Device.Reaches layer s.device) :
    (⟨⟨s, { iterate := it }⟩, Analysis.newtonFor c o mode⟩ : Engine δ α n).Fits I c o mode := by
  refine ⟨settles.blank ⟨⟨?_, nofun⟩, fresh⟩, .refl _⟩
  exact ⟨⟨paired, .of_fresh fresh⟩, reached, List.nodup_nil, rfl, rfl, rfl⟩

end Engine

/-! ## Analyses between two commands -/

namespace Analysis

/-- A command, with the type of its answer. -/
abbrev Request (α : Type) := (β : Type) × Command α β

/-- Carries out a history: each command where the one before it has ended, whether or not it has
stopped. -/
def run (a : Analysis δ α) (history : List (Request α)) : Analysis δ α :=
  history.foldl (fun a request ↦ Step.after (perform request.2) a) a

/-- Whatever a strategy steps in some mode has a name in `N`, if the strategy does not take it
back. -/
def Owns (N : String → Prop) (o : SolverOptions α) : Prop :=
  ∀ mode solveType, ∀ sweep ∈ Drive.stepped (o.ofMode mode).continuation solveType,
    N sweep.name ∨ Drive.TakesBack solveType sweep.name

variable {a a₀ a' : Analysis δ α} {I : (n : Nat) → Rig δ α n → Prop}

/-- An analysis between two commands.  Its engine, if it is there, was built for the mode that is
noted. -/
structure Kept (I : (n : Nat) → Rig δ α n → Prop) (c : Communicator α) (o : SolverOptions α)
    (a : Analysis δ α) : Prop where
  communicator : a.communicator = c
  options : a.options = o
  engine : ∀ e, a.engine = some e →
    ∃ mode, a.session.builtMode = some mode ∧ e.engine.Fits (I e.unknowns) c o mode

/-- An analysis that is prepared for a solve: its engine is the one for its mode. -/
structure Prepared (I : (n : Nat) → Rig δ α n → Prop) (c : Communicator α) (o : SolverOptions α)
    (a : Analysis δ α) : Prop extends a.Kept I c o where
  fits : a.session.builtMode = some a.session.mode

omit [Device δ α] in
/-- A change of what an analysis remembers. -/
theorem Kept.of_same (h : a.Kept I c o) (communicator' : a'.communicator = a.communicator)
    (options' : a'.options = a.options) (engine : a'.engine = a.engine)
    (builtMode : a'.session.builtMode = a.session.builtMode) : a'.Kept I c o where
  communicator := communicator'.trans h.communicator
  options := options'.trans h.options
  engine := by
    rw [engine, builtMode]
    exact h.engine

omit [Device δ α] in
/-- Another engine for the same mode. -/
theorem Kept.withEngine (h : a.Kept I c o) {e : Engine δ α n}
    (builtMode : a.session.builtMode = some mode) (fits : e.Fits (I n) c o mode) :
    ({ a with engine := some ⟨n, e⟩ } : Analysis δ α).Kept I c o := by
  refine ⟨h.communicator, h.options, fun e' same ↦ ?_⟩
  obtain rfl := Option.some.inj same
  exact ⟨mode, builtMode, fits⟩

omit [Device δ α] in
theorem Prepared.engine_fits (h : a.Prepared I c o) {e : SizedEngine δ α}
    (there : a.engine = some e) : e.engine.Fits (I e.unknowns) c o a.session.mode := by
  obtain ⟨mode, noted, fits⟩ := h.engine e there
  obtain rfl : a.session.mode = mode := Option.some.inj (h.fits.symm.trans noted)
  exact fits

/-! ## What building and reading can come to -/

/-- What making sure of the engine can come to. -/
inductive BuildRun (a : Analysis δ α) : EStateM.Result Stop (Analysis δ α) Unit → Prop
  /-- It is the one for the mode already. -/
  | built (same : a.session.builtMode = some a.session.mode) : BuildRun a (.ok () a)
  | lost (outmoded : a.session.builtMode ≠ some a.session.mode) (lost : a.engine = none) :
    BuildRun a (.error (.fault (.config .tornDown)) a)
  | rebuilt (outmoded : a.session.builtMode ≠ some a.session.mode) {e e' : SizedEngine δ α}
    (there : a.engine = some e)
    (made : engineAt e.engine.rig.store.device a.communicator a.options a.session.mode
      e.engine.iterate.x.toArray e.engine.rig.store.previous.toArray = .ok e') :
    BuildRun a (.ok () { a with
      engine := some e'
      session := { a.session with
        builtMode := some a.session.mode
        rebuilds := a.session.rebuilds + 1 } })
  /-- The engine that was there is lost. -/
  | refused (outmoded : a.session.builtMode ≠ some a.session.mode) {e : SizedEngine δ α}
    {stop : Stop} (there : a.engine = some e)
    (made : engineAt e.engine.rig.store.device a.communicator a.options a.session.mode
      e.engine.iterate.x.toArray e.engine.rig.store.previous.toArray = .error stop) :
    BuildRun a (.error stop { a with engine := none })

theorem ensureBuilt_run (a : Analysis δ α) : BuildRun a (ensureBuilt a) := by
  refine Ends.result ?_
  unfold ensureBuilt
  simp only [ends_bind, ends_get, ends_ite, ends_pure]
  refine ⟨fun outmoded ↦ ?_, fun same ↦ .built (Decidable.not_not.1 same)⟩
  split
  · rename_i lost
    exact .lost outmoded lost
  · rename_i e there
    simp only [ends_bind, ends_set, ends_lift]
    exact ⟨fun _ made ↦ .rebuilt outmoded there made, fun _ made ↦ .refused outmoded there made⟩

/-- What making sure of the context can come to. -/
inductive ContextRun (a : Analysis δ α) :
    EStateM.Result Stop (Analysis δ α) (ContinuationContext α) → Prop
  | known {ctx : ContinuationContext α} (known : a.context = some ctx) : ContextRun a (.ok ctx a)
  | lost (unread : a.context = none) (lost : a.engine = none) :
    ContextRun a (.error (.fault (.config .tornDown)) a)
  | read (unread : a.context = none) {e : SizedEngine δ α} {ctx : ContinuationContext α}
    (there : a.engine = some e)
    (read : ContinuationContext.build e.engine.rig.store.device
      [a.options.dcOp, a.options.dcSweep, a.options.transient] a.conditions = .ok ctx) :
    ContextRun a (.ok ctx { a with
      context := some ctx
      session := { a.session with contextRead := true } })
  | refused (unread : a.context = none) {e : SizedEngine δ α} {stop : Stop}
    (there : a.engine = some e)
    (read : ContinuationContext.build e.engine.rig.store.device
      [a.options.dcOp, a.options.dcSweep, a.options.transient] a.conditions = .error stop) :
    ContextRun a (.error stop a)

theorem ensureContext_run (a : Analysis δ α) : ContextRun a (ensureContext a) := by
  refine Ends.result ?_
  unfold ensureContext
  simp only [ends_bind, ends_get]
  split
  · rename_i ctx known
    exact .known known
  · rename_i unread
    split
    · rename_i lost
      exact .lost unread lost
    · rename_i e there
      simp only [ends_bind, ends_lift, ends_set, ends_pure]
      exact ⟨fun _ read ↦ .read unread there read, fun _ read ↦ .refused unread there read⟩

omit [Device δ α] in
theorem ends_onEngine {β : Type} {act : {n : Nat} → Step (Engine δ α n) β}
    {done : β → Analysis δ α → Prop} {stopped : Stop → Analysis δ α → Prop}
    (there : ∀ e, a.engine = some e → Ends act e.engine
      (fun b e' ↦ done b { a with engine := some ⟨e.unknowns, e'⟩ })
      (fun stop e' ↦ stopped stop { a with engine := some ⟨e.unknowns, e'⟩ }))
    (lost : a.engine = none → stopped (.fault (.config .tornDown)) a) :
    Ends (onEngine act) a done stopped := by
  unfold Ends onEngine
  cases found : a.engine with
  | none => exact lost found
  | some e =>
    have ends := there e found
    unfold Ends at ends
    dsimp only
    cases run : act e.engine with
    | ok b e' =>
      rw [run] at ends
      exact ends
    | error stop e' =>
      rw [run] at ends
      exact ends

omit [Device δ α] in
theorem onEngine_preserves {β : Type} {act : {n : Nat} → Step (Engine δ α n) β}
    (keeps : ∀ {n : Nat} {mode : Mode},
      Preserves (act : Step (Engine δ α n) β) (Engine.Fits (I n) c o mode)) :
    Preserves (onEngine act) (Kept I c o) := by
  intro a h
  refine ends_onEngine (fun e there ↦ ?_) fun _ ↦ h
  obtain ⟨mode, built, fits⟩ := h.engine e there
  exact (keeps e.engine fits).mono (fun _ _ fits' ↦ h.withEngine built fits')
    fun _ _ fits' ↦ h.withEngine built fits'

/-! ## One command -/

theorem setInitialConditions_preserves (conditions : InitialConditions α) :
    Preserves (setInitialConditions conditions) (Kept (δ := δ) I c o) := by
  refine .bind .get fun a ↦ ?_
  split
  · exact .bind (.orFault _) fun _ ↦ .modify fun a h ↦ h.of_same rfl rfl rfl rfl
  · exact .modify fun a h ↦ h.of_same rfl rfl rfl rfl

section

variable (settles : ∀ n, Rig.Settles layer N (I n))
include settles

theorem setSeed_preserves (seed : InitialConditions α) : Preserves (setSeed seed) (Kept I c o) := by
  refine .bind (onEngine_preserves ?_) fun partition ↦
    .modify fun a h ↦ h.of_same rfl rfl rfl rfl
  exact .bind .get fun e ↦ .bind (.orFault _) fun _ ↦ .bind (.lift _) fun x ↦
    .bind (Engine.preserves_setX (settles _) x) fun _ ↦ .pure _

theorem setSolution_preserves (x : Array α) : Preserves (setSolution x) (Kept I c o) :=
  onEngine_preserves (.bind (.orFault _) (Engine.preserves_setX (settles _)))

theorem setPrevious_preserves (x : Array α) : Preserves (setPrevious x) (Kept I c o) :=
  onEngine_preserves (.bind (.orFault _) fun previous ↦ .modify fun _ h ↦
    Engine.fits_setPrevious (settles _) h previous)

theorem applyJacobian_preserves (v : Array α) (length : Nat) :
    Preserves (applyJacobian v length) (Kept I c o) :=
  onEngine_preserves (.bind (Engine.preserves_ensureJacobian (settles _)) fun _ ↦
    .bind .get fun _ ↦ .bind (.orFault _) fun _ ↦ .pure _)

theorem applyTranspose_preserves (v : Array α) (length : Nat) :
    Preserves (applyTranspose v length) (Kept I c o) :=
  onEngine_preserves (.bind (Engine.preserves_ensureJacobian (settles _)) fun _ ↦
    .bind .get fun _ ↦ .bind (.orFault _) fun _ ↦ .pure _)

/-- An engine that is built at a solution starts afresh. -/
theorem fits_of_engineAt {device : δ} (reached : Device.Reaches layer device)
    {x previous : Array α} {e : SizedEngine δ α}
    (built : engineAt device c o mode x previous = .ok e) :
    e.engine.Fits (I e.unknowns) c o mode := by
  obtain ⟨_, _, built⟩ := bind_eq_ok.1 built
  obtain ⟨x', _, built⟩ := bind_eq_ok.1 built
  obtain ⟨previous', _, built⟩ := bind_eq_ok.1 built
  cases built
  exact Engine.fits_of_new (settles _) (.setPrevious previous') rfl reached

theorem fits_of_engineAtZero {e : SizedEngine δ α}
    (built : engineAtZero layer c o mode = .ok e) : e.engine.Fits (I e.unknowns) c o mode := by
  obtain ⟨store, made, built⟩ := bind_eq_ok.1 built
  obtain ⟨_, _, same⟩ := bind_eq_ok.1 made
  cases same
  cases built
  exact Engine.fits_of_new (settles _) rfl rfl .refl

theorem kept_of_new (made : new layer c o = .ok a₀) : a₀.Kept I c o := by
  obtain ⟨e, built, same⟩ := bind_eq_ok.1 made
  cases same
  refine ⟨rfl, rfl, fun e' there ↦ ⟨_, rfl, ?_⟩⟩
  obtain rfl := Option.some.inj there
  exact fits_of_engineAtZero settles built

omit settles in
theorem engineAt_routine (device : δ) (x previous : Array α) :
    StopsOnly Stop.Routine (engineAt device c o mode x previous) :=
  .bind (reserve_routine _) fun _ _ ↦ .bind (.ofFault (Store.sized_routine x)) fun _ _ ↦
    .bind (.ofFault (Store.sized_routine previous)) fun _ _ ↦ .ok _

theorem ensureBuilt_keeps (h : a.Kept I c o) :
    Ends ensureBuilt a (fun _ a' ↦ a'.Prepared I c o ∧ a'.seed = a.seed)
      (fun stop a' ↦ stop.Routine ∧ a'.Kept I c o) := by
  refine .of_result (ensureBuilt_run a) ?_ ?_
  · intro _ a' run
    cases run with
    | built same => exact ⟨⟨h, same⟩, rfl⟩
    | rebuilt outmoded there made =>
      refine ⟨⟨⟨h.communicator, h.options, fun e' same ↦ ?_⟩, rfl⟩, rfl⟩
      obtain rfl := Option.some.inj same
      rw [h.communicator, h.options] at made
      obtain ⟨_, -, fits⟩ := h.engine _ there
      exact ⟨a.session.mode, rfl, fits_of_engineAt settles ((settles _).laid fits.keeps).holds made⟩
  · intro stop a' run
    cases run with
    | lost => exact ⟨trivial, h⟩
    | refused outmoded there made =>
      exact ⟨engineAt_routine _ _ _ stop made, h.communicator, h.options, fun e' same ↦ by cases same⟩

omit settles in
theorem ensureContext_keeps (h : a.Prepared I c o) :
    Ends ensureContext a
      (fun ctx a' ↦ a'.Prepared I c o ∧ a'.context = some ctx ∧ a'.seed = a.seed)
      (fun stop a' ↦ stop.Routine ∧ a'.Kept I c o) := by
  refine .of_result (ensureContext_run a) ?_ ?_
  · intro ctx a' run
    cases run with
    | known known => exact ⟨h, known, rfl⟩
    | read => exact ⟨⟨h.toKept.of_same rfl rfl rfl rfl, h.fits⟩, rfl, rfl⟩
  · intro stop a' run
    cases run with
    | lost => exact ⟨trivial, h.toKept⟩
    | refused unread there read =>
      exact ⟨ContinuationContext.build_routine _ _ _ stop read, h.toKept⟩

theorem step_preserves : Preserves step (Kept I c o) := by
  have built : Preserves ensureBuilt (Kept I c o) := fun a h ↦
    (ensureBuilt_keeps settles h).mono (fun _ a' run ↦ run.1.toKept) fun _ a' stopped ↦ stopped.2
  refine .bind built fun _ ↦ .bind (onEngine_preserves ?_) fun result ↦
    .bind (.modify fun a h ↦ h.of_same rfl rfl rfl rfl) fun _ ↦ .pure _
  intro n mode
  have advanced : Preserves (do
      let status ← Engine.advance
      return (status, (← get).newton.outcome) : Step (Engine δ α n) _)
      (Engine.Fits (I n) c o mode) :=
    .bind (Engine.preserves_advance (settles n)) fun status ↦ .bind .get fun e' ↦ .pure _
  refine .bind .get fun e ↦ .ite (.bind (.modify fun e h ↦ ?_) fun _ ↦ advanced) advanced
  exact ⟨h.keeps, h.alike.trans (Battery.reset_alike _)⟩

/-! ## A whole solve -/

omit [Scalar α] [DirectSolver α] [Device δ α] settles in
/-- The analysis with what a drive has left put back. -/
def putBack (a : Analysis δ α) (d : Drive δ α n) : Analysis δ α :=
  { a with engine := some ⟨n, d.engine⟩, seed := d.seed, last := d.last.or a.last }

omit [Device δ α] settles in
/-- The analysis with a note of the strategy of the next solve. -/
def noted (a : Analysis δ α) : Analysis δ α :=
  { a with session := { a.session with lastSolveType := some a.effectiveSolveType } }

omit settles in
/-- A solve, from what is built and read before it. -/
theorem ends_solve_of {done : Int → Analysis δ α → Prop} {stopped : Stop → Analysis δ α → Prop}
    (ready : Ends (ensureBuilt >>= fun _ ↦ ensureContext) a
      (fun ctx a₁ ↦
        (a₁.engine = none → stopped (.fault (.config .tornDown)) a₁.noted) ∧
        ∀ e, a₁.engine = some e →
          Ends (Drive.run (a₁.options.ofMode a₁.session.mode) ctx a₁.effectiveSolveType)
            { engine := e.engine, seed := a₁.seed }
            (fun code d ↦ done code { a₁.noted.putBack d with
              session := { a₁.noted.session with firstSolveComplete := true }
              lastCode := code })
            (fun stop d ↦ stopped stop (a₁.noted.putBack d)))
      stopped) : Ends solve a done stopped := by
  unfold solve
  simp only [ends_bind, ends_get, ends_modify]
  refine (ends_bind.1 ready).mono (fun _ _ built ↦ built.mono ?_ fun _ _ early ↦ early)
    fun _ _ early ↦ early
  rintro ctx a₁ ⟨lost, drive⟩
  split
  · rename_i none
    exact lost none
  · rename_i e there
    have ends := drive e there
    split
    · rename_i code d run
      simp only [ends_bind, ends_set, ends_pure]
      exact ends.ok run
    · rename_i stop d run
      simp only [ends_bind, ends_set, ends_throw]
      exact ends.error run

/-- What a solve comes to is what its drive comes to, unless it stops before. -/
theorem ends_solve (h : a.Kept I c o) {done : Int → Analysis δ α → Prop}
    {stopped : Stop → Analysis δ α → Prop}
    (early : ∀ stop a', stop.Routine → a'.Kept I c o → stopped stop a')
    (drive : ∀ (a₁ : Analysis δ α) (e : SizedEngine δ α) (ctx : ContinuationContext α),
      a₁.Prepared I c o → a₁.seed = a.seed → a₁.context = some ctx → a₁.engine = some e →
      a₁.session.lastSolveType = some a₁.effectiveSolveType →
      Ends (Drive.run (a₁.options.ofMode a₁.session.mode) ctx a₁.effectiveSolveType)
        { engine := e.engine, seed := a₁.seed }
        (fun code d ↦ done code { a₁.putBack d with
          session := { a₁.session with firstSolveComplete := true }
          lastCode := code })
        (fun stop d ↦ stopped stop (a₁.putBack d))) :
    Ends solve a done stopped := by
  refine ends_solve_of (ends_bind.2 ?_)
  refine (ensureBuilt_keeps settles h).mono ?_ fun stop a' early' ↦ early stop a' early'.1 early'.2
  rintro _ a₁ ⟨built₁, seed₁⟩
  refine (ensureContext_keeps built₁).mono ?_ fun stop a' early' ↦ early stop a' early'.1 early'.2
  rintro ctx a₂ ⟨built, context, seed₂⟩
  have prepared : a₂.noted.Prepared I c o := ⟨built.toKept.of_same rfl rfl rfl rfl, built.fits⟩
  exact ⟨fun _ ↦ early _ _ trivial prepared.toKept, fun e there ↦
    drive a₂.noted e ctx prepared (seed₂.trans seed₁) context there rfl⟩

/-- A solve keeps what a strategy settles, and does not attach a strategy on top of another. -/
theorem guards_solve (own : Owns N o) :
    Guards solve (Kept I c o) fun stop ↦ ¬ stop.Clashes := by
  intro a h
  refine ends_solve settles h (fun stop a' routine kept ↦ ⟨routine.not_clashes, kept⟩) ?_
  intro a₁ e ctx prepared _ _ there _
  have fits := prepared.engine_fits there
  have options := prepared.options
  -- What the drive leaves is put back.
  have back : ∀ {d : Drive δ α e.unknowns} {a' : Analysis δ α},
      Drive.Settled (I e.unknowns) { engine := e.engine, seed := a₁.seed } d →
      a'.communicator = a₁.communicator → a'.options = a₁.options →
      a'.session.builtMode = a₁.session.builtMode → a'.engine = some ⟨e.unknowns, d.engine⟩ →
      a'.Kept I c o := by
    intro d a' left communicator' options' builtMode' engine'
    refine ⟨communicator'.trans prepared.communicator, options'.trans options, fun e' same ↦ ?_⟩
    rw [engine'] at same
    obtain rfl := Option.some.inj same
    exact ⟨_, builtMode'.trans prepared.fits, left.keeps, fits.alike.trans left.alike⟩
  refine (Drive.run_settles (d := { engine := e.engine, seed := a₁.seed }) (settles _) fits.keeps
    _ ctx _ ?_).mono (fun code d left ↦ back left rfl rfl rfl rfl) fun stop d stopped ↦
      ⟨stopped.1.not_clashes, back stopped.2 rfl rfl rfl rfl⟩
  rw [options]
  exact own _ _

/-- Every command keeps what a solve keeps. -/
theorem perform_preserves (own : Owns N o) {β : Type} (command : Command α β) :
    Preserves (perform command) (Kept I c o) := by
  cases command with
  | solve => exact (guards_solve settles own).preserves
  | step => exact step_preserves settles
  | setMode => exact .modify fun a h ↦ h.of_same rfl rfl rfl rfl
  | resetSession => exact .modify fun a h ↦ h.of_same rfl rfl rfl rfl
  | setInitialConditions conditions => exact setInitialConditions_preserves conditions
  | setSeed seed => exact setSeed_preserves settles seed
  | setSolution x => exact setSolution_preserves settles x
  | setPrevious x => exact setPrevious_preserves settles x
  | setTimePoint => exact .modify fun a h ↦ h.of_same rfl rfl rfl rfl
  | applyJacobian v length => exact .bind (.lift _) fun _ ↦ applyJacobian_preserves settles v length
  | applyTranspose v length =>
    exact .bind (.lift _) fun _ ↦ applyTranspose_preserves settles v length

/-- Wherever a history leads, the property is kept. -/
theorem run_kept (own : Owns N o) (h : a.Kept I c o) (history : List (Request α)) :
    (a.run history).Kept I c o := by
  induction history generalizing a with
  | nil => exact h
  | cons request rest ih => exact ih (perform_preserves settles own request.2 a h).after

end

end Analysis

end OperatingPoint
