import OperatingPoint.Proofs.Budget
import OperatingPoint.Proofs.JacobianProducts
import OperatingPoint.Proofs.Journals

/-!
# Single steps are a solve

An analysis can be taken through a plain Newton solve in one call, or one iteration at a time.  The
two begin differently: a step forgets a solve that was decided only when it is asked to go on, and
the first step evaluates the initial guess and carries out an iteration besides.  They come to the
same engine nevertheless, with the device layer in the same state, so that the loads are the same
too.

`Engine.pace` is what a step does to the engine, and `Analysis.stepWhile` steps until the status is
decided.
-/

set_option autoImplicit false

namespace OperatingPoint

open Step

variable {δ α : Type} [Scalar α] [DirectSolver α] [Device δ α] {n : Nat}

/-! ## On the engine -/

namespace Engine

variable {e e' : Engine δ α n} {status : Status} {stop : Stop}

/-- An iteration.  A solve that is decided is forgotten first. -/
def pace : Step (Engine δ α n) Status := do
  if (← get).newton.status.isDecided then
    modifyNewton Newton.reset
  advance

/-- Goes on until the status is decided, `calls` times at most. -/
def paceWhile : (calls : Nat) → Step (Engine δ α n) Unit
  | 0 => pure ()
  | calls + 1 => do
    let status ← pace
    if status.isDecided then pure () else paceWhile calls

/-- The driver is not in the middle of a solve. -/
def Idle (e : Engine δ α n) : Prop :=
  e.newton.started = false ∨ e.newton.status.isDecided = true

theorem begin_reset : begin { e with newton := e.newton.reset } = begin e := rfl

theorem pace_underway (undecided : e.newton.status.isDecided = false) : pace e = advance e := by
  rw [pace, get_bind, if_neg (by rw [undecided]; decide)]

theorem pace_noted :
    Ends pace e (fun status e' ↦ e'.newton.status = status) (fun _ _ ↦ True) := by
  unfold pace
  simp only [ends_bind, ends_get, ends_ite, ends_modifyNewton]
  exact ⟨fun _ ↦ advance_noted, fun _ ↦ advance_noted⟩

/-- A first step begins a solve, and goes on with an iteration if that has not decided it. -/
theorem pace_idle (h : e.Idle) :
    pace e = (do
      let status ← begin
      if status.isDecided then return status
      resume : Step (Engine δ α n) Status) e := by
  cases decided : e.newton.status.isDecided with
  | true =>
    have forgotten : pace e = advance { e with newton := e.newton.reset } := by
      rw [pace, get_bind, if_pos decided]
      rfl
    rw [forgotten, advance_unstarted rfl]
    exact bind_congr_at begin_reset
  | false =>
    have unstarted : e.newton.started = false := h.resolve_right (by simp [decided])
    rw [pace_underway decided, advance_unstarted unstarted]

theorem paceWhile_next (run : pace e = .ok status e') (calls : Nat) :
    paceWhile (calls + 1) e = if status.isDecided then .ok () e' else paceWhile calls e' := by
  rw [paceWhile, bind_of_ok run]
  split
  · rfl
  · rfl

/-- Stepping a solve that is under way is what the loop of a solve does. -/
theorem paceWhile_underway (started : e.newton.started = true)
    (undecided : e.newton.status.isDecided = false) (calls : Nat) :
    paceWhile calls e = iterateWhile calls e.newton.status e := by
  induction calls generalizing e with
  | zero => rfl
  | succ calls ih =>
    have same := pace_underway undecided
    cases run : advance e with
    | error stop e' =>
      rw [paceWhile, bind_of_error (same.trans run), iterateWhile_error undecided run]
    | ok status e' =>
      have counts : e.newton.Counts status e'.newton := by
        rw [advance_underway started undecided] at run
        exact iterateOnce_counts.ok run
      rw [paceWhile, bind_of_ok (same.trans run), iterateWhile_ok undecided run]
      cases decided : status.isDecided with
      | true => exact congrFun (iterateWhile_decided decided calls).symm e'
      | false =>
        rw [← counts.noted] at decided ⊢
        exact ih (counts.started.trans started) decided

/-- Stepping from a beginning is the beginning of a solve and its loop. -/
theorem paceWhile_idle (h : e.Idle) (calls : Nat) :
    paceWhile (calls + 1) e =
      (do let status ← begin; iterateWhile (calls + 1) status : Step (Engine δ α n) Unit) e := by
  have same := pace_idle h
  cases run : begin e with
  | error stop e' =>
    rw [bind_of_error run] at same
    rw [paceWhile, bind_of_error same, bind_of_error run]
  | ok status e' =>
    rw [bind_of_ok run] at same
    rw [bind_of_ok run]
    have opens := begin_counts.ok run
    cases decided : status.isDecided with
    | true =>
      rw [if_pos decided] at same
      rw [paceWhile, bind_of_ok same, iterateWhile_decided decided]
      exact congrFun (if_pos decided) e'
    | false =>
      have undecided : e'.newton.status.isDecided = false := by rw [opens.noted, decided]
      -- The rest of the first step is the first step of the rest.
      have first : pace e = pace e' := by
        rw [same, if_neg (by rw [decided]; decide), pace_underway undecided,
          advance_started opens.started]
      have stepped : paceWhile (calls + 1) e = paceWhile (calls + 1) e' := by
        rw [paceWhile]
        exact bind_congr_at first
      rw [stepped, paceWhile_underway opens.started undecided, opens.noted]

/-- Stepping with calls enough for the budget decides. -/
theorem paceWhile_decides (e : Engine δ α n) {calls : Nat}
    (enough : max 1 e.newton.options.maxSteps ≤ calls) :
    Ends (paceWhile calls) e (fun _ e' ↦ e'.newton.status.isDecided = true) (fun _ _ ↦ True) := by
  have decides : ∀ {status : Status} {e₁ : Engine δ α n}, e₁.Underway status calls →
      Ends (iterateWhile calls status) e₁ (fun _ e' ↦ e'.newton.status.isDecided = true)
        (fun _ _ ↦ True) := by
    intro status e₁ underway
    obtain ⟨rounds, -, loops⟩ := underway.loops
    exact .of_result (R := fun result ↦ iterateWhile calls status e₁ = result) rfl
      (fun _ e' ended ↦ (loops.decides underway ended).1) fun _ _ _ ↦ trivial
  obtain ⟨calls, rfl⟩ := Nat.exists_eq_add_of_le' (Nat.le_trans (Nat.le_max_left 1 _) enough)
  have budget := Nat.le_trans (Nat.le_max_right 1 _) enough
  by_cases idle : e.Idle
  · rw [Ends, paceWhile_idle idle, ← Ends, ends_bind]
    exact begin_counts.mono (fun _ _ opens ↦ decides (underway_of_opens opens budget))
      fun _ _ _ ↦ trivial
  · rw [Idle, not_or, Bool.not_eq_false, Bool.not_eq_true] at idle
    rw [Ends, paceWhile_underway idle.1 idle.2, ← Ends]
    exact decides ⟨rfl, idle.1, fun _ ↦
      ⟨Nat.succ_pos calls, Nat.le_trans budget (Nat.le_add_left _ _)⟩⟩

/-- From a beginning, stepping with calls enough for the budget is a solve. -/
theorem paceWhile_solve (h : e.Idle) {calls : Nat}
    (enough : max 1 e.newton.options.maxSteps ≤ calls) :
    (do paceWhile calls; return (← get).newton.outcome : Step (Engine δ α n) (Outcome α)) e =
      solve e := by
  obtain ⟨calls, rfl⟩ := Nat.exists_eq_add_of_le' (Nat.le_trans (Nat.le_max_left 1 _) enough)
  have budget := Nat.le_trans (Nat.le_max_right 1 _) enough
  rw [solve, bind_congr_at (paceWhile_idle h calls)]
  cases run : begin e with
  | error stop e' => rw [bind_of_error run, bind_of_error (bind_of_error run)]
  | ok status e' =>
    have opens := begin_counts.ok run
    have options : e'.newton.options = e.newton.options := opens.alike.options
    obtain ⟨rounds, few, loops⟩ :=
      (underway_of_opens opens (Nat.le_refl e.newton.options.maxSteps)).loops
    have same : iterateWhile (calls + 1) status e' =
        iterateWhile e'.newton.options.maxSteps status e' := by
      rw [options, loops.iterateWhile (Nat.le_trans few budget)]
    rw [bind_of_ok run, bind_congr_at (bind_of_ok run), get_bind]
    exact bind_congr_at same

end Engine

namespace Analysis

variable {a : Analysis δ α} {e e' : Engine δ α n} {ctx : ContinuationContext α} {stop : Stop}

/-- The analysis with another engine. -/
def withEngine (a : Analysis δ α) (e : Engine δ α n) : Analysis δ α :=
  { a with engine := some ⟨n, e⟩ }

/-- The analysis after a step that has left an engine. -/
def stepped (a : Analysis δ α) (e : Engine δ α n) : Analysis δ α :=
  { a.withEngine e with
    last := some e.newton.outcome
    lastCode := e.newton.outcome.code
    session := { a.session with
      firstSolveComplete := a.session.firstSolveComplete || e.newton.status.isDecided } }

/-- Whether the last outcome is one of a solve that was decided. -/
def decided (a : Analysis δ α) : Bool := a.last.any fun outcome ↦ outcome.status.isDecided

/-- Steps until the status is decided, `calls` times at most, and hands back the last code. -/
def stepWhile : (calls : Nat) → Step (Analysis δ α) Int
  | 0 => return (← get).lastCode
  | calls + 1 => do
    let code ← step
    if (← get).decided then return code
    stepWhile calls

theorem ensureBuilt_of_built (built : a.session.builtMode = some a.session.mode) :
    ensureBuilt a = .ok () a := by
  have run := ensureBuilt_run a
  generalize ensureBuilt a = result at run
  cases run with
  | built => rfl
  | lost outmoded => exact absurd built outmoded
  | rebuilt outmoded => exact absurd built outmoded
  | refused outmoded => exact absurd built outmoded

/-- A step of an analysis whose engine is built is one of the engine. -/
theorem ends_step (there : a.engine = some ⟨n, e⟩)
    (built : a.session.builtMode = some a.session.mode) {done : Int → Analysis δ α → Prop}
    {stopped : Stop → Analysis δ α → Prop}
    (h : Ends Engine.pace e (fun _ e' ↦ done e'.newton.outcome.code (a.stepped e'))
      (fun stop e' ↦ stopped stop (a.withEngine e'))) : Ends step a done stopped := by
  unfold step
  rw [ends_bind, ends_of_ok (ensureBuilt_of_built built), ends_bind]
  refine ends_onEngine (fun e₀ there₀ ↦ ?_) fun lost ↦ by rw [there] at lost; cases lost
  cases Option.some.inj (there.symm.trans there₀)
  have paced := h.and Engine.pace_noted
  unfold Engine.pace at paced
  simp only [ends_bind, ends_get, ends_ite, Engine.ends_modifyNewton, ends_modify,
    ends_pure] at paced ⊢
  have handed : ∀ {status : Status} {e' : Engine δ α n},
      done e'.newton.outcome.code (a.stepped e') ∧ e'.newton.status = status →
      done e'.newton.outcome.code { a.withEngine e' with
        last := some e'.newton.outcome
        lastCode := e'.newton.outcome.code
        session := { a.session with
          firstSolveComplete := a.session.firstSolveComplete || status.isDecided } } := by
    rintro status e' ⟨done, noted⟩
    rw [← noted]
    exact done
  exact ⟨fun decided ↦ (paced.1 decided).mono (fun _ _ ↦ handed) fun _ _ stopped ↦ stopped.1,
    fun undecided ↦ (paced.2 undecided).mono (fun _ _ ↦ handed) fun _ _ stopped ↦ stopped.1⟩

theorem step_ok (there : a.engine = some ⟨n, e⟩) (built : a.session.builtMode = some a.session.mode)
    {status : Status} (run : Engine.pace e = .ok status e') :
    step a = .ok e'.newton.outcome.code (a.stepped e') :=
  Ends.result (R := (· = .ok e'.newton.outcome.code (a.stepped e')))
    (ends_step there built ((ends_of_ok run).2 rfl))

theorem step_error (there : a.engine = some ⟨n, e⟩)
    (built : a.session.builtMode = some a.session.mode)
    (run : Engine.pace e = .error stop e') :
    step a = .error stop (a.withEngine e') :=
  Ends.result (R := (· = .error stop (a.withEngine e')))
    (ends_step there built ((ends_of_error run).2 rfl))

omit [Device δ α] in
/-- Where a step has not decided, the next one writes over what it has noted. -/
theorem stepped_stepped (a : Analysis δ α) (undecided : e.newton.status.isDecided = false)
    (e' : Engine δ α n) : (a.stepped e).stepped e' = a.stepped e' := by
  unfold stepped
  dsimp only
  rw [undecided, Bool.or_false]
  rfl

/-- Stepping on after a step. -/
theorem stepWhile_next (there : a.engine = some ⟨n, e⟩)
    (built : a.session.builtMode = some a.session.mode) {status : Status}
    (run : Engine.pace e = .ok status e') (calls : Nat) :
    stepWhile (calls + 1) a =
      if status.isDecided then .ok e'.newton.outcome.code (a.stepped e')
      else stepWhile calls (a.stepped e') := by
  have noted : (a.stepped e').decided = status.isDecided :=
    congrArg Status.isDecided (Engine.pace_noted.ok run)
  rw [stepWhile, bind_of_ok (step_ok there built run), get_bind, noted]
  split
  · rfl
  · rfl

/-- Stepping an analysis is stepping its engine, if that goes for the steps after the first one. -/
theorem stepWhile_first (there : a.engine = some ⟨n, e⟩)
    (built : a.session.builtMode = some a.session.mode) {calls : Nat}
    (run : Engine.paceWhile (calls + 1) e = .ok () e')
    (rest : ∀ e₁ : Engine δ α n, e₁.newton.status.isDecided = false →
      Engine.paceWhile calls e₁ = .ok () e' →
        stepWhile calls (a.stepped e₁) = .ok e'.newton.outcome.code (a.stepped e')) :
    stepWhile (calls + 1) a = .ok e'.newton.outcome.code (a.stepped e') := by
  cases first : Engine.pace e with
  | error stop e₁ =>
    rw [Engine.paceWhile, bind_of_error first] at run
    cases run
  | ok status e₁ =>
    have noted := Engine.pace_noted.ok first
    rw [Engine.paceWhile_next first] at run
    rw [stepWhile_next there built first]
    cases decided : status.isDecided with
    | true =>
      rw [if_pos decided] at run
      cases run
      exact if_pos rfl
    | false =>
      rw [if_neg (by rw [decided]; decide)] at run
      exact (if_neg (by decide)).trans (rest e₁ (by rw [noted, decided]) run)

/-- Stepping on after a step that has not decided is stepping the engine. -/
theorem stepWhile_stepped (built : a.session.builtMode = some a.session.mode)
    (undecided : e.newton.status.isDecided = false) {calls : Nat}
    (run : Engine.paceWhile calls e = .ok () e') :
    stepWhile calls (a.stepped e) = .ok e'.newton.outcome.code (a.stepped e') := by
  induction calls generalizing e with
  | zero =>
    cases run
    rfl
  | succ calls ih =>
    have again : ∀ e₁ : Engine δ α n, (a.stepped e).stepped e₁ = a.stepped e₁ :=
      stepped_stepped a undecided
    rw [← again e']
    refine stepWhile_first (a := a.stepped e) rfl built run fun e₁ undecided₁ run₁ ↦ ?_
    rw [again, again]
    exact ih undecided₁ run₁

/-- Stepping an analysis is stepping its engine. -/
theorem stepWhile_ok (there : a.engine = some ⟨n, e⟩)
    (built : a.session.builtMode = some a.session.mode) {calls : Nat}
    (run : Engine.paceWhile (calls + 1) e = .ok () e') :
    stepWhile (calls + 1) a = .ok e'.newton.outcome.code (a.stepped e') :=
  stepWhile_first there built run fun _ undecided run ↦ stepWhile_stepped built undecided run

/-- Where stepping the engine stops, stepping the analysis does. -/
theorem stepWhile_error (there : a.engine = some ⟨n, e⟩)
    (built : a.session.builtMode = some a.session.mode) {calls : Nat}
    (run : Engine.paceWhile calls e = .error stop e') :
    ∃ last code, stepWhile calls a =
      .error stop { a.withEngine e' with last := last, lastCode := code } := by
  induction calls generalizing a e with
  | zero => cases run
  | succ calls ih =>
    cases first : Engine.pace e with
    | error stop₁ e₁ =>
      rw [Engine.paceWhile, bind_of_error first] at run
      cases run
      exact ⟨a.last, a.lastCode, by rw [stepWhile, bind_of_error (step_error there built first)]; rfl⟩
    | ok status e₁ =>
      rw [Engine.paceWhile_next first] at run
      rw [stepWhile_next there built first]
      cases decided : status.isDecided with
      | true =>
        rw [if_pos decided] at run
        cases run
      | false =>
        rw [if_neg (by rw [decided]; decide)] at run
        obtain ⟨last, code, stepped⟩ := ih (a := a.stepped e₁) rfl built run
        refine ⟨last, code, (if_neg (by decide)).trans (stepped.trans ?_)⟩
        unfold Analysis.stepped
        dsimp only
        rw [Engine.pace_noted.ok first, decided, Bool.or_false]
        rfl

/-! ## A whole solve -/

/-- Without conditions and without a seed Newton's iteration is all of the strategy. -/
theorem ends_run_newton {d : Drive δ α n} {options : ModeOptions α} (seed : d.seed = none)
    (conditions : ctx.initialConditions = none ∨
      options.continuation.useInitialConditions = false)
    {done : Int → Drive δ α n → Prop} {stopped : Stop → Drive δ α n → Prop} :
    Ends (Drive.run options ctx .newton) d done stopped ↔
      Ends Drive.solveNewton d done stopped := by
  have clamp : Drive.clamp? options ctx = .ok none := by
    unfold Drive.clamp?
    split
    · rename_i there
      rcases conditions with none | unused
      · rw [none] at there
        cases there
      · rw [unused]
        rfl
    · rfl
  unfold Drive.run Drive.newton
  simp only [Drive.phasesOf, ends_bind, ends_orFault_ok, clamp, ends_get, seed]

theorem run_newton_ok {d : Drive δ α n} {options : ModeOptions α} (seed : d.seed = none)
    (conditions : ctx.initialConditions = none ∨
      options.continuation.useInitialConditions = false)
    {outcome : Outcome α} (run : Engine.solve d.engine = .ok outcome e') :
    Drive.run options ctx .newton d =
      .ok outcome.code { d with engine := e', last := some outcome } := by
  refine Ends.result (R := (· = .ok outcome.code { d with engine := e', last := some outcome })) ?_
  rw [ends_run_newton seed conditions, Drive.solveNewton]
  simp only [ends_bind, Drive.ends_onEngine, ends_of_ok run, ends_modify, ends_pure]

theorem run_newton_error {d : Drive δ α n} {options : ModeOptions α} (seed : d.seed = none)
    (conditions : ctx.initialConditions = none ∨
      options.continuation.useInitialConditions = false)
    (run : Engine.solve d.engine = .error stop e') :
    Drive.run options ctx .newton d = .error stop { d with engine := e' } := by
  refine Ends.result (R := (· = .error stop { d with engine := e' })) ?_
  rw [ends_run_newton seed conditions, Drive.solveNewton]
  simp only [ends_bind, Drive.ends_onEngine, ends_of_error run]

theorem ensureContext_of_read (read : a.context = some ctx) : ensureContext a = .ok ctx a := by
  unfold ensureContext
  rw [get_bind, read]
  rfl

/-- An analysis from which a solve is plain Newton and nothing else: its engine is the one for its
mode, the context has been read, and neither a seed nor initial conditions are in use. -/
structure Plain (a : Analysis δ α) (e : Engine δ α n) (ctx : ContinuationContext α) : Prop where
  there : a.engine = some ⟨n, e⟩
  built : a.session.builtMode = some a.session.mode
  read : a.context = some ctx
  newton : a.effectiveSolveType = .newton
  seed : a.seed = none
  conditions : ctx.initialConditions = none ∨
    (a.options.ofMode a.session.mode).continuation.useInitialConditions = false

/-- The analysis with another engine after a plain Newton solve. -/
def afterNewton (a : Analysis δ α) (e : Engine δ α n) (complete : Bool) : Analysis δ α :=
  { a.withEngine e with
    session := { a.session with
      lastSolveType := some .newton
      firstSolveComplete := complete } }

/-- A plain Newton solve of an analysis is one of its engine. -/
theorem Plain.ends_solve (h : a.Plain e ctx) {done : Int → Analysis δ α → Prop}
    {stopped : Stop → Analysis δ α → Prop}
    (solved : Ends Engine.solve e
      (fun outcome e' ↦ done outcome.code { a.afterNewton e' true with
        last := some outcome
        lastCode := outcome.code })
      (fun stop e' ↦ stopped stop (a.afterNewton e' a.session.firstSolveComplete))) :
    Ends solve a done stopped := by
  unfold solve
  rw [ends_bind, ends_of_ok (ensureBuilt_of_built h.built), ends_bind,
    ends_of_ok (ensureContext_of_read h.read)]
  simp only [ends_bind, ends_get, ends_modify, h.there, h.newton]
  cases run : Engine.solve e with
  | ok outcome e' =>
    rw [run_newton_ok (d := { engine := e, seed := a.seed }) h.seed h.conditions run]
    simp only [ends_bind, ends_set, ends_pure]
    exact solved.ok run
  | error stop e' =>
    rw [run_newton_error (d := { engine := e, seed := a.seed }) h.seed h.conditions run]
    simp only [ends_bind, ends_set, ends_throw]
    exact solved.error run

/-- **Single steps.**  From an analysis whose next solve is plain Newton, and which is not in the
middle of one, stepping until the status is decided is a solve: the codes are the same, and so are
the analyses after it, with the solution, the outcome and the state of the device layer, except that
a solve notes its type.  Where one stops the other does, for the same reason and with the same
engine; what steps have noted on the way then stays. -/
theorem solve_eq_steps (h : a.Plain e ctx) (idle : e.Idle) {calls : Nat}
    (enough : max 1 e.newton.options.maxSteps ≤ calls) :
    Ends solve a
      (fun code a' ↦ a'.decided = true ∧ stepWhile calls a = .ok code
        { a' with session := { a'.session with lastSolveType := a.session.lastSolveType } })
      (fun stop a' ↦ ∃ last lastCode, stepWhile calls a = .error stop
        { a' with last := last, lastCode := lastCode, session := a.session }) := by
  refine h.ends_solve ?_
  have same := Engine.paceWhile_solve idle enough
  obtain ⟨calls, rfl⟩ := Nat.exists_eq_add_of_le' (Nat.le_trans (Nat.le_max_left 1 _) enough)
  cases run : Engine.paceWhile (calls + 1) e with
  | ok u e' =>
    have decided : e'.newton.status.isDecided = true :=
      (Engine.paceWhile_decides e enough).ok run
    rw [bind_of_ok run] at same
    refine (ends_of_ok same.symm).2 ⟨decided, ?_⟩
    rw [stepWhile_ok h.there h.built run, stepped, decided, Bool.or_true]
    rfl
  | error stop e' =>
    rw [bind_of_error run] at same
    refine (ends_of_error same.symm).2 ?_
    obtain ⟨last, lastCode, stopped⟩ := stepWhile_error h.there h.built run
    exact ⟨last, lastCode, stopped⟩

-- What is said of the analysis is not to be compared by carrying out the history.
seal Ends in
/-- Steps after a solve from one, from where its solution has been moved away to five.  Eleven
requests to the device layer are added to those of the solve, in the one way as in the other. -/
theorem solve_eq_steps_squared :
    let history : List (Request Float) :=
      [⟨_, .setSolution #[1.0]⟩, ⟨_, .solve⟩, ⟨_, .setSolution #[5.0]⟩]
    ∃ a₀ : Analysis (Journal Circuit Float) Float,
      new ⟨squared, []⟩ .serial .standard = .ok a₀ ∧
      Ends solve (a₀.run history)
        (fun code a ↦ code = 2 ∧
          (a.engine.map fun e ↦ e.engine.rig.store.device.requests.length) = some 20 ∧
          stepWhile 200 (a₀.run history) = .ok code { a with session := { a.session with
            lastSolveType := (a₀.run history).session.lastSolveType } })
        fun _ _ ↦ False := by
  intro history
  have ran : Yields
      (new ⟨squared, []⟩ .serial .standard : Except Stop (Analysis (Journal Circuit Float) Float))
      fun a₀ ↦ let a := a₀.run history
        (∃ e ∈ a.engine, (e.engine.newton.started = false ∨
            e.engine.newton.status.isDecided = true) ∧
          max 1 e.engine.newton.options.maxSteps ≤ 200) ∧
        (∃ ctx ∈ a.context, ctx.initialConditions.isNone = true) ∧
        a.session.builtMode = some a.session.mode ∧ a.effectiveSolveType = .newton ∧
        a.seed.isNone = true ∧
        Ends solve a (fun code a ↦ code = 2 ∧
          (a.engine.map fun e ↦ e.engine.rig.store.device.requests.length) = some 20)
          fun _ _ ↦ False := by
    decide +kernel
  obtain ⟨a₀, made, ⟨e, there, idle, enough⟩, ⟨ctx, read, free⟩, built, newton, seed, run⟩ :=
    ran.exists
  have plain : (a₀.run history).Plain e.engine ctx :=
    ⟨there, built, read, newton, Option.isNone_iff_eq_none.1 seed,
      .inl (Option.isNone_iff_eq_none.1 free)⟩
  exact ⟨a₀, made, (run.and (solve_eq_steps plain idle enough)).mono
    (fun _ _ solved ↦ ⟨solved.1.1, solved.1.2, solved.2.2⟩) fun _ _ stopped ↦ stopped.1⟩

end Analysis

end OperatingPoint
