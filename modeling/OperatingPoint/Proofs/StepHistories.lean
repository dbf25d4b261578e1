import OperatingPoint.Proofs.NewtonStops
import OperatingPoint.Proofs.SingleSteps

/-!
# A run of single steps ends within the budget

An iteration that stops has not been counted, so that the budget says something about single steps
only if they do not stop.  From a rig that is *rooted*, where the iterate does not have its Jacobian
without its residual, a step stops for no other cause than a whole solve does; and wherever a
history of commands leads, the rig is rooted and nothing is laid over its equations.  What is left
that could stop a step there is a cycle of an iterative solver that cannot be held.
-/

set_option autoImplicit false

namespace OperatingPoint

open Step

variable {δ α : Type} [Scalar α] [DirectSolver α] {n : Nat}

/-! ## Rooted rigs -/

namespace Rig

variable [Device δ α]

theorem keeps_rooted : Keeps (fun r : Rig δ α n ↦ r.AtRest ∧ r.Rooted) fun _ ↦ True where
  rest h := h.1
  move h x := ⟨h.1.move x, .of_stale nofun⟩
  residual h := ((computeResidual_stays h.1).and (computeResidual_rooted h.2)).mono
    (fun _ _ kept ↦ ⟨kept.1.1.rest, kept.2⟩) fun _ _ kept ↦ ⟨trivial, kept.1.rest, kept.2⟩
  jacobian h := ((computeJacobian_stays h.1).and (computeJacobian_rooted h.2)).mono
    (fun _ _ kept ↦ ⟨kept.1.1.rest, kept.2⟩) fun _ _ kept ↦ ⟨trivial, kept.1.rest, kept.2⟩
  newton h _ mayReuse _ :=
    ((computeNewton_stays h.1 mayReuse).and (computeNewton_rooted h.2 mayReuse)).mono
      (fun _ _ kept ↦ ⟨kept.1.1.rest, kept.2⟩) fun _ _ kept ↦ ⟨trivial, kept.1.rest, kept.2⟩

/-- A rig between two commands: rooted, and with nothing laid over its equations. -/
structure Cleared (layer : δ) (r : Rig δ α n) : Prop where
  laid : r.Laid layer (fun _ ↦ True) none none false
  rooted : r.Rooted

theorem settles_cleared (layer : δ) :
    Settles layer (fun _ ↦ True) (Cleared (n := n) layer) where
  toKeeps := by
    have laid : Keeps (Laid (n := n) layer (fun _ ↦ True) none none false) fun _ ↦ True := keeps_laid
    refine ((laid.and keeps_rooted).congr fun r ↦ ?_).weaken fun _ _ ↦ trivial
    exact ⟨fun h ↦ ⟨h.1, h.2.2⟩, fun h ↦ ⟨h.laid, h.laid.rest, h.rooted⟩⟩
  laid h := h.laid
  blank h := ⟨h.laid, .of_invalid (not_isValid_of_fresh h.flags _)⟩

end Rig

/-! ## Steps -/

namespace Engine

variable [Device δ α] {e : Engine δ α n} {I : Rig δ α n → Prop} {Q : Stop → Prop} {layer : δ}

/-- At a rooted rig an iteration stops only with cause in a computation. -/
theorem advance_rooted (keeps : Rig.Keeps I Q) (h : I e.rig) (rooted : e.rig.Rooted) :
    Ends advance e (fun _ e' ↦ I e'.rig) (fun stop _ ↦ Q stop) := by
  refine (advance_keeps keeps h).mono (fun _ _ advanced ↦ advanced.keeps) ?_
  rintro stop e' ⟨-, cause | ⟨-, -, -, exposed, -⟩⟩
  · exact cause
  · have valid := rooted exposed.jacobian
    rw [exposed.residual] at valid
    cases valid

theorem pace_rooted (keeps : Rig.Keeps I Q) (h : I e.rig) (rooted : e.rig.Rooted) :
    Ends pace e (fun _ e' ↦ I e'.rig) (fun stop _ ↦ Q stop) := by
  unfold pace
  simp only [ends_bind, ends_get, ends_ite, ends_modifyNewton]
  exact ⟨fun _ ↦ advance_rooted keeps h rooted, fun _ ↦ advance_rooted keeps h rooted⟩

theorem paceWhile_rooted (keeps : Rig.Keeps I Q) (rooted : ∀ r, I r → r.Rooted) (h : I e.rig)
    (calls : Nat) : Ends (paceWhile calls) e (fun _ e' ↦ I e'.rig) (fun stop _ ↦ Q stop) := by
  induction calls generalizing e with
  | zero => exact h
  | succ calls ih =>
    rw [paceWhile]
    simp only [ends_bind, ends_ite, ends_pure]
    exact (pace_rooted keeps h (rooted _ h)).mono (fun _ _ kept ↦ ⟨fun _ ↦ kept, fun _ ↦ ih kept⟩)
      fun _ _ cause ↦ cause

/-- Where nothing is laid over the equations, steps stop at most for a cycle that cannot be held. -/
theorem paceWhile_cleared (h : e.rig.Cleared layer) (calls : Nat) :
    Ends (paceWhile calls) e (fun _ _ ↦ True) (fun stop _ ↦ stop = .breach ∧
      e.rig.store.workspace.options.kind.holdsCycle = false) := by
  have keeps := (Rig.settles_cleared (n := n) layer).toKeeps.and (Rig.keeps_frames e.rig)
  refine (paceWhile_rooted keeps (fun _ both ↦ both.1.rooted) ⟨h, h.laid.rest, .refl _⟩ calls).mono
    (fun _ _ _ ↦ trivial) ?_
  rintro stop e' ⟨-, cause⟩
  have plain := h.laid.toLays.isPlain
  cases cause with
  | forwarding on =>
    rw [plain.forwarding] at on
    cases on
  | overlay unfit =>
    refine absurd (fun a attached ↦ ?_) unfit
    rw [plain.strategy] at attached
    cases attached
  | cycle unheld => exact ⟨rfl, unheld⟩

end Engine

namespace Analysis

variable [Device δ α] {a a₀ : Analysis δ α} {e : Engine δ α n} {layer : δ} {c : Communicator α}
  {o : SolverOptions α}

/-- Where nothing is laid over the equations, calls enough for the budget decide. -/
theorem stepWhile_cleared (there : a.engine = some ⟨n, e⟩)
    (built : a.session.builtMode = some a.session.mode) (h : e.rig.Cleared layer) {calls : Nat}
    (enough : max 1 e.newton.options.maxSteps ≤ calls) :
    Ends (stepWhile calls) a (fun _ a' ↦ a'.decided = true)
      (fun stop _ ↦ stop = .breach ∧
        e.rig.store.workspace.options.kind.holdsCycle = false) := by
  have paced := (Engine.paceWhile_decides e enough).and (Engine.paceWhile_cleared h calls)
  obtain ⟨calls, rfl⟩ := Nat.exists_eq_add_of_le' (Nat.le_trans (Nat.le_max_left 1 _) enough)
  cases run : Engine.paceWhile (calls + 1) e with
  | ok u e' => exact (ends_of_ok (stepWhile_ok there built run)).2 (paced.ok run).1
  | error stop e' =>
    obtain ⟨last, code, stopped⟩ := stepWhile_error there built run
    exact (ends_of_error stopped).2 (paced.error run).2

/-- Whether the engine has been built before the first step or in it makes no difference. -/
theorem stepWhile_prepared {b : Analysis δ α} (run : ensureBuilt a = .ok () b)
    (built : b.session.builtMode = some b.session.mode) (calls : Nat) :
    stepWhile (calls + 1) a = stepWhile (calls + 1) b := by
  have same : step a = step b := by
    unfold step
    exact bind_congr_at (run.trans (ensureBuilt_of_built built).symm)
  rw [stepWhile]
  exact bind_congr_at same

/-- **Budgets.**  A Newton solve comes to an end, from whatever engine: the loop that it begins
would end by itself within the budget, and unless it stops it has decided, within the budget.
Wherever a history of commands of an analysis leads, steps decide within the budget of the engine
for the mode, which the first of them builds unless it is there; one step is allowed in any case. -/
theorem decides_within_budget :
    (∀ (n : Nat) (e : Engine δ α n),
      Ends Engine.begin e
        (fun status e₁ ↦ ∃ rounds ≤ e.newton.options.maxSteps, Engine.Loops status e₁ rounds
          (Engine.iterateWhile e₁.newton.options.maxSteps status e₁))
        (fun _ _ ↦ True) ∧
      Ends Engine.solve e
        (fun outcome _ ↦ outcome.status.isDecided = true ∧
          outcome.iterations ≤ e.newton.options.maxSteps)
        (fun _ _ ↦ True)) ∧
    ∀ (layer : δ) (c : Communicator α) (o : SolverOptions α) (a₀ b : Analysis δ α)
      (history : List (Request α)) (e : SizedEngine δ α), new layer c o = .ok a₀ →
      ensureBuilt (a₀.run history) = .ok () b → b.engine = some e →
      ∀ calls, max 1 e.engine.newton.options.maxSteps ≤ calls →
        Ends (stepWhile calls) (a₀.run history) (fun _ a ↦ a.decided = true)
          (fun stop _ ↦ stop = .breach ∧
            e.engine.rig.store.workspace.options.kind.holdsCycle = false) := by
  refine ⟨fun n e ↦ ⟨?_, Engine.solve_decides⟩, ?_⟩
  · refine Engine.begin_counts.mono (fun status e₁ opens ↦ ?_) fun _ _ _ ↦ trivial
    have options : e₁.newton.options = e.newton.options := opens.alike.options
    rw [options]
    exact (Engine.underway_of_opens opens (Nat.le_refl _)).loops
  · intro layer c o a₀ b history e made run there calls enough
    have settles : ∀ n, Rig.Settles layer (fun _ ↦ True) (Rig.Cleared (n := n) layer) :=
      fun _ ↦ Rig.settles_cleared layer
    have kept : (a₀.run history).Kept (fun n ↦ Rig.Cleared (n := n) layer) c o :=
      run_kept settles (fun _ _ _ _ ↦ .inl trivial) (kept_of_new settles made) history
    have prepared := ((ensureBuilt_keeps settles kept).ok run).1
    have decides := stepWhile_cleared there prepared.fits (prepared.engine_fits there).keeps enough
    obtain ⟨calls, rfl⟩ := Nat.exists_eq_add_of_le' (Nat.le_trans (Nat.le_max_left 1 _) enough)
    rw [Ends, stepWhile_prepared run prepared.fits]
    exact decides

-- What is said of the analysis is not to be compared by carrying out the history.
seal Ends ensureBuilt in
/-- Two steps for a budget of two.  A step for another mode has gone before and has not decided, so
that the first of them builds the engine anew. -/
theorem decides_within_budget_squared :
    let standard : SolverOptions Float := .standard
    let options : SolverOptions Float := { standard with transient := { standard.transient with
      nonlinear := { standard.transient.nonlinear with maxSteps := 2 } } }
    let history : List (Request Float) :=
      [⟨_, .setSolution #[1.0]⟩, ⟨_, .step⟩, ⟨_, .setMode .transient⟩]
    ∃ a₀ : Analysis Circuit Float, new squared .serial options = .ok a₀ ∧
      (a₀.run history).decided = false ∧
      (a₀.run history).session.builtMode ≠ some (a₀.run history).session.mode ∧
      Ends (stepWhile 2) (a₀.run history) (fun _ a ↦ a.decided = true) fun _ _ ↦ False := by
  intro standard options history
  have ran : Yields (new squared .serial options : Except Stop (Analysis Circuit Float))
      fun a₀ ↦ let a := a₀.run history
        a.decided = false ∧ a.session.builtMode ≠ some a.session.mode ∧
        Ends ensureBuilt a
          (fun _ b ↦ ∃ e ∈ b.engine, max 1 e.engine.newton.options.maxSteps ≤ 2 ∧
            e.engine.rig.store.workspace.options.kind.holdsCycle = true) fun _ _ ↦ False := by
    decide +kernel
  obtain ⟨a₀, made, undecided, unbuilt, prepared⟩ := ran.exists
  refine ⟨a₀, made, undecided, unbuilt, ?_⟩
  cases run : ensureBuilt (a₀.run history) with
  | error stop b => exact (prepared.error run).elim
  | ok u b =>
    obtain ⟨e, there, enough, held⟩ := prepared.ok run
    refine ((decides_within_budget (δ := Circuit)).2 squared .serial options a₀ b history e made
      run there 2 enough).mono (fun _ _ decided ↦ decided) ?_
    rintro stop a ⟨-, unheld⟩
    rw [held] at unheld
    cases unheld

end Analysis

end OperatingPoint
