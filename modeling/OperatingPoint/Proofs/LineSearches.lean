import OperatingPoint.Proofs.LoadOrder
import OperatingPoint.Proofs.NewtonRun
import OperatingPoint.Proofs.ScalarLine

/-!
# What a line search has tried

A line search tries one step after the other, each half of the one before, and each of them once: it
moves the iterate and has the device layer evaluate it there.  It goes on as long as trials are
turned down, and the step it hands back is that of the last trial.  With the trials used up it hands
back the last one whatever came of it.

That every trial is made once is told from the log of a device layer that writes down its loads.

`Tries` says through which engines a line search goes, and `Trial` and `Trials` what can be told of
them from a log: of one trial, and of a sequence in which all but the last were turned down.
-/

set_option autoImplicit false

namespace OperatingPoint

open Step

/-! ## Steps -/

/-- A step of one, halved `k` times. -/
def halved (α : Type) [Scalar α] : Nat → α
  | 0 => 1
  | k + 1 => halved α k * 0.5

theorem Scalar.Line.halved {K α : Type} [Field K] [LinearOrder K] [IsStrictOrderedRing K] [Scalar α]
    (line : Scalar.Line K α) (k : Nat) : halved α k = line.of ((1 / 2) ^ k) := by
  induction k with
  | zero => rw [pow_zero, line.one, OperatingPoint.halved]
  | succ k ih => rw [OperatingPoint.halved, ih, pow_succ, line.mul, line.half]

/-! ## Trials -/

namespace Newton

variable {α : Type} [Scalar α]

/-- A trial that has decreased the residual norm enough. -/
def Suffices (step old : α) (trial : Measured α) : Prop :=
  ∃ norms, trial = .norms norms ∧ Scalar.isFinite norms.two = true ∧
    norms.two ≤ (1 - sufficientDecrease α * step) * old

/-- A trial that could not be loaded, has no finite norm or has not decreased it enough. -/
inductive Rejects (step old : α) : Measured α → Prop
  | failed : Rejects step old .failed
  | infinite {norms : ResidualNorms α} (h : Scalar.isFinite norms.two = false) :
      Rejects step old (.norms norms)
  | insufficient {norms : ResidualNorms α}
      (h : ¬ norms.two ≤ (1 - sufficientDecrease α * step) * old) : Rejects step old (.norms norms)

theorem accepts_iff {step old : α} {trial : Measured α} :
    accepts step old trial = true ↔ Suffices step old trial := by
  cases trial <;> simp [accepts, Suffices, Measured.norms?]

theorem Rejects.of_accepts {step old : α} {trial : Measured α} (measured : trial ≠ .no)
    (h : ¬ accepts step old trial = true) : Rejects step old trial := by
  cases trial with
  | no => exact absurd rfl measured
  | failed => exact .failed
  | norms values =>
    cases finite : Scalar.isFinite values.two with
    | false => exact .infinite finite
    | true => exact .insufficient fun enough ↦ h (accepts_iff.2 ⟨values, rfl, finite, enough⟩)

end Newton

namespace Engine

variable {δ α : Type} [Scalar α] [DirectSolver α] [Device δ α] {n : Nat}

section

variable {e e' : Engine δ α n} {base direction : Vector α n} {old : α}

omit [Device δ α] in
theorem onRig_eq_ok {β : Type} {act : Step (Rig δ α n) β} {b : β} :
    onRig act e = .ok b e' ↔ act e.rig = .ok b e'.rig ∧ e'.newton = e.newton := by
  unfold onRig zoom
  cases act e.rig with
  | error stop r => exact ⟨nofun, nofun⟩
  | ok b r =>
    constructor
    · rintro ⟨⟩
      exact ⟨rfl, rfl⟩
    · rintro ⟨run, newton⟩
      obtain ⟨rig, driver⟩ := e'
      cases run
      cases newton
      rfl

/-- Trials at a step of one, of one half and so on, up to the `k`-th half.  All before the last were
turned down. -/
inductive Tries (base direction : Vector α n) (old : α) (e : Engine δ α n) :
    (k : Nat) → (ok : Bool) → Engine δ α n → Prop
  | first {ok : Bool} {e' : Engine δ α n}
      (run : onRig Rig.computeResidual (e.movedAlong base direction 1) = .ok ok e') :
      Tries base direction old e 0 ok e'
  | next {k : Nat} {ok ok' : Bool} {e' e'' : Engine δ α n}
      (tries : Tries base direction old e k ok e')
      (rejected : Newton.accepts (halved α k) old e'.iterate.measured = false)
      (run : onRig Rig.computeResidual (e'.movedAlong base direction (halved α (k + 1))) =
        .ok ok' e'') :
      Tries base direction old e (k + 1) ok' e''

theorem backtrack_tries {k : Nat} {ok : Bool} (tries : e.Tries base direction old k ok e')
    (more : Nat) :
    Ends (backtrack base direction old more (halved α k)) e'
      (fun step e'' ↦ ∃ m ok, m ≤ k + more ∧ step = halved α m ∧
        e.Tries base direction old m ok e'' ∧
        (Newton.accepts step old e''.iterate.measured = true ∨ m = k + more))
      (fun _ _ ↦ True) := by
  induction more generalizing k ok e' with
  | zero => exact ⟨k, ok, Nat.le_refl _, rfl, tries, .inr rfl⟩
  | succ more ih =>
    rw [backtrack]
    simp only [ends_bind, ends_get, ends_ite, ends_pure, ends_modifyTrack, Bool.not_eq_true]
    refine ⟨fun accepted ↦ ⟨k, ok, Nat.le_add_right _ _, rfl, tries, .inl accepted⟩,
      fun rejected ↦ ?_⟩
    refine .of_result (R := fun result ↦
      onRig Rig.computeResidual (e'.movedAlong base direction (halved α (k + 1))) = result) rfl ?_
      fun _ _ _ ↦ trivial
    intro ok' e'' run
    have further := ih (Tries.next tries rejected run)
    rw [Nat.add_right_comm] at further
    exact further

/-- Where a line search ends: at its first trial if there is no backtracking, and otherwise at one
that is accepted, or at the last there may be. -/
def SearchEnds (base direction : Vector α n) (old : α) (e : Engine δ α n) (step : α)
    (e' : Engine δ α n) : Prop :=
  ∃ k ok, k ≤ e.newton.options.maxLineSearchSteps ∧ step = halved α k ∧
    e.Tries base direction old k ok e' ∧
    (e.newton.options.lineSearch = .full → k = 0) ∧
    (e.newton.options.lineSearch = .backtrack →
      Newton.accepts step old e'.iterate.measured = true ∨
        k = e.newton.options.maxLineSearchSteps)

theorem lineSearch_tries (e : Engine δ α n) (base direction : Vector α n) (old : α) :
    Ends (lineSearch base direction old) e (e.SearchEnds base direction old)
      (fun _ _ ↦ True) := by
  unfold lineSearch
  simp only [ends_bind, ends_get, ends_modifyTrack]
  refine .of_result (R := fun result ↦
    onRig Rig.computeResidual (e.movedAlong base direction 1) = result) rfl ?_ fun _ _ _ ↦ trivial
  intro ok e₁ run
  have first : e.Tries base direction old 0 ok e₁ := .first run
  have newton : e₁.newton = e.newton := (onRig_eq_ok.1 run).2
  rw [newton]
  unfold SearchEnds
  cases e.newton.options.lineSearch with
  | full => exact ⟨0, ok, Nat.zero_le _, rfl, first, fun _ ↦ rfl, fun other ↦ (by cases other)⟩
  | backtrack =>
    refine (backtrack_tries first e.newton.options.maxLineSearchSteps).mono ?_ fun _ _ _ ↦ trivial
    rintro step e' ⟨k, ok', within, rfl, tries, settled⟩
    rw [Nat.zero_add] at within settled
    exact ⟨k, ok', within, rfl, tries, fun other ↦ (by cases other), fun _ ↦ settled⟩

end

/-! ## What a log shows of trials -/

variable {e e' e'' : Engine (Logged δ α) α n} {base direction : Vector α n} {old : α}

/-- A trial at `step`, which leads from `e` to `e'`: the iterate is moved, and its residual is
loaded once.  If that succeeds the residual is the iterate's, and its norms have been taken. -/
structure Trial (base direction : Vector α n) (step : α) (e : Engine (Logged δ α) α n) (ok : Bool)
    (e' : Engine (Logged δ α) α n) : Prop where
  newton : e'.newton = e.newton
  previous : e'.rig.store.previous = e.rig.store.previous
  point : e'.iterate.x = addScaled base step direction
  calls : e'.rig.calls =
    .residual (addScaled base step direction).toArray e.rig.store.previous.toArray ok :: e.rig.calls
  valid : e'.rig.isValid .residual = ok
  measured : e'.iterate.measured =
    if ok then .norms (e'.rig.store.communicator.normsOf e'.rig.store.residual.toArray) else .failed

/-- Moving an iterate and computing its residual is a trial. -/
theorem trial_run (e : Engine (Logged δ α) α n) (base direction : Vector α n) (step : α) :
    Ends (onRig Rig.computeResidual) (e.movedAlong base direction step)
      (fun ok e' ↦ e.Trial base direction step ok e') (fun _ _ ↦ True) := by
  have told := Rig.preserves_forward (K := fun d : Logged δ α ↦ d.calls = e.rig.calls) (n := n)
    (fun same _ _ ↦ same) (e.movedAlong base direction step).rig.computing rfl
  have stale : (e.movedAlong base direction step).rig.isValid .residual = false :=
    Bool.eq_false_iff.2 (Iterate.not_isValid_of_stale (q := .residual) rfl)
  rw [ends_onRig]
  refine .of_result (Rig.computeResidual_run _) ?_ fun _ _ _ ↦ trivial
  intro ok r' run
  have valid := run.valid
  cases run with
  | known known =>
    rw [stale] at known
    cases known
  | unloaded _ forwarded call failed =>
    have before := told.ok forwarded
    subst call
    exact ⟨rfl, rfl, rfl, congrArg₂ (Device.Call.residual _ _ · :: ·) failed before, valid, rfl⟩
  | loaded _ forwarded call good =>
    have before := told.ok forwarded
    subst call
    exact ⟨rfl, rfl, rfl, congrArg₂ (Device.Call.residual _ _ · :: ·) good before, valid, rfl⟩

/-- Trials at a step of one, of one half and so on, up to the `k`-th half.  All before the last were
turned down. -/
inductive Trials (base direction : Vector α n) (old : α) (e : Engine (Logged δ α) α n) :
    (k : Nat) → (ok : Bool) → Engine (Logged δ α) α n → Prop
  | first {ok : Bool} {e' : Engine (Logged δ α) α n} (trial : e.Trial base direction 1 ok e') :
      Trials base direction old e 0 ok e'
  | next {k : Nat} {ok ok' : Bool} {e' e'' : Engine (Logged δ α) α n}
      (trials : Trials base direction old e k ok e')
      (rejects : Newton.Rejects (halved α k) old e'.iterate.measured)
      (trial : e'.Trial base direction (halved α (k + 1)) ok' e'') :
      Trials base direction old e (k + 1) ok' e''

/-- The load of a trial. -/
def trialCall (base direction previous : Vector α n) (step : α) (ok : Bool) : Device.Call α :=
  .residual (addScaled base step direction).toArray previous.toArray ok

omit [Device δ α] in
theorem Trial.measured_ne_no {step : α} {ok : Bool} (trial : e.Trial base direction step ok e') :
    e'.iterate.measured ≠ .no := by
  rw [trial.measured]
  cases ok <;> exact nofun

namespace Trials

variable {k : Nat} {ok : Bool}

omit [Device δ α] in
theorem last (trials : e.Trials base direction old k ok e') :
    ∃ before : Engine (Logged δ α) α n, before.Trial base direction (halved α k) ok e' := by
  cases trials with
  | first trial => exact ⟨e, trial⟩
  | next _ _ trial => exact ⟨_, trial⟩

omit [Device δ α] in
theorem previous (trials : e.Trials base direction old k ok e') :
    e'.rig.store.previous = e.rig.store.previous := by
  induction trials with
  | first trial => exact trial.previous
  | next _ _ trial ih => exact trial.previous.trans ih

omit [Device δ α] in
/-- Every trial is made once. -/
theorem calls (trials : e.Trials base direction old k ok e') :
    ∃ loaded : Nat → Bool, loaded k = ok ∧ e'.rig.calls =
      ((List.range (k + 1)).reverse.map fun j ↦
        trialCall base direction e.rig.store.previous (halved α j) (loaded j)) ++ e.rig.calls := by
  induction trials with
  | @first ok e' trial => exact ⟨fun _ ↦ ok, rfl, trial.calls⟩
  | @next k ok ok' e' e'' trials _ trial ih =>
    obtain ⟨loaded, -, calls⟩ := ih
    refine ⟨Function.update loaded (k + 1) ok', Function.update_self .., ?_⟩
    rw [trial.calls, calls, trials.previous, List.range_succ (n := k + 1), List.reverse_append,
      List.reverse_singleton, List.singleton_append, List.map_cons, List.cons_append,
      Function.update_self]
    refine congrArg (_ :: · ++ _) (List.map_congr_left fun j mem ↦ ?_)
    rw [List.mem_reverse, List.mem_range] at mem
    rw [Function.update_of_ne (Nat.ne_of_lt mem)]

end Trials

/-- What the engines show that a line search goes through. -/
theorem Tries.trials {k : Nat} {ok : Bool} (tries : e.Tries base direction old k ok e') :
    e.Trials base direction old k ok e' := by
  induction tries with
  | first run => exact .first ((trial_run e base direction 1).ok run)
  | next _ rejected run ih =>
    obtain ⟨_, last⟩ := ih.last
    have rejects := Newton.Rejects.of_accepts last.measured_ne_no (Bool.eq_false_iff.1 rejected)
    exact .next ih rejects ((trial_run _ base direction _).ok run)

/-- **A line search tries one half after the other.**  It hands back the step of its last trial,
which is where the iterate is.  All trials before it were turned down, each was loaded once, and
nothing else was.  The last one has decreased the residual norm enough or is the last there may be;
without backtracking it is the first. -/
theorem lineSearch_trials (e : Engine (Logged δ α) α n) (base direction : Vector α n) (old : α) :
    Ends (lineSearch base direction old) e
      (fun step e' ↦ ∃ k ok, k ≤ e.newton.options.maxLineSearchSteps ∧ step = halved α k ∧
        (∀ {K : Type} [Field K] [LinearOrder K] [IsStrictOrderedRing K] (line : Scalar.Line K α),
          step = line.of ((1 / 2) ^ k)) ∧
        e.Trials base direction old k ok e' ∧
        e'.iterate.x = addScaled base step direction ∧
        e'.rig.isValid .residual = ok ∧
        (∃ loaded : Nat → Bool, loaded k = ok ∧ e'.rig.calls =
          ((List.range (k + 1)).reverse.map fun j ↦
            trialCall base direction e.rig.store.previous (halved α j) (loaded j)) ++ e.rig.calls) ∧
        (e.newton.options.lineSearch = .full → k = 0) ∧
        (e.newton.options.lineSearch = .backtrack →
          Newton.Suffices step old e'.iterate.measured ∨
            k = e.newton.options.maxLineSearchSteps))
      (fun _ _ ↦ True) := by
  refine (lineSearch_tries e base direction old).mono ?_ fun _ _ _ ↦ trivial
  rintro step e' ⟨k, ok, within, rfl, tries, full, settled⟩
  have trials := tries.trials
  obtain ⟨_, last⟩ := trials.last
  exact ⟨k, ok, within, rfl, fun line ↦ line.halved k, trials, last.point, last.valid, trials.calls,
    full, fun backtracks ↦ (settled backtracks).imp_left Newton.accepts_iff.1⟩

end Engine

end OperatingPoint
