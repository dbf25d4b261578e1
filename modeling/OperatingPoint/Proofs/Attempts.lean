import OperatingPoint.Proofs.StepperRun

/-!
# The attempts of a stepper

A run of a stepper is a sequence of attempts.  In each of them the parameters are set to a lead
value, Newton's iteration solves, and the device layer is told what came of it.  `Stepper.attempts`
is that sequence, taken down beside the run.

`Stepper.Course` and `Stepper.Opening` have one case for each way in which an attempt leads on to
the next one or to an end.  What is said of a whole run is proved by induction on its course.
-/

set_option autoImplicit false

namespace OperatingPoint

open Step

variable {δ α : Type} [Scalar α] [DirectSolver α] {n : Nat}

namespace Stepper

/-- An attempt of a stepper: a lead value, and the engine at which the parameters are set to it. -/
structure Attempt (s : Stepper α) (δ : Type) (n : Nat) where
  value : α
  before : Engine δ α n

/-- An engine with its parameters set to a lead value. -/
def ready (s : Stepper α) (value : α) (e : Engine δ α n) : Engine δ α n :=
  { e with rig := { e.rig with track := s.setAll value e.rig.track } }

/-- An engine that has gone back to a solution, and to the parameters of a lead value. -/
def wentBack (s : Stepper α) (value : α) (x : Vector α n) (e : Engine δ α n) : Engine δ α n :=
  { e with rig := { e.rig with track := s.setAll value (e.rig.track.setX x) } }

end Stepper

variable [Device δ α]

/-- The state that a result leaves. -/
def Step.left {σ β : Type} : EStateM.Result Stop σ β → σ
  | .ok _ s => s
  | .error _ s => s

omit [Scalar α] [DirectSolver α] [Device δ α] in
theorem Step.Ends.of_left {σ β : Type} {act : Step σ β} {s : σ} {P : σ → Prop}
    (h : P (left (act s))) : Ends act s (fun _ s' ↦ P s') (fun _ s' ↦ P s') :=
  .of_result (R := fun result ↦ P (left result)) h (fun _ _ kept ↦ kept) fun _ _ kept ↦ kept

/-! ## What the device layer is told -/

namespace Rig

/-- A rig whose point has been accepted. -/
def accepted (r : Rig δ α n) : Rig δ α n where
  store := { r.store with device := Device.accept r.store.device r.track.x.toArray }
  track := { r.track with captured := some r.track.iterate.generation }

/-- A rig whose point has been given up. -/
def abandoned (r : Rig δ α n) : Rig δ α n :=
  { r with store := { r.store with device := Device.abandon r.store.device } }

/-- A rig whose point has been accepted, unless it had been already. -/
def handedOver (r : Rig δ α n) : Rig δ α n :=
  if r.track.captured = some r.track.iterate.generation then r else r.accepted

theorem succeed_eq (r : Rig δ α n) : Rig.succeed r = .ok ⟨⟩ r.handedOver := by
  show (if r.track.captured ≠ some r.track.iterate.generation then set r.accepted else pure ⟨⟩ :
    Step (Rig δ α n) Unit) r = _
  unfold handedOver
  by_cases known : r.track.captured = some r.track.iterate.generation
  · rw [if_pos known, if_neg (Decidable.not_not.2 known)]
    rfl
  · rw [if_neg known, if_pos known]
    rfl

/-- What holds of a rig, and wherever its point is accepted. -/
theorem handedOver_keeps {P : Rig δ α n → Prop} {r : Rig δ α n} (h : P r) (h' : P r.accepted) :
    P r.handedOver := by
  unfold handedOver
  split
  · exact h
  · exact h'

end Rig

/-- An engine whose point has been handed over as an accepted one. -/
def Engine.succeeded (e : Engine δ α n) : Engine δ α n := { e with rig := e.rig.handedOver }

/-- An engine whose point has been given up. -/
def Engine.failed (e : Engine δ α n) : Engine δ α n := { e with rig := e.rig.abandoned }

namespace Stepper

variable {s : Stepper α} {e e' : Engine δ α n} {value : α}

namespace Attempt

/-- How the Newton solve of an attempt ends. -/
def solve (a : s.Attempt δ n) : EStateM.Result Stop (Engine δ α n) (Outcome α) :=
  Engine.solve (s.ready a.value a.before)

/-- The outcome of an attempt, unless it stops. -/
def outcome? (a : s.Attempt δ n) : Option (Outcome α) :=
  match a.solve with
  | .ok outcome _ => some outcome
  | .error _ _ => none

/-- The engine as the Newton solve leaves it, before the device layer is told what came of it. -/
def left (a : s.Attempt δ n) : Engine δ α n := Step.after Engine.solve (s.ready a.value a.before)

/-- An attempt that has found a solution. -/
def converged (a : s.Attempt δ n) : Bool := a.outcome?.any Outcome.converged

/-- An attempt that has ended without a solution. -/
def unconverged (a : s.Attempt δ n) : Bool := a.outcome?.any fun outcome ↦ !outcome.converged

/-- An attempt that has found a solution at the end value. -/
def arrives (a : s.Attempt δ n) : Bool := a.converged && a.value == s.stop

variable {a : s.Attempt δ n} {outcome : Outcome α} {stop : Stop}

theorem outcome?_of_ok (h : a.solve = .ok outcome e') : a.outcome? = some outcome := by
  rw [outcome?, h]

theorem outcome?_of_error (h : a.solve = .error stop e') : a.outcome? = none := by
  rw [outcome?, h]

theorem converged_of_ok (h : a.solve = .ok outcome e') : a.converged = outcome.converged := by
  rw [converged, outcome?_of_ok h, Option.any_some]

theorem unconverged_of_ok (h : a.solve = .ok outcome e') :
    a.unconverged = !outcome.converged := by
  rw [unconverged, outcome?_of_ok h, Option.any_some]

theorem unconverged_of_error (h : a.solve = .error stop e') : a.unconverged = false := by
  rw [unconverged, outcome?_of_error h, Option.any_none]

theorem converged_of_error (h : a.solve = .error stop e') : a.converged = false := by
  rw [converged, outcome?_of_error h, Option.any_none]

theorem left_of_ok (h : a.solve = .ok outcome e') : a.left = e' := by
  rw [left, Step.after, show Engine.solve (s.ready a.value a.before) = _ from h]

theorem left_of_error (h : a.solve = .error stop e') : a.left = e' := by
  rw [left, Step.after, show Engine.solve (s.ready a.value a.before) = _ from h]

end Attempt

/-! A solve at a lead value is an attempt, and what the device layer is told of it. -/

section

variable {outcome : Outcome α} {stop : Stop}

theorem solveAt_eq (s : Stepper α) (value : α) (e : Engine δ α n) :
    s.solveAt value e = (do
      let outcome ← Engine.solve
      if outcome.converged then Engine.onRig Rig.succeed else Engine.onRig Rig.fail
      return outcome : Step (Engine δ α n) (Outcome α)) (s.ready value e) := rfl

theorem solveAt_of_error (solved : (⟨value, e⟩ : s.Attempt δ n).solve = .error stop e') :
    s.solveAt value e = .error stop e' := by
  rw [solveAt_eq]
  exact bind_of_error solved

theorem solveAt_of_converged (solved : (⟨value, e⟩ : s.Attempt δ n).solve = .ok outcome e')
    (converged : outcome.converged = true) :
    s.solveAt value e = .ok outcome e'.succeeded := by
  have told : Engine.onRig Rig.succeed e' = .ok ⟨⟩ e'.succeeded := by
    show Step.zoom _ _ _ _ = _
    rw [Step.zoom, Rig.succeed_eq]
    rfl
  rw [solveAt_eq, bind_of_ok solved, if_pos converged]
  exact bind_of_ok told

theorem solveAt_of_unconverged (solved : (⟨value, e⟩ : s.Attempt δ n).solve = .ok outcome e')
    (unconverged : outcome.converged = false) :
    s.solveAt value e = .ok outcome e'.failed := by
  rw [solveAt_eq, bind_of_ok solved, unconverged]
  rfl

end

/-! ## The sequence of attempts -/

/-- The attempts that `Stepper.attempt` makes. -/
def attemptsFrom (s : Stepper α) : (attempts : Nat) → (step : α) → (x : Vector α n) →
    (value : α) → Engine δ α n → List (s.Attempt δ n)
  | 0, _, _, _, _ => []
  | attempts + 1, step, x, value, e =>
    let ahead := s.next value step
    ⟨ahead, e⟩ :: match s.solveAt ahead e with
      | .error _ _ => []
      | .ok outcome e' =>
        if outcome.converged then
          if ahead == s.stop then []
          else attemptsFrom s attempts (Scalar.min (step * s.lead.growthFactor) s.lead.maxStep)
            e'.iterate.x ahead e'
        else
          let step := step * 0.5
          if step < s.lead.minStep then []
          else attemptsFrom s attempts step x value (s.wentBack value x e')

/-- An engine that forwards its parameters. -/
def forwarding (e : Engine δ α n) : Engine δ α n :=
  { e with rig := { e.rig with track := e.rig.track.setForwarding true } }

/-- The attempts of a run. -/
def attempts (s : Stepper α) (e : Engine δ α n) : List (s.Attempt δ n) :=
  let start := s.lead.start
  ⟨start, forwarding e⟩ :: match s.solveAt start (forwarding e) with
    | .error _ _ => []
    | .ok outcome e' =>
      if !outcome.converged then []
      else if start == s.stop then []
      else s.attemptsFrom s.lead.maxSteps
        (Scalar.min (Scalar.abs s.lead.initialStep) s.lead.maxStep) e'.iterate.x start e'

/-- A report with one more accepted point. -/
def accepted (report : ContinuationReport α) (value : α) (outcome : Outcome α) :
    ContinuationReport α :=
  { report with accepted := report.accepted + 1, value := value, last := some outcome }

/-- A report with one more rejected point. -/
def rejected (report : ContinuationReport α) (outcome : Outcome α) : ContinuationReport α :=
  { report with rejected := report.rejected + 1, last := some outcome }

/-- How attempts go on from the last accepted solution, and how they end. -/
inductive Course (s : Stepper α) : Nat → α → Vector α n → ContinuationReport α → Engine δ α n →
    List (s.Attempt δ n) →
    EStateM.Result Stop (Engine δ α n) (ContinuationReport α) → Prop
  /-- There are no attempts left. -/
  | usedUp {step x report e} :
      Course s 0 step x report e [] (.ok { report with status := .maxSteps } e)
  | stopped {attempts step x report e stop e'} {a : s.Attempt δ n}
      (here : a = ⟨s.next report.value step, e⟩) (solved : a.solve = .error stop e') :
      Course s (attempts + 1) step x report e [a] (.error stop e')
  /-- The end value has been reached. -/
  | arrived {attempts step x report e outcome e'} {a : s.Attempt δ n}
      (here : a = ⟨s.next report.value step, e⟩) (solved : a.solve = .ok outcome e')
      (converged : outcome.converged = true) (there : (a.value == s.stop) = true) :
      Course s (attempts + 1) step x report e [a]
        (.ok { accepted report a.value outcome with status := .finished } e'.succeeded)
  /-- A point on the way has been accepted. -/
  | onward {attempts step x report e outcome e' rest result} {a : s.Attempt δ n}
      (here : a = ⟨s.next report.value step, e⟩) (solved : a.solve = .ok outcome e')
      (converged : outcome.converged = true) (short : (a.value == s.stop) = false)
      (course : Course s attempts (Scalar.min (step * s.lead.growthFactor) s.lead.maxStep)
        e'.succeeded.iterate.x (accepted report a.value outcome) e'.succeeded rest result) :
      Course s (attempts + 1) step x report e (a :: rest) result
  /-- A point has been rejected, and the step cannot be halved any more. -/
  | givenUp {attempts step x report e outcome e'} {a : s.Attempt δ n}
      (here : a = ⟨s.next report.value step, e⟩) (solved : a.solve = .ok outcome e')
      (unconverged : outcome.converged = false) (small : step * 0.5 < s.lead.minStep) :
      Course s (attempts + 1) step x report e [a]
        (.ok { rejected report outcome with status := .failed }
          (s.wentBack report.value x e'.failed))
  /-- A point has been rejected, and the next one is nearer. -/
  | back {attempts step x report e outcome e' rest result} {a : s.Attempt δ n}
      (here : a = ⟨s.next report.value step, e⟩) (solved : a.solve = .ok outcome e')
      (unconverged : outcome.converged = false) (large : ¬ step * 0.5 < s.lead.minStep)
      (course : Course s attempts (step * 0.5) x (rejected report outcome)
        (s.wentBack report.value x e'.failed) rest result) :
      Course s (attempts + 1) step x report e (a :: rest) result

/-- How a run begins: with an attempt at the start. -/
inductive Opening (s : Stepper α) (e : Engine δ α n) : List (s.Attempt δ n) →
    EStateM.Result Stop (Engine δ α n) (ContinuationReport α) → Prop
  | stopped {a : s.Attempt δ n} {stop e'} (here : a = ⟨s.lead.start, forwarding e⟩)
      (solved : a.solve = .error stop e') : Opening s e [a] (.error stop e')
  /-- There is no solution at the start. -/
  | unsolved {a : s.Attempt δ n} {outcome e'} (here : a = ⟨s.lead.start, forwarding e⟩)
      (solved : a.solve = .ok outcome e') (unconverged : outcome.converged = false) :
      Opening s e [a] (.ok ⟨.failed, 0, 0, s.lead.start, some outcome⟩ e'.failed)
  /-- The start is the end. -/
  | arrived {a : s.Attempt δ n} {outcome e'} (here : a = ⟨s.lead.start, forwarding e⟩)
      (solved : a.solve = .ok outcome e') (converged : outcome.converged = true)
      (there : (a.value == s.stop) = true) :
      Opening s e [a] (.ok ⟨.finished, 1, 0, s.lead.start, some outcome⟩ e'.succeeded)
  | onward {a : s.Attempt δ n} {outcome e' rest result}
      (here : a = ⟨s.lead.start, forwarding e⟩) (solved : a.solve = .ok outcome e')
      (converged : outcome.converged = true) (short : (a.value == s.stop) = false)
      (course : s.Course s.lead.maxSteps
        (Scalar.min (Scalar.abs s.lead.initialStep) s.lead.maxStep) e'.succeeded.iterate.x
        ⟨.failed, 1, 0, s.lead.start, some outcome⟩ e'.succeeded rest result) :
      Opening s e (a :: rest) result

theorem course (s : Stepper α) (attempts : Nat) (step : α) (x : Vector α n)
    (report : ContinuationReport α) (e : Engine δ α n) :
    s.Course attempts step x report e (s.attemptsFrom attempts step x report.value e)
      (s.attempt attempts step x report e) := by
  induction attempts generalizing step x report e with
  | zero => exact .usedUp
  | succ attempts ih =>
    rw [attempt, attemptsFrom]
    cases solved : (⟨s.next report.value step, e⟩ : s.Attempt δ n).solve with
    | error stop e' =>
      have run := solveAt_of_error solved
      rw [bind_of_error run, run]
      exact .stopped rfl solved
    | ok outcome e' =>
      cases converged : outcome.converged with
      | true =>
        have run := solveAt_of_converged solved converged
        rw [bind_of_ok run, run]
        dsimp only
        rw [if_pos converged, if_pos converged]
        cases there : s.next report.value step == s.stop with
        | true => exact .arrived rfl solved converged there
        | false => exact .onward rfl solved converged there (ih _ _ (accepted report _ outcome) _)
      | false =>
        have run := solveAt_of_unconverged solved converged
        rw [bind_of_ok run, run]
        dsimp only
        rw [converged, if_neg Bool.false_ne_true, if_neg Bool.false_ne_true]
        by_cases small : step * 0.5 < s.lead.minStep
        · rw [if_pos small, if_pos small]
          exact .givenUp rfl solved converged small
        · rw [if_neg small, if_neg small]
          exact .back rfl solved converged small (ih _ _ (rejected report outcome) _)

/-- Every run has its opening. -/
theorem opening (s : Stepper α) (e : Engine δ α n) : s.Opening e (s.attempts e) (s.run e) := by
  have start : s.run e = (do
      let outcome ← s.solveAt s.lead.start
      let report : ContinuationReport α := ⟨.failed, 0, 0, s.lead.start, some outcome⟩
      if !outcome.converged then return report
      let report := { report with accepted := 1 }
      if s.lead.start == s.stop then return { report with status := .finished }
      let step := Scalar.min (Scalar.abs s.lead.initialStep) s.lead.maxStep
      s.attempt s.lead.maxSteps step (← get).iterate.x report :
      Step (Engine δ α n) (ContinuationReport α)) (forwarding e) := rfl
  rw [start, attempts]
  cases solved : (⟨s.lead.start, forwarding e⟩ : s.Attempt δ n).solve with
  | error stop e' =>
    have run := solveAt_of_error solved
    rw [bind_of_error run, run]
    exact .stopped rfl solved
  | ok outcome e' =>
    cases converged : outcome.converged with
    | false =>
      have run := solveAt_of_unconverged solved converged
      rw [bind_of_ok run, run]
      dsimp only
      rw [converged]
      exact .unsolved rfl solved converged
    | true =>
      have run := solveAt_of_converged solved converged
      rw [bind_of_ok run, run]
      dsimp only
      rw [converged]
      cases there : s.lead.start == s.stop with
      | true => exact .arrived rfl solved converged there
      | false => exact .onward rfl solved converged there (s.course _ _ _ _ _)

/-! ## The last attempt -/

omit [Scalar α] [DirectSolver α] [Device δ α] in
theorem elim_getLast?_cons {β γ : Type} (b : β) (rest : List β) (empty : γ) (f : β → γ) :
    (b :: rest).getLast?.elim empty f = rest.getLast?.elim (f b) f := by
  rw [List.getLast?_cons, Option.elim_some]
  cases rest.getLast? <;> rfl

/-- Attempts come to the end of the way if the last of them does, and its outcome is the last. -/
theorem Course.last {attempts : Nat} {step : α} {x : Vector α n}
    {report report' : ContinuationReport α} {trace : List (s.Attempt δ n)}
    (h : s.Course attempts step x report e trace (.ok report' e')) :
    report'.finished = trace.getLast?.elim false Attempt.arrives ∧
      report'.last = trace.getLast?.elim report.last Attempt.outcome? := by
  generalize same : EStateM.Result.ok report' e' = result at h
  induction h with
  | usedUp =>
    cases same
    exact ⟨rfl, rfl⟩
  | stopped => cases same
  | arrived here solved converged there =>
    cases same
    rw [List.getLast?_singleton, Option.elim_some, Option.elim_some, Attempt.arrives,
      Attempt.converged_of_ok solved, converged, there, Attempt.outcome?_of_ok solved]
    exact ⟨rfl, rfl⟩
  | onward here solved converged short course ih =>
    rw [elim_getLast?_cons, elim_getLast?_cons, Attempt.arrives, short, Bool.and_false,
      Attempt.outcome?_of_ok solved]
    exact ih same
  | givenUp here solved unconverged small =>
    cases same
    rw [List.getLast?_singleton, Option.elim_some, Option.elim_some, Attempt.arrives,
      Attempt.converged_of_ok solved, unconverged, Attempt.outcome?_of_ok solved]
    exact ⟨rfl, rfl⟩
  | back here solved unconverged large course ih =>
    rw [elim_getLast?_cons, elim_getLast?_cons, Attempt.arrives,
      Attempt.converged_of_ok solved, unconverged, Bool.false_and, Attempt.outcome?_of_ok solved]
    exact ih same

/-- A run has come to the end of its way if its last attempt has, and its last outcome is that of
its last attempt. -/
theorem run_last {report : ContinuationReport α} (run : s.run e = .ok report e') :
    report.finished = (s.attempts e).getLast?.elim false Attempt.arrives ∧
      report.last = (s.attempts e).getLast?.elim none Attempt.outcome? := by
  have opening := s.opening e
  rw [run] at opening
  generalize s.attempts e = trace at opening ⊢
  cases opening with
  | unsolved here solved unconverged =>
    rw [List.getLast?_singleton, Option.elim_some, Option.elim_some, Attempt.arrives,
      Attempt.converged_of_ok solved, unconverged, Attempt.outcome?_of_ok solved]
    exact ⟨rfl, rfl⟩
  | arrived here solved converged there =>
    rw [List.getLast?_singleton, Option.elim_some, Option.elim_some, Attempt.arrives,
      Attempt.converged_of_ok solved, converged, there, Attempt.outcome?_of_ok solved]
    exact ⟨rfl, rfl⟩
  | onward here solved converged short course =>
    rw [elim_getLast?_cons, elim_getLast?_cons, Attempt.arrives, short, Bool.and_false,
      Attempt.outcome?_of_ok solved]
    exact course.last

/-! ## What is kept -/

variable {I : Rig δ α n → Prop} {Q : Stop → Prop}

theorem ready_keeps (keeps : Rig.KeepsSteps I Q) (h : I e.rig) (value : α) :
    I (s.ready value e).rig :=
  setAll_keeps keeps h value

/-- The solve of an attempt keeps what a stepper keeps. -/
theorem Attempt.solve_keeps (keeps : Rig.KeepsSteps I Q) {a : s.Attempt δ n} (h : I a.before.rig)
    {outcome : Outcome α} (run : a.solve = .ok outcome e') : I e'.rig :=
  ((Engine.solve_keeps keeps.toKeeps (ready_keeps keeps h a.value)).ok run).arrives.keeps

/-- What a stepper keeps holds wherever the solve of an attempt sets out. -/
theorem Course.keeps (keeps : Rig.KeepsSteps I Q) {attempts : Nat} {step : α} {x : Vector α n}
    {report : ContinuationReport α} {trace : List (s.Attempt δ n)}
    {result : EStateM.Result Stop (Engine δ α n) (ContinuationReport α)}
    (course : s.Course attempts step x report e trace result) (h : I e.rig) :
    ∀ a ∈ trace, I (s.ready a.value a.before).rig := by
  induction course with
  | usedUp => exact List.forall_mem_nil _
  | stopped here | arrived here | givenUp here =>
    subst here
    exact List.forall_mem_singleton.2 (ready_keeps keeps h _)
  | onward here run _ _ _ ih =>
    subst here
    have kept := Attempt.solve_keeps keeps h run
    exact List.forall_mem_cons.2 ⟨ready_keeps keeps h _,
      ih (Rig.handedOver_keeps kept (keeps.accept kept))⟩
  | back here run _ _ _ ih =>
    subst here
    have kept := keeps.abandon (Attempt.solve_keeps keeps h run)
    exact List.forall_mem_cons.2 ⟨ready_keeps keeps h _,
      ih (setAll_keeps keeps (keeps.move kept _) _)⟩

theorem attempts_keep (keeps : Rig.KeepsSteps I Q) (h : I (forwarding e).rig) :
    ∀ a ∈ s.attempts e, I (s.ready a.value a.before).rig := by
  have opening := s.opening e
  generalize s.attempts e = trace, s.run e = result at opening
  cases opening with
  | stopped here | unsolved here | arrived here =>
    subst here
    exact List.forall_mem_singleton.2 (ready_keeps keeps h _)
  | onward here run _ _ course =>
    subst here
    have kept := Attempt.solve_keeps keeps h run
    exact List.forall_mem_cons.2 ⟨ready_keeps keeps h _,
      course.keeps keeps (Rig.handedOver_keeps kept (keeps.accept kept))⟩

end Stepper

end OperatingPoint
