import OperatingPoint.Continuation.Context
import OperatingPoint.Proofs.StepperRun

/-!
# Stops that any computation may come to

Two faults are raised by strategies alone: a strategy is attached where there is one already, and an
end value is wanted that is neither configured nor known.  A stop for any other reason is *routine*.
Computations, Newton's iteration, steppers and marches stop for routine reasons only, and so does
what is checked or read before a strategy begins.
-/

set_option autoImplicit false

namespace OperatingPoint

open Step

namespace Stop

/-- The stop of a strategy that is attached on top of another. -/
def Clashes (e : Stop) : Prop := ∃ new old, e = .fault (.dispatch (.attached new old))

/-- The stop of what needs an end value that is not there. -/
def LacksEnd (e : Stop) : Prop := ∃ name, e = .fault (.config (.noEnd name))

/-- A stop for a reason that has nothing to do with strategies. -/
def Routine : Stop → Prop
  | .fault (.dispatch (.attached _ _)) => False
  | .fault (.config (.noEnd _)) => False
  | _ => True

variable {e : Stop}

theorem Routine.not_clashes (h : e.Routine) : ¬ e.Clashes := by
  rintro ⟨new, old, rfl⟩
  exact h

theorem Routine.not_lacksEnd (h : e.Routine) : ¬ e.LacksEnd := by
  rintro ⟨name, rfl⟩
  exact h

end Stop

/-- A fault that makes a routine stop. -/
def Fault.Routine (cause : Fault) : Prop := Stop.Routine (.fault cause)

/-! ## What is checked beforehand -/

namespace Partition

theorem ofList_routine (indices : List Nat) (bound : Nat) :
    StopsOnly Fault.Routine (ofList indices bound) := by
  unfold ofList
  dsimp only
  split
  · exact .error trivial
  · exact .ok _

theorem check_routine (p : Partition) (n : Nat) (what : String) :
    StopsOnly Fault.Routine (p.check n what) := by
  unfold check
  split
  · exact .ok _
  · exact .error trivial

end Partition

theorem reserve_routine (words : Nat) : StopsOnly Stop.Routine (reserve words) :=
  reserve_stops fun _ ↦ trivial

theorem Store.sized_routine {α : Type} {n : Nat} (x : Array α) :
    StopsOnly Fault.Routine (sized x : Except Fault (Vector α n)) := by
  unfold sized
  split
  · exact .ok _
  · exact .error trivial

theorem InitialConditions.resolve_routine {δ α : Type} [Device δ α] (c : InitialConditions α)
    (device : δ) : StopsOnly Fault.Routine (c.resolve device) := by
  refine .bind (.mapM fun entry _ ↦ ?_) fun pairs _ ↦ ?_
  · split
    · exact .ok _
    · exact .error trivial
  · dsimp only
    split
    · exact .error trivial
    · exact .bind (Partition.ofList_routine _ _) fun _ _ ↦ .ok _

theorem ContinuationContext.build_routine {δ α : Type} [Device δ α] (device : δ)
    (modes : List (ModeOptions α)) (conditions : InitialConditions α) :
    StopsOnly Stop.Routine (build device modes conditions) := by
  refine .bind ?_ fun _ _ ↦ .bind (.ofFault ?_) fun _ _ ↦ .ok _
  · unfold voltageOf
    split
    · exact .ofFault (Partition.ofList_routine _ _)
    · exact .bind (reserve_routine _) fun _ _ ↦ .ok _
  · unfold resolveConditions
    split
    · exact .ok _
    · exact (conditions.resolve_routine device).map _

section

variable {α : Type} [Scalar α] {n : Nat}

theorem Augmentation.validate_routine (n : Nat) (a : Augmentation α) :
    StopsOnly Fault.Routine (a.validate n) := by
  cases a with
  | clampWithGmin g c =>
    exact .bind (g.partition.check_routine n _) fun _ _ ↦ c.partition.check_routine n _
  | gmin | pseudoTransient | clamp | seed => exact Partition.check_routine _ n _

/-- Where there is no strategy, attaching one does not clash. -/
theorem Track.attach_routine {t : Track α n} (bare : t.overlay.strategy = none)
    (a : Augmentation α) : StopsOnly Fault.Routine (t.attach a) := by
  unfold attach
  rw [bare]
  exact .bind (a.validate_routine n) fun _ _ ↦ .ok _

theorem PseudoTime.ofStep_routine (voltage : Partition) (step minStep maxStep voltageScale
    otherScale : α) : StopsOnly Stop.Routine
      (ofStep voltage n step minStep maxStep voltageScale otherScale) := by
  refine .bind (.bind (reserve_routine n) fun _ _ ↦ .ok _) fun _ _ ↦ ?_
  split
  · exact .ok _
  · exact .error trivial

theorem Overlay.setProgress_routine (o : Overlay α) (value : α) :
    StopsOnly Fault.Routine (o.setProgress value) := by
  unfold setProgress
  split
  · rename_i a _
    refine .bind ?_ fun _ _ ↦ .ok _
    cases a with
    | clamp | seed => exact .error trivial
    | gmin | clampWithGmin | pseudoTransient => exact .ok _
  · exact .error trivial

theorem Overlay.setBlend_routine (o : Overlay α) (value : α) :
    StopsOnly Fault.Routine (o.setBlend value) := by
  unfold setBlend
  split
  · exact .ok _
  · exact .error trivial

end

/-! ## Computations -/

section

variable {δ α : Type} [Scalar α] [DirectSolver α] [Device δ α] {n : Nat}

namespace Rig

/-- Whatever is forwarded, the reason for a stop is routine. -/
theorem forward_routine : Guards (forward : Step (Rig δ α n) Unit) (fun _ ↦ True) Stop.Routine := by
  have one : ∀ (name : String) (value : α),
      Guards (forwardOne name value : Step (Rig δ α n) Unit) (fun _ ↦ True) Stop.Routine := by
    intro name value
    refine .bind .get fun r ↦ .ite (.bind (.orFault ?_) fun _ ↦ .set trivial) ?_
    · split
      · exact r.track.overlay.setProgress_routine value
      · exact r.track.overlay.setBlend_routine value
    · exact .bind .get fun _ ↦ .bind (.set trivial) fun _ ↦ .ite (.pure _) (.throw trivial)
  have all : ∀ entries : List (String × α),
      Guards (forwardAll entries : Step (Rig δ α n) Unit) (fun _ ↦ True) Stop.Routine := by
    intro entries
    induction entries with
    | nil => exact .pure _
    | cons entry rest ih => exact .bind (one entry.1 entry.2) fun _ ↦ ih
  exact .bind .get fun r ↦ .ite (all _) (.pure _)

theorem computeResidual_routine (r : Rig δ α n) :
    Ends computeResidual r (fun _ _ ↦ True) (fun e _ ↦ e.Routine) := by
  refine .of_result (computeResidual_run r) (fun _ _ _ ↦ trivial) ?_
  intro e r' run
  cases run with
  | reentered => trivial
  | refused _ forwarded => exact ((forward_routine r.computing trivial).error forwarded).1
  | stuck _ _ _ _ augmented => exact Overlay.augmentResidual_stops (fun _ ↦ trivial) _ _ _ augmented

theorem computeJacobian_routine (r : Rig δ α n) :
    Ends computeJacobian r (fun _ _ ↦ True) (fun e _ ↦ e.Routine) := by
  refine .of_result (computeJacobian_run r) (fun _ _ _ ↦ trivial) ?_
  intro e r' run
  cases run with
  | reentered => trivial
  | refused _ _ run => exact (computeResidual_routine r.outdated).error run
  | stuck _ _ _ _ augmented => exact Overlay.augmentJacobian_stops (fun _ ↦ trivial) _ _ _ augmented

omit [Device δ α] in
theorem computeNewton_routine (r : Rig δ α n) (mayReuse : Bool) :
    Ends (computeNewton mayReuse) r (fun _ _ ↦ True) (fun e _ ↦ e.Routine) := by
  refine .of_result (computeNewton_run r mayReuse) (fun _ _ _ ↦ trivial) ?_
  intro e r' run
  cases run with
  | noResidual => trivial
  | noJacobian => trivial
  | stopped _ _ _ other =>
    cases e with
    | fault cause => exact absurd rfl (other cause)
    | breach | endless => trivial

variable {I : Rig δ α n → Prop} {Q : Stop → Prop}

/-- Whatever else is known of the stops of a Newton driver, they are routine. -/
theorem Keeps.routine (keeps : Keeps I Q) : Keeps I Stop.Routine where
  rest := keeps.rest
  move := keeps.move
  residual h := ((keeps.residual h).and (computeResidual_routine _)).mono
    (fun _ _ kept ↦ kept.1) fun _ _ kept ↦ ⟨kept.2, kept.1.2⟩
  jacobian h := ((keeps.jacobian h).and (computeJacobian_routine _)).mono
    (fun _ _ kept ↦ kept.1) fun _ _ kept ↦ ⟨kept.2, kept.1.2⟩
  newton h valid mayReuse ready :=
    ((keeps.newton h valid mayReuse ready).and (computeNewton_routine _ mayReuse)).mono
      (fun _ _ kept ↦ kept.1) fun _ _ kept ↦ ⟨kept.2, kept.1.2⟩

theorem KeepsSteps.routine (keeps : KeepsSteps I Q) : KeepsSteps I Stop.Routine where
  toKeeps := keeps.toKeeps.routine
  parameter := keeps.parameter
  accept := keeps.accept
  abandon := keeps.abandon

end Rig

end

end OperatingPoint
