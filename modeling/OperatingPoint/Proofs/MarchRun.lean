import OperatingPoint.PseudoTransient
import OperatingPoint.Proofs.RoutineStops

/-!
# The march in pseudo-time, step by step

A march computes, moves, and changes the step in pseudo-time.  What a Newton driver keeps, and a
change of the step keeps, is kept by the whole march, however it ends.  If it stops, the reason is a
routine one.
-/

set_option autoImplicit false

namespace OperatingPoint

open Step

namespace PseudoTime

variable {α : Type} [Scalar α]

theorem accept_frame (p : PseudoTime α) (norm : α) :
    (Augmentation.pseudoTransient (p.accept norm)).frame =
      (Augmentation.pseudoTransient p).frame := by
  have noted : ∀ grown : PseudoTime α,
      (Augmentation.pseudoTransient grown).frame = (Augmentation.pseudoTransient p).frame →
      (Augmentation.pseudoTransient { grown with lastNorm := some norm }).frame =
        (Augmentation.pseudoTransient p).frame := fun _ same ↦ same
  refine noted _ ?_
  split
  · split <;> rfl
  · rfl

theorem halve_frame {p p' : PseudoTime α} (h : p.halve = some p') :
    (Augmentation.pseudoTransient p').frame = (Augmentation.pseudoTransient p).frame := by
  unfold halve at h
  split at h
  · cases h
  · cases h
    rfl

end PseudoTime

variable {δ α : Type} [Scalar α] [DirectSolver α] {n : Nat} [Device δ α]

/-- A property of rigs that a march keeps. -/
structure Rig.KeepsMarch (I : Rig δ α n → Prop) (Q : Stop → Prop) : Prop extends
    Rig.Keeps I Q where
  pseudo : ∀ {r}, I r → ∀ {p p'}, r.track.pseudoTime? = .ok p →
    (Augmentation.pseudoTransient p').frame = (Augmentation.pseudoTransient p).frame →
      I { r with track := r.track.putPseudoTime p' }

/-- Solving for a direction keeps what the driver keeps, whatever is missing. -/
theorem Rig.Keeps.preserves_newton {I : Rig δ α n → Prop} {Q : Stop → Prop}
    (keeps : Rig.Keeps I Q) (mayReuse : Bool) : Preserves (Rig.computeNewton mayReuse) I := by
  intro r h
  by_cases ready : r.isValid .residual = true ∧
      (r.reuses mayReuse = true ∨ r.isValid .jacobian = true)
  · exact (keeps.newton h ready.1 mayReuse ready.2).mono (fun _ _ kept ↦ kept)
      fun _ _ kept ↦ kept.2
  · refine .of_result (Rig.computeNewton_run r mayReuse) ?_ ?_
    · intro ok r' run
      cases run with
      | known => exact h
      | solved _ valid ready' => exact absurd ⟨valid, ready'⟩ ready
      | refused _ valid ready' => exact absurd ⟨valid, ready'⟩ ready
    · intro stop r' run
      cases run with
      | noResidual => exact h
      | noJacobian => exact h
      | stopped _ valid ready' => exact absurd ⟨valid, ready'⟩ ready

theorem Rig.Keeps.guards_newton {I : Rig δ α n → Prop} {Q : Stop → Prop}
    (keeps : Rig.Keeps I Q) (mayReuse : Bool) :
    Guards (Rig.computeNewton mayReuse) I Stop.Routine := fun r h ↦
  ((keeps.preserves_newton mayReuse r h).and (Rig.computeNewton_routine r mayReuse)).mono
    (fun _ _ kept ↦ kept.1) fun _ _ kept ↦ ⟨kept.2, kept.1⟩

omit [DirectSolver α] [Device δ α] in
theorem Track.pseudoTime?_routine (t : Track α n) : StopsOnly Fault.Routine t.pseudoTime? := by
  unfold pseudoTime?
  split
  · rename_i a _
    cases a with
    | pseudoTransient => exact .ok _
    | gmin | clamp | clampWithGmin | seed => exact .error trivial
  · exact .error trivial

omit [Scalar α] [Device δ α] in
theorem Iterate.newton_routine (it : Iterate α n) (s : Store δ α n) :
    StopsOnly Fault.Routine (it.newton s) := by
  refine .bind ?_ fun _ _ ↦ .ok _
  unfold require
  split
  · exact .ok _
  · exact .error trivial

namespace March

variable {I : Rig δ α n → Prop} {Q : Stop → Prop}

omit [Device δ α] in
theorem guards_reportAt (status : MarchStatus) (steps : Nat) (maxResidual : α) :
    Guards (reportAt (δ := δ) (n := n) status steps maxResidual) I Stop.Routine :=
  .bind .get fun _ ↦ .pure _

theorem guards_evaluates (keeps : Rig.KeepsMarch I Q) : Guards evaluates I Stop.Routine :=
  .bind (fun _ h ↦ keeps.toKeeps.routine.residual h) fun _ ↦
    .ite (.bind .get fun _ ↦ .pure _) (.pure _)

theorem guards_acceptPoint (keeps : Rig.KeepsMarch I Q) : Guards acceptPoint I Stop.Routine := by
  intro r h
  unfold acceptPoint changeStep
  simp only [ends_bind, ends_get, ends_orFault, ends_set]
  refine ⟨fun t changed ↦ ?_, fun cause refused ↦ ⟨?_, h⟩⟩
  · obtain ⟨p, there, same⟩ := bind_eq_ok.1 changed
    cases same
    exact keeps.pseudo h there (p.accept_frame _)
  · exact StopsOnly.bind r.track.pseudoTime?_routine (fun _ _ ↦ .ok _) cause refused

theorem guards_cut (keeps : Rig.KeepsMarch I Q) : Guards cut I Stop.Routine := by
  intro r h
  unfold cut
  simp only [ends_bind, ends_get, ends_orFault, ends_set, ends_pure, Prod.forall]
  refine ⟨fun t halved changed ↦ ?_, fun cause refused ↦ ⟨?_, h⟩⟩
  · obtain ⟨p, there, changed⟩ := bind_eq_ok.1 changed
    cases less : p.halve with
    | none =>
      rw [less] at changed
      cases changed
      exact keeps.pseudo h there rfl
    | some p' =>
      rw [less] at changed
      cases changed
      exact keeps.pseudo h there (PseudoTime.halve_frame less)
  · refine StopsOnly.bind r.track.pseudoTime?_routine (fun p _ ↦ ?_) cause refused
    split <;> exact .ok _

theorem guards_tryStep (keeps : Rig.KeepsMarch I Q) : Guards tryStep I Stop.Routine := by
  refine .bind .get fun r ↦ .bind (fun _ h ↦ keeps.toKeeps.routine.jacobian h) fun loaded ↦ ?_
  -- With or without a Jacobian, there is a direction to follow or there is none.
  refine .ite (.bind (keeps.guards_newton false) fun solved ↦ ?_) (.bind (.pure _) fun solved ↦ ?_)
  all_goals
    refine .ite (.bind .get fun r ↦ .bind (.orFault (r.track.iterate.newton_routine _)) fun d ↦
      .bind (fun r h ↦ keeps.move h _) fun _ ↦ .bind (guards_evaluates keeps) fun taken ↦ ?_)
      (.bind (.pure _) fun taken ↦ ?_)
    all_goals exact .ite (.bind (fun r h ↦ keeps.move h _) fun _ ↦ .pure _) (.pure _)

theorem guards_survey (keeps : Rig.KeepsMarch I Q) (options : MarchOptions α) (steps : Nat) :
    Guards (survey options steps) I Stop.Routine := by
  have ended : ∀ status greatest, Guards (do
      return .inl (← reportAt status steps greatest) :
        Step (Rig δ α n) (MarchReport α ⊕ α)) I Stop.Routine :=
    fun _ _ ↦ .bind (guards_reportAt _ _ _) fun _ ↦ .pure _
  have rest : ∀ greatest : α, Guards (do
      if greatest < options.switchTol then return .inl (← reportAt .switched steps greatest)
      if (← get).track.progress.any fun step ↦ decide (options.maxStep ≤ step) then
        return .inl (← reportAt .maxPseudoStep steps greatest)
      return .inr greatest : Step (Rig δ α n) (MarchReport α ⊕ α)) I Stop.Routine :=
    fun greatest ↦ .ite (ended _ _) (.bind .get fun _ ↦ .ite (ended _ _) (.pure _))
  refine .bind (guards_evaluates keeps) fun there ↦ .ite (ended _ _) (.bind .get fun r ↦ ?_)
  exact .ite (.bind (guards_acceptPoint keeps) fun _ ↦ rest _) (rest _)

theorem guards_stepOrCut (keeps : Rig.KeepsMarch I Q) (options : MarchOptions α)
    (steps tries : Nat) : Guards (stepOrCut options steps tries) I Stop.Routine := by
  induction tries with
  | zero => exact .throw trivial
  | succ tries ih =>
    refine .bind (guards_survey keeps options steps) fun surveyed ↦ ?_
    cases surveyed with
    | inl report => exact .pure _
    | inr greatest =>
      refine .bind (guards_tryStep keeps) fun taken ↦ .ite ?_ ?_
      · exact .bind (guards_acceptPoint keeps) fun _ ↦ .pure _
      · refine .bind (guards_cut keeps) fun halved ↦ .ite ih ?_
        exact .bind (guards_reportAt _ _ _) fun _ ↦ .pure _

/-- A march keeps what its computations, its moves and its changes of the step keep, and stops for
routine reasons only. -/
theorem guards_run (keeps : Rig.KeepsMarch I Q) (options : MarchOptions α) :
    Guards (run options) I Stop.Routine := by
  have marches : ∀ (budget steps : Nat) (greatest : α),
      Guards (marchFrom options budget steps greatest) I Stop.Routine := by
    intro budget
    induction budget with
    | zero => exact fun _ _ ↦ guards_reportAt _ _ _
    | succ budget ih =>
      intro steps greatest
      refine .bind .get fun r ↦ .bind (guards_stepOrCut keeps options steps _) fun found ↦ ?_
      cases found with
      | inl report => exact .pure _
      | inr greatest => exact ih _ _
  exact marches _ _ _

end March

end OperatingPoint
