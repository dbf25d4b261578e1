import OperatingPoint.Proofs.MarchEnds

/-!
# Where a march ends

A march that hands back a report has left nothing of the steps that it has taken back.  It is where
it started, or where its last accepted step has led; there the residual can be loaded and is finite,
unless already the start was bad.  The report counts the accepted steps, and the step in pseudo-time
has been between its bounds all the time.  The residual that decides about the switch to Newton is
the one at the point, loaded before the step in pseudo-time was changed or after that: the step does
not enter it.

`Rig.Truthful` is what every pass keeps, and `March.Safe` is what is known of a row of passes.
-/

set_option autoImplicit false

namespace OperatingPoint

open Step

variable {δ α K : Type} [Scalar α] [DirectSolver α] [Device δ α] {n : Nat}
  [Field K] [LinearOrder K] [IsStrictOrderedRing K]

namespace Rig

/-- The residual at the point as the device layer loads it, with the blend. -/
def loaded (r : Rig δ α n) (buffer : Vector α n) : Vector α n :=
  r.track.overlay.blendResidual r.track.x
    (Device.loadResidual r.store.device r.track.x r.store.previous buffer).buffer

/-- The residual can be loaded at the point, and it is finite there. -/
def Sane (r : Rig δ α n) : Prop :=
  r.Loadable ∧ ∀ buffer, r.store.communicator.allFinite (r.loaded buffer).toArray = true

/-- A rig in a march: what is valid is the residual at the point, and that can be loaded. -/
structure Truthful (line : Scalar.Line K α) (lo hi : K) (P : PureDevice δ α) (r : Rig δ α n) :
    Prop extends r.Marching line lo hi P True where
  measures : r.store.communicator.Measures
  decides : P.Decides r.store.device
  loads : r.isValid .residual = true → r.Loadable

variable {P : PureDevice δ α} {r r' : Rig δ α n}

theorem Loadable.loaded (loads : r.Loadable) (buffer : Vector α n) :
    r.loaded buffer = r.posed P := by
  unfold Rig.loaded Rig.posed
  rw [P.residual_buffer _ _ _ _ (loads buffer)]
  rfl

theorem Loadable.sane (loads : r.Loadable)
    (finite : r.store.communicator.allFinite (r.posed P).toArray = true) : r.Sane :=
  ⟨loads, fun buffer ↦ by rw [loads.loaded (P := P)]; exact finite⟩

theorem Grounds.sane (ground : r.Grounds P r') (decides : P.Decides r.store.device)
    (x : r'.track.x = r.track.x) (sane : r.Sane) : r'.Sane := by
  refine (ground.loads decides x sane.1).sane (P := P) ?_
  rw [ground.communicator, ground.posed x, ← sane.1.loaded (Vector.replicate n 0)]
  exact sane.2 _

end Rig

namespace March

variable {P : PureDevice δ α} {r r' : Rig δ α n} {line : Scalar.Line K α} {lo hi : K}
  {p : PseudoTime α} {options : MarchOptions α} {steps : Nat} {report : MarchReport α}

/-! ## One pass -/

theorem Surveyed.small
    (surveyed : Surveyed line lo hi P True options steps r (.inl report) r')
    (truthful : r.Truthful line lo hi P) (switched : report.status = .switched) :
    r'.Loadable ∧ r'.store.communicator.normInf (r'.posed P).toArray < options.switchTol := by
  cases surveyed with
  | bad _ _ failed =>
    rw [failed] at switched
    cases switched
  | @arrived r₁ _ _ computed finite noted _ small =>
    have loads := computed.loads truthful.decides truthful.loads finite.1
    have ground : r₁.Grounds P r' := noted.ground
    have small := small switched
    rw [(computed.known finite.1).2 trivial] at small
    refine ⟨ground.loads (computed.ground.decides truthful.decides) noted.x loads, ?_⟩
    rw [ground.communicator, ground.posed noted.x]
    exact small

/-- A pass that goes on leaves a truthful rig.  An accepted step leads along the Newton direction to
where the residual is finite, and a rejected one leads nowhere. -/
theorem Passed.onward {greatest : α} {taken : Bool} (truthful : r.Truthful line lo hi P)
    (passed : Passed line lo hi P True options steps r (.inr (greatest, taken)) r') :
    r'.Truthful line lo hi P ∧ r.Grounds P r' ∧
      (taken = true →
        r'.track.x = addScaled r.track.x 1 r'.store.newton ∧ r'.Sane) ∧
      (taken = false → r'.track.x = r.track.x) := by
  cases passed with
  | @accepted r₁ r₂ _ surveyed took p attached =>
    have ⟨_, ground₁, x⟩ := surveyed.spec truthful.measures
    have loads : r₂.Loadable := took.loads (ground₁.decides truthful.decides)
    have ground := ground₁.trans took.ground
    have measures := ground.measures truthful.measures
    have m := took.toMarching.accept measures took.finite attached
    have finite := (took.toMarching.finite_norm measures took.finite).2.1
    rw [(took.known took.finite.1).2 trivial] at finite
    refine ⟨⟨m, measures, ground.decides truthful.decides, fun _ ↦ loads⟩,
      ground.trans (r₂.grounds_withTerm _), fun _ ↦ ⟨?_, loads.sane (P := P) finite⟩,
      fun never ↦ by cases never⟩
    rw [← x]
    exact took.x
  | @rejected r₁ r₂ _ surveyed tookBack p p' attached halved =>
    have ⟨_, ground₁, x⟩ := surveyed.spec truthful.measures
    have ground := ground₁.trans tookBack.ground
    obtain ⟨q, h, attached', within⟩ := tookBack.paced
    cases attached'.symm.trans attached
    have m := tookBack.toMarching.withTerm (within.of_halve halved).2.2
    refine ⟨⟨m, ground.measures truthful.measures, ground.decides truthful.decides, fun valid ↦ ?_⟩,
      ground.trans (r₂.grounds_withTerm _), (fun never ↦ by cases never),
      fun _ ↦ tookBack.x.trans x⟩
    exact absurd (valid.symm.trans tookBack.invalid) (by decide)

/-- A pass that ends the march leaves the point alone. -/
theorem Passed.ended (truthful : r.Truthful line lo hi P)
    (passed : Passed line lo hi P True options steps r (.inl report) r') :
    r.Grounds P r' ∧ r'.track.x = r.track.x ∧ r'.Paced line lo hi ∧ report.steps = steps ∧
      (report.status = .switched →
        r'.Loadable ∧ r'.store.communicator.normInf (r'.posed P).toArray < options.switchTol) := by
  cases passed with
  | surveyed surveyed =>
    have ⟨m, ground, x⟩ := surveyed.spec truthful.measures
    refine ⟨ground, x, m.paced, ?_, surveyed.small truthful⟩
    cases surveyed with
    | bad _ counted => exact counted
    | arrived _ _ _ counted => exact counted
  | @givenUp r₁ r₂ _ _ surveyed tookBack p attached counted failed =>
    have ⟨_, ground, x⟩ := surveyed.spec truthful.measures
    obtain ⟨q, h, attached', within⟩ := tookBack.paced
    cases attached'.symm.trans attached
    refine ⟨(ground.trans tookBack.ground).trans (r₂.grounds_withTerm _), tookBack.x.trans x,
      ⟨_, _, rfl, within⟩, counted, fun switched ↦ ?_⟩
    rw [failed] at switched
    cases switched

/-! ## All passes -/

/-- The passes that have accepted a step. -/
def acceptedTurns (trace : List (Turn δ α n)) : List (Turn δ α n) :=
  trace.filter fun turn ↦ turn.kind = .accepted

/-- The rigs that a pass comes through: before its survey and after it, after a step was tried, and
in the end. -/
inductive Turn.Through (options : MarchOptions α) (turn : Turn δ α n) : Rig δ α n → Prop
  | before : Turn.Through options turn turn.before
  | surveyed {surveyed : MarchReport α ⊕ α} {r₁ : Rig δ α n}
    (run : survey options turn.steps turn.before = .ok surveyed r₁) :
    Turn.Through options turn r₁
  | tried {greatest : α} {taken : Bool} {r₁ r₂ : Rig δ α n}
    (run : survey options turn.steps turn.before = .ok (.inr greatest) r₁)
    (tried : tryStep r₁ = .ok taken r₂) : Turn.Through options turn r₂
  | after : Turn.Through options turn turn.after

/-- In a pass from a truthful rig the step in pseudo-time is between the bounds. -/
theorem Turn.Through.paced {turn : Turn δ α n} (through : turn.Through options r)
    (truthful : turn.before.Truthful line lo hi P) (after : turn.after.Paced line lo hi) :
    r.Paced line lo hi := by
  have measures := truthful.measures
  cases through with
  | before => exact truthful.paced
  | surveyed run =>
    exact (((survey_surveyed truthful.toMarching measures).ok run).spec measures).1.paced
  | tried run tried =>
    have ⟨m, _, _⟩ := ((survey_surveyed truthful.toMarching measures).ok run).spec measures
    cases (tryStep_tried m).ok tried with
    | took took => exact took.paced
    | tookBack tookBack => exact tookBack.paced
  | after => exact after

/-- What is known of the passes from a truthful rig up to a report. -/
structure Safe (line : Scalar.Line K α) (lo hi : K) (P : PureDevice δ α)
    (options : MarchOptions α) (steps : Nat) (r : Rig δ α n) (trace : List (Turn δ α n))
    (report : MarchReport α) (r' : Rig δ α n) : Prop where
  ground : r.Grounds P r'
  paced : r'.Paced line lo hi
  counted : report.steps = steps + (acceptedTurns trace).length
  within : report.steps ≤ options.maxSteps
  x : r'.track.x = (acceptedTurns trace).getLast?.elim r.track.x fun turn ↦ turn.after.track.x
  along : ∀ turn ∈ acceptedTurns trace,
    turn.after.track.x = addScaled turn.before.track.x 1 turn.after.store.newton
  sane : r.Sane ∨ acceptedTurns trace ≠ [] → r'.Sane
  through : ∀ turn ∈ trace, ∀ r₁, turn.Through options r₁ → r₁.Paced line lo hi
  small : report.status = .switched →
    r'.Loadable ∧ r'.store.communicator.normInf (r'.posed P).toArray < options.switchTol

theorem Marches.safe {greatest : α} {trace : List (Turn δ α n)}
    {result : EStateM.Result Stop (Rig δ α n) (MarchReport α)}
    (marches : Marches options steps greatest r trace result) (truthful : r.Truthful line lo hi P)
    (within : steps ≤ options.maxSteps) (ended : result = .ok report r') :
    Safe line lo hi P options steps r trace report r' := by
  have passed : ∀ {steps : Nat} {r r' : Rig δ α n} {passed : MarchReport α ⊕ α × Bool},
      r.Truthful line lo hi P → pass options steps r = .ok passed r' →
      Passed line lo hi P True options steps r passed r' := fun truthful run ↦
    (pass_passed truthful.toMarching truthful.measures).ok run
  -- Only an accepted step moves the point, and counts; the rest of the passes goes on from there.
  induction marches with
  | usedUp =>
    cases ended
    exact ⟨.refl _, truthful.paced, rfl, within, rfl, by simp [acceptedTurns],
      fun sane ↦ sane.resolve_right (absurd rfl), by simp, fun never ↦ by cases never⟩
  | stopped => cases ended
  | ended more run =>
    cases ended
    obtain ⟨ground, x, paced, counted, small⟩ := (passed truthful run).ended truthful
    refine ⟨ground, paced, counted, counted.trans_le within, x, by simp [acceptedTurns],
      fun sane ↦ ground.sane truthful.decides x (sane.resolve_right (absurd rfl)), ?_, small⟩
    rw [List.forall_mem_singleton]
    exact fun r₁ through ↦ through.paced truthful paced
  | @accepted steps _ r₀ _ r₁ trace _ more run rest ih =>
    obtain ⟨truthful', ground, taken, -⟩ := (passed truthful run).onward truthful
    obtain ⟨along, sane⟩ := taken rfl
    have safe := ih truthful' more ended
    refine ⟨ground.trans safe.ground, safe.paced, ?_, safe.within, ?_, ?_,
      fun _ ↦ safe.sane (.inl sane), ?_, safe.small⟩
    · rw [safe.counted]
      exact Nat.add_right_comm ..
    · rw [safe.x]
      change _ = ((_ :: acceptedTurns trace).getLast?).elim _ _
      rw [List.getLast?_cons]
      cases (acceptedTurns trace).getLast? <;> rfl
    · exact List.forall_mem_cons.2 ⟨along, safe.along⟩
    · exact List.forall_mem_cons.2 ⟨fun r₂ through ↦ through.paced truthful truthful'.paced,
        safe.through⟩
  | @rejected steps _ r₀ _ r₁ trace _ more run rest ih =>
    obtain ⟨truthful', ground, -, stays⟩ := (passed truthful run).onward truthful
    have x := stays rfl
    have safe := ih truthful' within ended
    refine ⟨ground.trans safe.ground, safe.paced, safe.counted, safe.within, ?_, safe.along,
      fun sane ↦ safe.sane (sane.imp_left (ground.sane truthful.decides x)), ?_, safe.small⟩
    · rw [safe.x, x]
      rfl
    · exact List.forall_mem_cons.2 ⟨fun r₂ through ↦ through.paced truthful truthful'.paced,
        safe.through⟩

/-! ## A march with a report -/

/-- A report is not handed back by a loop whose tries are used up. -/
theorem cuts_of_ok {next : MarchReport α ⊕ α → Step (Rig δ α n) (MarchReport α)} {tries : Nat}
    (run : (stepOrCut options steps tries >>= next) r = .ok report r') :
    ∃ j < tries, Cuts options steps j r := by
  induction tries generalizing r with
  | zero => cases run
  | succ tries ih =>
    rw [stepOrCut_succ, bind_assoc] at run
    cases ran : pass options steps r with
    | error stop r₁ => exact ⟨0, Nat.succ_pos _, fun _ _ never ↦ by cases ran.symm.trans never⟩
    | ok passed r₁ =>
      rw [bind_of_ok ran] at run
      rcases passed with report | ⟨greatest, _ | _⟩
      · exact ⟨0, Nat.succ_pos _, fun _ _ never ↦ by cases ran.symm.trans never⟩
      · obtain ⟨j, enough, cuts⟩ := ih run
        refine ⟨j + 1, Nat.succ_lt_succ enough, fun _ _ again ↦ ?_⟩
        cases ran.symm.trans again
        exact cuts
      · exact ⟨0, Nat.succ_pos _, fun _ _ never ↦ by cases ran.symm.trans never⟩

theorem marches_of_ok (run : run options r = .ok report r') :
    ∃ trace, Marches options 0 Scalar.infinity r trace (.ok report r') :=
  marches_of_marchFrom (I := fun _ ↦ True) (fun _ _ ↦ trivial) (fun _ _ run ↦ cuts_of_ok run)
    (Nat.zero_add _) trivial run

/-- The step in pseudo-time is between the bounds of the options. -/
def Bounded (options : MarchOptions α) (r : Rig δ α n) : Prop :=
  ∃ step, r.track.progress = some step ∧ options.minStep ≤ step ∧ step ≤ options.maxStep

omit [Device δ α] in
theorem Suits.bounded (suits : Suits line lo hi options r) (paced : r'.Paced line lo hi) :
    Bounded options r' := by
  obtain ⟨p, h, attached, within⟩ := paced
  refine ⟨p.step, ?_, ?_, ?_⟩
  · unfold Track.progress
    rw [show r'.track.overlay.strategy = _ from attached]
    rfl
  · rw [suits.minStep, within.step, line.le_iff]
    exact within.lo_le
  · rw [suits.maxStep, within.step, line.le_iff]
    exact within.le_hi

/-- A march that hands back a report is where it started, or where its last accepted step has led
along the Newton direction, and its report counts those steps.  It ends where the residual can be
loaded and is finite, if it has started at such a point or has accepted a step.  The step in
pseudo-time is between its bounds all the time.  If the march switches to Newton, the residual that
the device layer loads at the end is below the tolerance. -/
theorem safe_of_run (suits : Suits line lo hi options r) (unmoved : r.Unmoved P)
    (decides : P.Decides r.store.device)
    (coherent : r.isValid .residual = true → r.store.residual = r.posed P ∧ r.Loadable)
    (ran : run options r = .ok report r') :
    ∃ trace, Marches options 0 Scalar.infinity r trace (.ok report r') ∧
      r'.track.x = (acceptedTurns trace).getLast?.elim r.track.x (fun turn ↦ turn.after.track.x) ∧
      (∀ turn ∈ acceptedTurns trace,
        turn.after.track.x = addScaled turn.before.track.x 1 turn.after.store.newton) ∧
      (r.Sane ∨ 0 < report.steps → r'.Sane) ∧
      report.steps = (acceptedTurns trace).length ∧ report.steps ≤ options.maxSteps ∧
      (∀ turn ∈ trace, ∀ r₁, turn.Through options r₁ → Bounded options r₁) ∧
      Bounded options r ∧ Bounded options r' ∧
      (report.status = .switched → ∀ buffer,
        r'.store.communicator.normInf (r'.loaded buffer).toArray < options.switchTol) ∧
      (r.track.overlay.blend = none → ∀ buffer, r'.loaded buffer =
        (Device.loadResidual r'.store.device r'.track.x r'.store.previous buffer).buffer) := by
  have truthful : r.Truthful line lo hi P :=
    ⟨⟨suits.paced, unmoved, fun valid ↦ ⟨suits.measured valid, fun _ ↦ (coherent valid).1⟩⟩,
      suits.measures, decides, fun valid ↦ (coherent valid).2⟩
  obtain ⟨trace, marches⟩ := marches_of_ok ran
  have safe := marches.safe truthful (Nat.zero_le _) rfl
  have counted : report.steps = (acceptedTurns trace).length :=
    safe.counted.trans (Nat.zero_add _)
  refine ⟨trace, marches, safe.x, safe.along, fun sane ↦ safe.sane (sane.imp_right fun some ↦ ?_),
    counted, safe.within,
    fun turn mem r₁ through ↦ suits.bounded (safe.through turn mem r₁ through),
    suits.bounded suits.paced, suits.bounded safe.paced, fun switched buffer ↦ ?_,
    fun unblended buffer ↦ ?_⟩
  · rw [counted] at some
    exact List.ne_nil_of_length_pos some
  · obtain ⟨loads, small⟩ := safe.small switched
    rw [loads.loaded (P := P)]
    exact small
  · unfold Rig.loaded Overlay.blendResidual
    rw [safe.ground.blend, unblended]

/-- A march that has cut its step once and switches to Newton after the next one. -/
theorem safe_of_run_fuse : ∃ report r' turn trace,
    run (Fuse.options 3) Fuse.rig = .ok report r' ∧ report.status = .switched ∧
      Marches (Fuse.options 3) 0 Scalar.infinity Fuse.rig trace (.ok report r') ∧
      acceptedTurns trace = [turn] ∧ r'.track.x = turn.after.track.x ∧ r'.Sane ∧
      ∀ buffer, r'.store.communicator.normInf
        (Device.loadResidual r'.store.device r'.track.x r'.store.previous buffer).buffer.toArray
          < 3 := by
  have known : Ends (run (Fuse.options 3)) Fuse.rig
      (fun report _ ↦ report.status = .switched ∧ report.steps = 1) fun _ _ ↦ False := by
    decide +kernel
  cases ran : run (Fuse.options 3) Fuse.rig with
  | error stop r' => exact (known.error ran).elim
  | ok report r' =>
    obtain ⟨switched, one⟩ := known.ok ran
    obtain ⟨trace, marches, x, -, sane, counted, -, -, -, -, small, plain⟩ :=
      safe_of_run (P := Fuse.pure) (Fuse.suits 3) (Rig.unmoved_of_silent rfl)
        (Fuse.pure_decides _) (fun never ↦ by cases never) ran
    rw [one] at counted
    obtain ⟨turn, only⟩ := List.length_eq_one_iff.1 counted.symm
    rw [only] at x
    refine ⟨report, r', turn, trace, rfl, switched, marches, only, x, sane (.inr (by omega)),
      fun buffer ↦ ?_⟩
    rw [← plain rfl]
    exact small switched buffer

end March

end OperatingPoint
