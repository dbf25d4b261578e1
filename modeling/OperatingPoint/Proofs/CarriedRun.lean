import OperatingPoint.Proofs.Overlaying

/-!
# What a solve carries along

`Rig.Keeps` is about properties that survive any move of the iterate and that hold however a
computation ends.  Some properties are not of that kind: that certain unknowns are where a clamp
holds them depends on the directions that are followed, and that the device layer has been told all
the parameters holds only where telling it has not stopped.

`Rig.Carries` is the hypothesis for such properties.  It has three of them, each stronger than the
one before: `V` is known before a solve, `W` from the first residual on, and `S` from the first
Jacobian on.  A move is along a direction in `D` from a base in `X`, and at a stop no more than `J`
is known.
`Rig.Pursues` is the part of it that is about following one direction and looking where it leads.

Factors may be kept in an iteration only if there has been one in this solve.  So the first
iteration of a solve loads the Jacobian, and `S` holds in all the others.
-/

set_option autoImplicit false

namespace OperatingPoint

open Step

/-- The steps of a line search: the whole one, and what halving makes of it. -/
inductive Newton.Trial {α : Type} [Scalar α] : α → Prop
  | whole : Trial 1
  | half {step : α} (h : Trial step) : Trial (step * 0.5)

/-- The battery that asks for a direction stops where getting it has stopped. -/
theorem Battery.check_of_error {α : Type} [Scalar α] {b : Battery α} {snap : Snapshot α}
    (needs : b.needsDirection snap = true) (stop : Stop) :
    (b.check snap (.error stop)).2 = .error stop := by
  unfold needsDirection at needs
  unfold check
  split at needs
  · rename_i b' screened
    rw [screened]
    dsimp only
    split at needs
    · rename_i w weighed
      rw [Bool.and_eq_true, decide_eq_true_eq] at needs
      rw [if_neg (Nat.pos_iff_ne_zero.1 needs.1), weighed]
      dsimp only
      rw [if_pos needs.2]
    · cases needs
  · cases needs

variable {δ α : Type} [Scalar α] [DirectSolver α] [Device δ α] {n : Nat}
  {V W S J : Rig δ α n → Prop} {X D : Vector α n → Prop} {e e' : Engine δ α n}

/-- What a Newton driver carries along while it pursues a direction. -/
structure Rig.Pursues (S J : Rig δ α n → Prop) (X D : Vector α n → Prop) : Prop where
  stops : ∀ {r}, S r → J r
  point : ∀ {r}, S r → X r.track.iterate.x
  residual : ∀ {r}, S r → Ends computeResidual r (fun _ r' ↦ S r') (fun _ r' ↦ J r')
  jacobian : ∀ {r}, S r → Ends computeJacobian r (fun _ r' ↦ S r') (fun _ r' ↦ J r')
  newton : ∀ {r}, S r → ∀ mayReuse,
    Ends (computeNewton mayReuse) r (fun _ r' ↦ S r') (fun _ r' ↦ J r')
  move : ∀ {r base direction step}, S r → X base → D direction → Newton.Trial step →
    S (r.put r.store (r.track.iterate.setX (addScaled base step direction)) r.track.overlay)

/-- What a Newton driver carries along: `V` before a solve, `W` from the first residual on and `S`
from the first Jacobian on. -/
structure Rig.Carries (V W S J : Rig δ α n → Prop) (X D : Vector α n → Prop) : Prop where
  opens : ∀ {r}, W r → V r
  settles : ∀ {r}, S r → W r
  stops : ∀ {r}, W r → J r
  point : ∀ {r}, W r → X r.track.iterate.x
  enter : ∀ {r}, V r → Ends computeResidual r (fun _ r' ↦ W r') (fun _ r' ↦ J r')
  first : ∀ {r}, W r →
    Ends computeJacobian r (fun ok r' ↦ W r' ∧ (ok = true → S r')) (fun _ r' ↦ J r')
  residual : ∀ {r}, S r → Ends computeResidual r (fun _ r' ↦ S r') (fun _ r' ↦ J r')
  jacobian : ∀ {r}, S r → Ends computeJacobian r (fun _ r' ↦ S r') (fun _ r' ↦ J r')
  /-- A direction that has been accepted, or that is finite at least, may be followed. -/
  newton : ∀ {r}, S r → ∀ mayReuse, Ends (computeNewton mayReuse) r
    (fun ok r' ↦ S r' ∧
      (ok = true ∨ r'.store.communicator.allFinite r'.store.newton.toArray = true →
        D r'.store.newton))
    (fun _ r' ↦ J r')
  move : ∀ {r base direction step}, S r → X base → D direction → Newton.Trial step →
    S (r.put r.store (r.track.iterate.setX (addScaled base step direction)) r.track.overlay)

theorem Rig.Carries.pursues (carries : Rig.Carries V W S J X D) : Rig.Pursues S J X D where
  stops h := carries.stops (carries.settles h)
  point h := carries.point (carries.settles h)
  residual := carries.residual
  jacobian := carries.jacobian
  newton h mayReuse := (carries.newton h mayReuse).mono (fun _ _ kept ↦ kept.1) fun _ _ kept ↦ kept
  move := carries.move

namespace Rig

variable {layer : δ} {L : Option (Augmentation α)} {B : Option (Array α)} {forwarding : Bool}
  {r : Rig δ α n}

/-! What is laid over the equations stays there in any computation. -/

theorem computeResidual_lays (h : r.Lays layer L B forwarding) :
    Ends computeResidual r (fun _ r' ↦ r'.Lays layer L B forwarding ∧ r.Frames r')
      (fun _ r' ↦ r'.Lays layer L B forwarding ∧ r.Frames r') :=
  ((keeps_lays.residual h).and (computeResidual_frames r)).mono (fun _ _ kept ↦ kept)
    fun _ _ kept ↦ ⟨kept.1.2, kept.2⟩

theorem computeJacobian_lays (h : r.Lays layer L B forwarding) :
    Ends computeJacobian r (fun _ r' ↦ r'.Lays layer L B forwarding ∧ r.Frames r')
      (fun _ r' ↦ r'.Lays layer L B forwarding ∧ r.Frames r') :=
  ((keeps_lays.jacobian h).and (computeJacobian_frames r)).mono (fun _ _ kept ↦ kept)
    fun _ _ kept ↦ ⟨kept.1.2, kept.2⟩

theorem computeNewton_lays (h : r.Lays layer L B forwarding) (mayReuse : Bool) :
    Ends (computeNewton mayReuse) r (fun _ r' ↦ r'.Lays layer L B forwarding ∧ r.Frames r')
      (fun _ r' ↦ r'.Lays layer L B forwarding ∧ r.Frames r') :=
  (((computeNewton_stays h.rest mayReuse).and (computeNewton_frames r mayReuse)).and
    (computeNewton_holds mayReuse r h.holds)).mono
    (fun _ _ kept ↦ ⟨h.of_frames kept.2 kept.1.1.1.rest kept.1.2, kept.1.2⟩)
    fun _ _ kept ↦ ⟨h.of_frames kept.2 kept.1.1.rest kept.1.2, kept.1.2⟩

omit [Device δ α] in
/-- What is valid after a shift was none. -/
theorem track_eq_of_valid {t : Track α n} (shifts : r.track.Shifts t) {q : Quantity}
    (valid : (r.withTrack t).isValid q = true) : t = r.track := by
  rcases shifts.stale with same | stale
  · exact same
  · have flag : t.iterate.flags.of q = .valid := (isValid_iff.1 valid).1
    rw [stale] at flag
    cases q <;> cases flag

end Rig

namespace Engine

theorem direction_pursues (pursues : Rig.Pursues S J X D) (h : S e.rig) :
    Ends direction e (fun _ e' ↦ S e'.rig ∧ e'.newton = e.newton) (fun _ e' ↦ J e'.rig) := by
  unfold direction
  simp only [ends_bind, ends_onRig, ends_ite, ends_get, ends_pure]
  refine (pursues.jacobian h).mono (fun _ r₁ h₁ ↦ ⟨fun _ ↦ ⟨h₁, trivial⟩, fun _ ↦ ?_⟩)
    fun _ _ stopped ↦ stopped
  refine (pursues.residual h₁).mono (fun _ r₂ h₂ ↦ ⟨fun _ ↦ ⟨h₂, trivial⟩, fun _ ↦ ?_⟩)
    fun _ _ stopped ↦ stopped
  refine (pursues.newton h₂ false).mono (fun _ r₃ h₃ ↦ ⟨fun _ ↦ ⟨h₃, trivial⟩, fun _ ↦ ?_⟩)
    fun _ _ stopped ↦ stopped
  exact ends_orFault.2 ⟨fun _ _ ↦ ⟨h₃, rfl⟩, fun _ _ ↦ pursues.stops h₃⟩

/-- Putting an iterate to the battery. -/
theorem classify_pursues (pursues : Rig.Pursues S J X D) (h : S e.rig) (previous : Vector α n) :
    Ends (classify previous) e (fun _ e' ↦ S e'.rig) (fun _ e' ↦ J e'.rig) := by
  have stops : J e.rig := pursues.stops h
  unfold classify
  simp only [ends_bind, ends_get, ends_ite, ends_pure, ends_attempt, ends_modifyNewton]
  refine ends_orFault.2 ⟨fun residual _ ↦ ⟨fun needs ↦ ?_, fun _ ↦ ?_⟩, fun _ _ ↦ stops⟩
  · refine (direction_pursues pursues h).mono ?_ ?_
    · exact fun d e' kept ↦ ends_lift.2 ⟨fun _ _ ↦ kept.1, fun _ _ ↦ pursues.stops kept.1⟩
    · -- A battery that has been refused a direction does not decide.
      intro stop e' stopped
      refine ends_lift.2 ⟨fun status checked ↦ ?_, fun _ _ ↦ stopped⟩
      rw [Battery.check_of_error needs] at checked
      cases checked
  · exact ends_lift.2 ⟨fun _ _ ↦ h, fun _ _ ↦ stops⟩

/-- The battery looks at an initial guess and no further. -/
theorem classify_initial (first : e.newton.iteration = 0) (previous : Vector α n) :
    Ends (classify previous) e (fun _ e' ↦ e'.rig = e.rig ∧ e'.newton.iteration = 0)
      (fun _ e' ↦ e'.rig = e.rig) := by
  unfold classify
  simp only [ends_bind, ends_get, ends_ite, ends_pure, ends_attempt, ends_modifyNewton]
  refine ends_orFault.2 ⟨fun residual _ ↦ ⟨fun needs ↦ ?_, fun _ ↦ ?_⟩, fun _ _ ↦ rfl⟩
  · rw [Battery.needsDirection_initial first] at needs
    cases needs
  · exact ends_lift.2 ⟨fun _ _ ↦ ⟨rfl, first⟩, fun _ _ ↦ rfl⟩

/-- The start of a solve, from what is known of its first residual. -/
theorem begin_enters (stops : ∀ {r}, W r → J r)
    (enter : Ends Rig.computeResidual e.rig (fun _ r ↦ W r) (fun _ r ↦ J r)) :
    Ends begin e (fun _ e' ↦ W e'.rig ∧ e'.newton.iteration = 0) (fun _ e' ↦ J e'.rig) := by
  unfold begin
  simp only [ends_bind, ends_modifyNewton, ends_onRig, ends_ite, ends_get, ends_finish]
  refine enter.mono ?_ fun _ _ stopped ↦ stopped
  intro ok r kept
  refine ⟨fun _ ↦ ?_, fun _ ↦ ⟨kept, rfl⟩⟩
  let e₁ : Engine δ α n := { e.opened with rig := r }
  refine (classify_initial (e := e₁) rfl _).mono ?_ ?_
  · rintro status e' ⟨same, first⟩
    refine ⟨?_, first⟩
    show W e'.rig
    rw [same]
    exact kept
  · intro stop e' same
    rw [same]
    exact stops kept

theorem begin_carries (carries : Rig.Carries V W S J X D) (h : V e.rig) :
    Ends begin e (fun _ e' ↦ W e'.rig ∧ e'.newton.iteration = 0) (fun _ e' ↦ J e'.rig) :=
  begin_enters carries.stops (carries.enter h)

/-! ## An iteration -/

variable {base direction : Vector α n}

theorem trial_pursues (pursues : Rig.Pursues S J X D) (h : S e.rig) (from_base : X base)
    (along : D direction) {step : α} (trial : Newton.Trial step) :
    Ends (onRig Rig.computeResidual) (e.movedAlong base direction step)
      (fun _ e' ↦ S e'.rig) (fun _ e' ↦ J e'.rig) := by
  rw [ends_onRig]
  exact pursues.residual (pursues.move h from_base along trial)

theorem backtrack_pursues (pursues : Rig.Pursues S J X D) (h : S e.rig) (from_base : X base)
    (along : D direction) (old : α) (trials : Nat) {step : α} (trial : Newton.Trial step) :
    Ends (backtrack base direction old trials step) e (fun _ e' ↦ S e'.rig)
      (fun _ e' ↦ J e'.rig) := by
  induction trials generalizing e step with
  | zero => exact h
  | succ trials ih =>
    rw [backtrack]
    simp only [ends_bind, ends_get, ends_ite, ends_pure, ends_modifyTrack]
    refine ⟨fun _ ↦ h, fun _ ↦ ?_⟩
    exact (trial_pursues pursues h from_base along trial.half).mono
      (fun _ _ kept ↦ ih kept trial.half) fun _ _ stopped ↦ stopped

theorem lineSearch_pursues (pursues : Rig.Pursues S J X D) (h : S e.rig) (from_base : X base)
    (along : D direction) (old : α) :
    Ends (lineSearch base direction old) e (fun _ e' ↦ S e'.rig) (fun _ e' ↦ J e'.rig) := by
  unfold lineSearch
  simp only [ends_bind, ends_get, ends_modifyTrack]
  refine (trial_pursues pursues h from_base along .whole).mono ?_ fun _ _ stopped ↦ stopped
  intro _ e' kept
  split
  · exact kept
  · exact backtrack_pursues pursues kept from_base along _ _ .whole

omit [Device δ α] in
/-- The direction to follow, from what is known of a linear solve. -/
theorem usableDirection_along {reuse : Bool} (stops : ∀ {r}, S r → J r)
    (newton : Ends (Rig.computeNewton reuse) e.rig
      (fun ok r ↦ S r ∧ (ok = true ∨ r.store.communicator.allFinite r.store.newton.toArray = true →
        D r.store.newton))
      (fun _ r ↦ J r)) :
    Ends (usableDirection reuse) e
      (fun d e' ↦ S e'.rig ∧ ∀ v, d = .ok v → D v) (fun _ e' ↦ J e'.rig) := by
  unfold usableDirection
  simp only [ends_bind, ends_onRig, ends_ite, ends_get, ends_pure]
  refine newton.mono ?_ fun _ _ stopped ↦ stopped
  rintro ok r ⟨kept, along⟩
  refine ⟨fun solved ↦ ends_orFault.2 ⟨fun v read ↦ ⟨kept, fun v' same ↦ ?_⟩,
    fun _ _ ↦ stops kept⟩, fun _ ↦ ⟨fun _ ↦ ⟨kept, fun _ same ↦ by cases same⟩,
    fun finite ↦ ⟨kept, fun v same ↦ ?_⟩⟩⟩
  · cases same
    obtain ⟨_, _, same⟩ := bind_eq_ok.1 read
    cases same
    exact along (.inl solved)
  · cases same
    rw [Bool.not_eq_true, Bool.or_eq_false_iff, Bool.not_eq_false'] at finite
    exact along (.inr finite.1)

theorem follow_pursues (pursues : Rig.Pursues S J X D) (h : S e.rig) (along : D direction) :
    Ends (follow direction) e (fun _ e' ↦ S e'.rig) (fun _ e' ↦ J e'.rig) := by
  unfold follow
  simp only [ends_bind, ends_get]
  refine (lineSearch_pursues pursues h (pursues.point h) along _).mono ?_ fun _ _ stopped ↦ stopped
  intro _ e₁ kept
  rw [ends_modifyNewton]
  split
  · rw [ends_ite, ends_finish]
    refine ⟨fun _ ↦ kept, fun _ ↦ ?_⟩
    rw [ends_bind]
    exact (classify_pursues (e := { e₁ with
      newton := { e₁.newton with iteration := e₁.newton.iteration + 1 } }) pursues kept _).mono
      (fun _ _ kept ↦ kept) fun _ _ stopped ↦ stopped
  · exact kept

/-- From where the Jacobian has been seen to. -/
theorem evaluate_carries (carries : Rig.Carries V W S J X D) {r : Rig δ α n} (settled : S r)
    (reuse : Bool) :
    Ends Rig.computeResidual r
      (fun ok r' ↦ (ok = false → W r') ∧ (ok = true →
        Ends (usableDirection reuse) { rig := r', newton := e.newton }
          (fun d e₁ ↦ Ends (match d with
            | .error verdict => finish (.failed verdict)
            | .ok d => follow d) e₁
            (fun status e' ↦ W e'.rig ∧ (status.isDecided = false → S e'.rig))
            (fun _ e' ↦ J e'.rig))
          (fun _ e' ↦ J e'.rig)))
      (fun _ r' ↦ J r') := by
  refine (carries.residual settled).mono (fun ok r' settled' ↦
    ⟨fun _ ↦ carries.settles settled', fun _ ↦ ?_⟩) fun _ _ stopped ↦ stopped
  refine (usableDirection_along (e := ⟨r', e.newton⟩) carries.pursues.stops
    (carries.newton settled' reuse)).mono ?_ fun _ _ stopped ↦ stopped
  rintro d e₁ ⟨kept, along⟩
  cases d with
  | error verdict => exact ⟨carries.settles kept, fun undecided ↦ by cases undecided⟩
  | ok d =>
    exact (follow_pursues carries.pursues kept (along d rfl)).mono
      (fun _ _ kept ↦ ⟨carries.settles kept, fun _ ↦ kept⟩) fun _ _ stopped ↦ stopped

omit [Device δ α] in
/-- The first iteration takes a Jacobian. -/
theorem keepsFactors_first (first : e.newton.iteration = 0) : e.keepsFactors = false := by
  unfold keepsFactors
  split
  · rfl
  · rw [first, Nat.zero_mod]
    simp

/-- One iteration.  After one that leaves the solve undecided, the Jacobian has been loaded. -/
theorem iterateOnce_carries (carries : Rig.Carries V W S J X D) (h : W e.rig)
    (later : e.newton.iteration ≠ 0 → S e.rig) :
    Ends iterateOnce e
      (fun status e' ↦ W e'.rig ∧ (status.isDecided = false → S e'.rig))
      (fun _ e' ↦ J e'.rig) := by
  unfold iterateOnce
  simp only [ends_bind, ends_get, ends_ite, ends_onRig, ends_finish, Bool.not_eq_true',
    Bool.not_eq_false]
  refine ⟨fun refreshes ↦ ?_, fun keeps_factors ↦ ?_⟩
  · refine (carries.first h).mono (fun ok r kept ↦
      ⟨fun _ ↦ ⟨kept.1, fun undecided ↦ by cases undecided⟩, fun loaded ↦ ?_⟩)
      fun _ _ stopped ↦ stopped
    exact (evaluate_carries carries (kept.2 loaded) _).mono
      (fun ok r' done ↦ ⟨fun failed ↦ ⟨done.1 failed, fun undecided ↦ by cases undecided⟩,
        done.2⟩) fun _ _ stopped ↦ stopped
  · have iterated : e.newton.iteration ≠ 0 := by
      intro first
      rw [keepsFactors_first first] at keeps_factors
      cases keeps_factors
    exact (evaluate_carries carries (later iterated) _).mono
      (fun ok r' done ↦ ⟨fun failed ↦ ⟨done.1 failed, fun undecided ↦ by cases undecided⟩,
        done.2⟩) fun _ _ stopped ↦ stopped

/-! ## A solve -/

theorem advance_carries (carries : Rig.Carries V W S J X D) (h : W e.rig)
    (later : e.newton.iteration ≠ 0 → S e.rig) :
    Ends advance e
      (fun status e' ↦ W e'.rig ∧
        (status.isDecided = false → e'.newton.iteration ≠ 0 → S e'.rig))
      (fun _ e' ↦ J e'.rig) := by
  unfold advance
  simp only [ends_bind, ends_get, ends_ite, ends_pure, Bool.not_eq_true', Bool.not_eq_true]
  refine ⟨fun _ ↦ ?_, fun _ ↦ ⟨fun _ ↦ ⟨h, fun _ ↦ later⟩, fun _ ↦ ?_⟩⟩
  · refine (begin_carries carries (carries.opens h)).mono ?_ fun _ _ stopped ↦ stopped
    rintro status e₁ ⟨kept, first⟩
    have none : e₁.newton.iteration ≠ 0 → S e₁.rig := fun later ↦ absurd first later
    refine ⟨fun _ ↦ ⟨kept, fun _ ↦ none⟩, fun _ ↦ ⟨fun _ ↦ ⟨kept, fun _ ↦ none⟩, fun _ ↦ ?_⟩⟩
    exact (iterateOnce_carries carries kept none).mono
      (fun _ _ kept ↦ ⟨kept.1, fun undecided _ ↦ kept.2 undecided⟩) fun _ _ stopped ↦ stopped
  · exact (iterateOnce_carries carries h later).mono
      (fun _ _ kept ↦ ⟨kept.1, fun undecided _ ↦ kept.2 undecided⟩) fun _ _ stopped ↦ stopped

theorem iterateWhile_carries (carries : Rig.Carries V W S J X D) (h : W e.rig) {status : Status}
    (later : status.isDecided = false → e.newton.iteration ≠ 0 → S e.rig) (budget : Nat) :
    Ends (iterateWhile budget status) e (fun _ e' ↦ W e'.rig) (fun _ e' ↦ J e'.rig) := by
  induction budget generalizing e status with
  | zero => exact h
  | succ budget ih =>
    rw [iterateWhile]
    simp only [ends_ite, ends_pure, ends_bind, Bool.not_eq_true]
    refine ⟨fun _ ↦ h, fun undecided ↦ ?_⟩
    exact (advance_carries carries h (later undecided)).mono (fun _ _ kept ↦ ih kept.1 kept.2)
      fun _ _ stopped ↦ stopped

/-- A whole solve. -/
theorem solve_carries (carries : Rig.Carries V W S J X D) (h : V e.rig) :
    Ends solve e (fun _ e' ↦ W e'.rig) (fun _ e' ↦ J e'.rig) := by
  unfold solve
  simp only [ends_bind, ends_get, ends_pure]
  refine (begin_carries carries h).mono ?_ fun _ _ stopped ↦ stopped
  rintro status e₁ ⟨kept, first⟩
  exact iterateWhile_carries carries kept (fun _ later ↦ absurd first later) _

end Engine

/-! ## A stepper -/

namespace Stepper

variable {s : Stepper α}

omit [DirectSolver α] [Device δ α] in
theorem setAll_shifts (s : Stepper α) (value : α) (t : Track α n) :
    t.Shifts (s.setAll value t) := by
  have coupled : ∀ (paths : List (ParameterPath α)) (t : Track α n),
      t.Shifts (paths.foldl
        (fun t path ↦ t.setParameter path.name (path.at (s.fraction value))) t) := by
    intro paths
    induction paths with
    | nil => exact .refl
    | cons path rest ih => exact fun t ↦ (t.setParameter_shifts _ _).trans (ih _)
  exact (t.setParameter_shifts _ _).trans (coupled _ _)

/-- What a stepper carries along: what its solves carry, and what setting its parameters, going back
to an accepted point and telling the device layer keep. -/
structure Carries (s : Stepper α) (V W S J : Rig δ α n → Prop) (X D : Vector α n → Prop) : Prop
    extends Rig.Carries V W S J X D where
  set : ∀ {r}, V r → ∀ value, V { r with track := s.setAll value r.track }
  back : ∀ {r x}, W r → X x → V { r with track := r.track.setX x }
  accept : ∀ {r}, W r → W {
    store := { r.store with device := Device.accept r.store.device r.track.x.toArray }
    track := { r.track with captured := some r.track.iterate.generation } }
  abandon : ∀ {r}, W r →
    W { r with store := { r.store with device := Device.abandon r.store.device } }

/-- A solve at a lead value. -/
theorem solveAt_carries (carries : s.Carries V W S J X D) (h : V e.rig) (value : α) :
    Ends (s.solveAt value) e (fun _ e' ↦ W e'.rig) (fun _ e' ↦ J e'.rig) := by
  unfold solveAt
  simp only [ends_bind, Engine.ends_modifyTrack, ends_ite, ends_pure, Engine.ends_onRig]
  refine (Engine.solve_carries (e := { e with rig := _ }) carries.toCarries
    (carries.set h value)).mono (fun outcome e' kept ↦ ⟨fun _ ↦ ?_, fun _ ↦ ?_⟩)
    fun _ _ stopped ↦ stopped
  · unfold Rig.succeed
    simp only [ends_bind, ends_get, ends_ite, ends_set, ends_pure]
    exact ⟨fun _ ↦ carries.accept kept, fun _ ↦ kept⟩
  · exact carries.abandon kept

/-- What the attempts of a stepper leave: the parameters may have gone back, unless it has come to
its end. -/
theorem attempt_carries (carries : s.Carries V W S J X D) (h : V e.rig) (attempts : Nat) (step : α)
    {x : Vector α n} (accepted : X x) (report : ContinuationReport α) :
    Ends (s.attempt attempts step x report) e
      (fun report' e' ↦ V e'.rig ∧ (report'.finished = true → W e'.rig))
      (fun _ e' ↦ J e'.rig) := by
  induction attempts generalizing e step x report with
  | zero => exact ⟨h, fun finished ↦ by cases finished⟩
  | succ attempts ih =>
    unfold attempt
    simp only [ends_bind, ends_ite, ends_pure, ends_get, Engine.ends_modifyTrack]
    refine (solveAt_carries carries h _).mono (fun outcome e₁ kept ↦ ?_) fun _ _ stopped ↦ stopped
    refine ⟨fun _ ↦ ⟨fun _ ↦ ⟨carries.opens kept, fun _ ↦ kept⟩, fun _ ↦ ?_⟩, fun _ ↦ ?_⟩
    · exact ih (carries.opens kept) _ (carries.point kept) _
    · have back : V (⟨e₁.rig.store, s.setAll report.value (e₁.rig.track.setX x)⟩ : Rig δ α n) :=
        carries.set (carries.back kept accepted) _
      exact ⟨fun _ ↦ ⟨back, fun finished ↦ by cases finished⟩, fun _ ↦ ih back _ accepted _⟩

/-- A whole run, from where forwarding has been turned on. -/
theorem run_carries (carries : s.Carries V W S J X D)
    (h : V { e.rig with track := e.rig.track.setForwarding true }) :
    Ends s.run e (fun report e' ↦ V e'.rig ∧ (report.finished = true → W e'.rig))
      (fun _ e' ↦ J e'.rig) := by
  unfold run
  simp only [ends_bind, Engine.ends_modifyTrack, ends_ite, ends_pure, ends_get, Bool.not_eq_true',
    Bool.not_eq_false]
  refine (solveAt_carries (e := { e with rig := _ }) carries h _).mono (fun outcome e₁ kept ↦ ?_)
    fun _ _ stopped ↦ stopped
  refine ⟨fun _ ↦ ⟨carries.opens kept, fun finished ↦ by cases finished⟩, fun _ ↦ ⟨fun _ ↦
    ⟨carries.opens kept, fun _ ↦ kept⟩, fun _ ↦ ?_⟩⟩
  exact attempt_carries carries (carries.opens kept) _ _ (carries.point kept) _

end Stepper

end OperatingPoint
