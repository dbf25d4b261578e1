import OperatingPoint.Proofs.MarchGround

/-!
# The passes of a march

A march is a loop, and in each pass of it one step is tried.  A pass ends the march, or it accepts a
step, or it rejects one and halves the step in pseudo-time.  `March.Passed` has one case for each of
these, with what is known of the rig before the pass and after it.
-/

set_option autoImplicit false

namespace OperatingPoint

open Step

variable {δ α K : Type} [Scalar α] [DirectSolver α] [Device δ α] {n : Nat}
  [Field K] [LinearOrder K] [IsStrictOrderedRing K]

/-- A residual whose entries are finite has a finite norm. -/
def Communicator.Measures {α : Type} [Scalar α] (c : Communicator α) : Prop :=
  ∀ f, c.allFinite f = true → Scalar.isFinite (c.norm2 f) = true

namespace Rig

/-- The rig with another term in pseudo-time. -/
def withTerm (r : Rig δ α n) (p : PseudoTime α) : Rig δ α n :=
  { r with track := r.track.putPseudoTime p }

/-- The rig at another point, where nothing is valid. -/
def movedTo (r : Rig δ α n) (x : Vector α n) : Rig δ α n :=
  { r with track := r.track.setX x }

/-- The residual is valid and finite. -/
def Finite (r : Rig δ α n) : Prop :=
  r.isValid .residual = true ∧ r.track.iterate.measured.isFinite = true

/-- The residual norm as it is noted with the term. -/
def norm (r : Rig δ α n) : α := r.store.communicator.norm2 r.store.residual.toArray

variable {P : PureDevice δ α} {r r' : Rig δ α n} {line : Scalar.Line K α} {lo hi h : K}
  {coherent : Prop} {p : PseudoTime α}

omit [Device δ α] in
theorem not_isValid_movedTo (r : Rig δ α n) (x : Vector α n) :
    (r.movedTo x).isValid .residual = false :=
  Bool.eq_false_iff.2 (Iterate.not_isValid_of_stale (q := .residual) rfl)

theorem grounds_withTerm (r : Rig δ α n) (p : PseudoTime α) : r.Grounds P (r.withTerm p) :=
  ⟨rfl, rfl, rfl, rfl, rfl, rfl, .refl⟩

theorem grounds_movedTo (r : Rig δ α n) (x : Vector α n) : r.Grounds P (r.movedTo x) :=
  ⟨rfl, rfl, rfl, rfl, rfl, rfl, .refl⟩

theorem Marching.withTerm (m : r.Marching line lo hi P coherent) (within : p.Within line lo hi h) :
    (r.withTerm p).Marching line lo hi P coherent where
  paced := ⟨p, h, rfl, within⟩
  unmoved := (r.grounds_withTerm p).unmoved m.unmoved
  known := m.known

theorem Marching.weaken {coherent' : Prop} (m : r.Marching line lo hi P coherent)
    (weaker : coherent' → coherent) : r.Marching line lo hi P coherent' where
  paced := m.paced
  unmoved := m.unmoved
  known valid := ⟨(m.known valid).1, fun h ↦ (m.known valid).2 (weaker h)⟩

theorem Grounds.measures (ground : r.Grounds P r') (measures : r.store.communicator.Measures) :
    r'.store.communicator.Measures := by
  rw [ground.communicator]
  exact measures

/-- Where nothing is valid, what is valid is coherent. -/
theorem Marching.movedTo (m : r.Marching line lo hi P coherent) (x : Vector α n) :
    (r.movedTo x).Marching line lo hi P True where
  paced := m.paced
  unmoved := (r.grounds_movedTo x).unmoved m.unmoved
  known valid := by
    rw [not_isValid_movedTo] at valid
    cases valid

theorem Marching.finite_norm (m : r.Marching line lo hi P coherent)
    (measures : r.store.communicator.Measures) (finite : r.Finite) :
    r.track.iterate.measured =
        .norms (r.store.communicator.normsOf r.store.residual.toArray) ∧
      r.store.communicator.allFinite r.store.residual.toArray = true ∧
      Scalar.isFinite r.norm = true := by
  obtain ⟨norms, -⟩ := m.known finite.1
  have all : r.store.communicator.allFinite r.store.residual.toArray = true := by
    have finite := finite.2
    rw [norms] at finite
    exact finite
  exact ⟨norms, all, measures _ all⟩

/-- Where a finite residual norm is noted, the march goes on. -/
theorem Marching.accept (m : r.Marching line lo hi P coherent)
    (measures : r.store.communicator.Measures) (finite : r.Finite) (attached : r.Term p) :
    (r.withTerm (p.accept r.norm)).Marching line lo hi P coherent := by
  obtain ⟨q, h, attached', within⟩ := m.paced
  cases attached'.symm.trans attached
  obtain ⟨h', within', -⟩ := within.accept (m.finite_norm measures finite).2.2
  exact m.withTerm within'

end Rig

namespace March

variable {P : PureDevice δ α} {r r' : Rig δ α n} {line : Scalar.Line K α} {lo hi h : K}
  {coherent : Prop} {p : PseudoTime α} {options : MarchOptions α} {steps : Nat}

/-! ## Parts of a pass -/

theorem evaluates_computes (m : r.Marching line lo hi P coherent) :
    Ends evaluates r
      (fun good r' ↦ r.Computes line lo hi P coherent r' ∧ (good = true → r'.Finite))
      (fun _ _ ↦ True) := by
  unfold evaluates
  simp only [ends_bind, ends_ite, ends_get, ends_pure]
  refine (Rig.computeResidual_computes m).mono ?_ fun _ _ h ↦ h
  rintro ok r' ⟨computed, valid⟩
  refine ⟨fun loaded ↦ ⟨computed, fun finite ↦ ⟨valid.trans loaded, finite⟩⟩,
    fun _ ↦ ⟨computed, fun never ↦ by cases never⟩⟩

omit [Device δ α] in
theorem acceptPoint_eq (attached : r.Term p) {norms : ResidualNorms α}
    (measured : r.track.iterate.measured = .norms norms) :
    acceptPoint r = .ok ⟨⟩ (r.withTerm (p.accept norms.two)) := by
  unfold acceptPoint changeStep Track.acceptPseudoStep Track.pseudoTime?
  simp only [get_bind, measured, show r.track.overlay.strategy = _ from attached]
  rfl

omit [Device δ α] in
theorem cut_eq (attached : r.Term p) :
    cut r = .ok p.halve.isSome (r.withTerm (p.halve.getD p)) := by
  have changed : r.track.halvePseudoStep =
      .ok (r.track.putPseudoTime (p.halve.getD p), p.halve.isSome) := by
    unfold Track.halvePseudoStep Track.pseudoTime?
    rw [show r.track.overlay.strategy = _ from attached]
    dsimp only [bind, Except.bind, Augmentation.pseudoTime?]
    cases p.halve <;> rfl
  unfold cut
  rw [get_bind, changed]
  rfl

/-- A step that was taken: along the Newton direction, to a point with a finite residual. -/
structure Took (line : Scalar.Line K α) (lo hi : K) (P : PureDevice δ α) (r r' : Rig δ α n) :
    Prop extends r'.Marching line lo hi P True where
  ground : r.Grounds P r'
  x : r'.track.x = addScaled r.track.x 1 r'.store.newton
  finite : r'.Finite
  loads : P.Decides r.store.device → r'.Loadable

/-- A step that was taken back. -/
structure TookBack (line : Scalar.Line K α) (lo hi : K) (P : PureDevice δ α) (r r' : Rig δ α n) :
    Prop extends r'.Marching line lo hi P True where
  ground : r.Grounds P r'
  x : r'.track.x = r.track.x
  invalid : r'.isValid .residual = false
  term : r.track.overlay.forwarding = false → r.SameTerm r'

theorem computeResidual_newton (r : Rig δ α n) :
    Ends Rig.computeResidual r (fun _ r' ↦ r'.store.newton = r.store.newton) fun _ _ ↦ True := by
  refine .of_result (Rig.computeResidual_run r) ?_ fun _ _ _ ↦ trivial
  intro ok r' run
  cases run with
  | known => rfl
  | unloaded => rfl
  | loaded => rfl

theorem evaluates_newton (r : Rig δ α n) :
    Ends evaluates r (fun _ r' ↦ r'.store.newton = r.store.newton) fun _ _ ↦ True := by
  unfold evaluates
  simp only [ends_bind, ends_ite, ends_get, ends_pure]
  exact (computeResidual_newton r).mono (fun _ _ same ↦ ⟨fun _ ↦ same, fun _ ↦ same⟩) fun _ _ h ↦ h

/-- What trying a step comes to. -/
inductive Tried (line : Scalar.Line K α) (lo hi : K) (P : PureDevice δ α) (r : Rig δ α n) :
    Bool → Rig δ α n → Prop
  | took {r' : Rig δ α n} (h : Took line lo hi P r r') : Tried line lo hi P r true r'
  | tookBack {r' : Rig δ α n} (h : TookBack line lo hi P r r') : Tried line lo hi P r false r'

theorem tryStep_tried (m : r.Marching line lo hi P coherent) :
    Ends tryStep r (fun taken r' ↦ Tried line lo hi P r taken r') (fun _ _ ↦ True) := by
  -- A rig that has been computed, or has moved from there, goes back to where it was.
  have back : ∀ {r₁ : Rig δ α n} {coherent' : Prop}, r.Grounds P r₁ →
      r₁.Marching line lo hi P coherent' →
      (r.track.overlay.forwarding = false → r.SameTerm r₁) →
      Tried line lo hi P r false (r₁.movedTo r.track.x) := fun {r₁ _} ground m₁ term ↦
    .tookBack ⟨m₁.movedTo _, ground.trans (r₁.grounds_movedTo _), rfl, r₁.not_isValid_movedTo _,
      term⟩
  have stays : ∀ {r₁ : Rig δ α n}, r.Computes line lo hi P coherent r₁ →
      Tried line lo hi P r false (r₁.movedTo r.track.x) :=
    fun computed ↦ back computed.ground computed.toMarching computed.term
  have follows : ∀ {r₁ : Rig δ α n}, r.Computes line lo hi P coherent r₁ →
      Ends evaluates (r₁.movedTo (addScaled r.track.x 1 r₁.store.newton))
        (fun taken r₂ ↦
          Tried line lo hi P r taken (if taken then r₂ else r₂.movedTo r.track.x))
        fun _ _ ↦ True := by
    intro r₁ computed
    have ground :=
      computed.ground.trans (r₁.grounds_movedTo (addScaled r.track.x 1 r₁.store.newton))
    refine ((evaluates_computes (computed.toMarching.movedTo _)).and (evaluates_newton _)).mono ?_
      fun _ _ _ ↦ trivial
    rintro taken r₂ ⟨⟨moved, finite⟩, newton⟩
    cases taken with
    | true =>
      rw [if_pos rfl]
      refine .took ⟨moved.toMarching, ground.trans moved.ground, ?_, finite rfl, fun decides ↦
        moved.loads (ground.decides decides) ?_ (finite rfl).1⟩
      · rw [moved.x, newton]
        rfl
      · rw [Rig.not_isValid_movedTo]
        exact fun never ↦ (Bool.false_ne_true never).elim
    | false =>
      exact back (ground.trans moved.ground) moved.toMarching fun off ↦
        (computed.term off).trans (moved.term (ground.forwarding.trans off))
  unfold tryStep
  simp only [ends_bind, ends_get, ends_ite, ends_orFault, ends_pure, Rig.ends_modifyIterate,
    Rig.ends_modifyTrack]
  refine (Rig.computeJacobian_computes m).mono (fun loaded r₁ computed ↦ ⟨fun _ ↦ ?_, fun _ ↦
    ⟨fun never ↦ (Bool.false_ne_true never).elim, fun _ ↦ ⟨fun _ ↦ stays computed,
      fun never ↦ absurd rfl never⟩⟩⟩) fun _ _ h ↦ h
  refine (Rig.computeNewton_computes computed.toMarching false).mono (fun solved r₂ computed' ↦
    ⟨fun _ ↦ ⟨fun d found ↦ ?_, fun _ _ ↦ trivial⟩, fun _ ↦ ⟨fun _ ↦
      stays (computed.trans computed'), fun never ↦ absurd rfl never⟩⟩) fun _ _ h ↦ h
  obtain ⟨_, _, same⟩ := bind_eq_ok.1 found
  cases same
  refine (follows (computed.trans computed')).mono (fun taken r₃ tried ↦ ?_) fun _ _ h ↦ h
  cases taken with
  | true => exact ⟨fun never ↦ (Bool.false_ne_true never).elim, fun _ ↦ tried⟩
  | false => exact ⟨fun _ ↦ tried, fun never ↦ absurd rfl never⟩

/-- What a march notes before its first step: the residual norm where it starts. -/
inductive Noted (steps : Nat) (r : Rig δ α n) : Rig δ α n → Prop
  | first (h : steps = 0) {p : PseudoTime α} (attached : r.Term p) :
    Noted steps r (r.withTerm (p.accept r.norm))
  | later (h : steps ≠ 0) : Noted steps r r

/-- What surveying comes to: the end of the march, or the residual norm it goes on from. -/
inductive Surveyed (line : Scalar.Line K α) (lo hi : K) (P : PureDevice δ α) (coherent : Prop)
    (options : MarchOptions α) (steps : Nat) (r : Rig δ α n) :
    MarchReport α ⊕ α → Rig δ α n → Prop
  /-- There is no residual here, or it is not finite. -/
  | bad {r' : Rig δ α n} {report : MarchReport α}
    (computed : r.Computes line lo hi P coherent r') (counted : report.steps = steps)
    (failed : report.status = .failed) :
    Surveyed line lo hi P coherent options steps r (.inl report) r'
  /-- The residual is small enough, or the step is large enough. -/
  | arrived {r₁ r' : Rig δ α n} {report : MarchReport α}
    (computed : r.Computes line lo hi P coherent r₁) (finite : r₁.Finite)
    (noted : Noted steps r₁ r') (counted : report.steps = steps)
    (small : report.status = .switched →
      r₁.store.communicator.normInf r₁.store.residual.toArray < options.switchTol) :
    Surveyed line lo hi P coherent options steps r (.inl report) r'
  | onward {r₁ r' : Rig δ α n} {greatest : α} (computed : r.Computes line lo hi P coherent r₁)
    (finite : r₁.Finite) (noted : Noted steps r₁ r') :
    Surveyed line lo hi P coherent options steps r (.inr greatest) r'

theorem survey_surveyed (m : r.Marching line lo hi P coherent)
    (measures : r.store.communicator.Measures) :
    Ends (survey options steps) r
      (fun surveyed r' ↦ Surveyed line lo hi P coherent options steps r surveyed r')
      (fun _ _ ↦ True) := by
  unfold survey reportAt
  simp only [ends_bind, ends_get, ends_ite, ends_pure]
  refine (evaluates_computes m).mono ?_ fun _ _ h ↦ h
  rintro good r₁ ⟨computed, finite⟩
  refine ⟨fun _ ↦ .bad computed rfl rfl, fun there ↦ ?_⟩
  have finite : r₁.Finite := finite (by simpa using there)
  obtain ⟨measured, -⟩ := computed.toMarching.finite_norm (computed.ground.measures measures) finite
  have greatest : (r₁.track.iterate.measured.norms?.map ResidualNorms.max).getD Scalar.undefined =
      r₁.store.communicator.normInf r₁.store.residual.toArray := by
    rw [measured]
    rfl
  rw [greatest]
  refine ⟨fun start ↦ ?_, fun later ↦ ?_⟩
  · obtain ⟨p, h, attached, within⟩ := computed.paced
    rw [ends_of_ok (acceptPoint_eq attached measured)]
    have noted : Noted steps r₁ (r₁.withTerm (p.accept r₁.norm)) := .first start attached
    exact ⟨fun small ↦ .arrived computed finite noted rfl fun _ ↦ small, fun _ ↦
      ⟨fun _ ↦ .arrived computed finite noted rfl (fun never ↦ by cases never),
        fun _ ↦ .onward computed finite noted⟩⟩
  · have noted : Noted steps r₁ r₁ := .later later
    exact ⟨fun small ↦ .arrived computed finite noted rfl fun _ ↦ small, fun _ ↦
      ⟨fun _ ↦ .arrived computed finite noted rfl (fun never ↦ by cases never),
        fun _ ↦ .onward computed finite noted⟩⟩

/-! ## A pass -/

/-- One pass of the loop: the end of the march, or the residual norm that it goes on from, and
whether a step has been accepted. -/
def pass (options : MarchOptions α) (steps : Nat) :
    Step (Rig δ α n) (MarchReport α ⊕ α × Bool) := do
  match ← survey options steps with
  | .inl report => return .inl report
  | .inr greatest =>
    if ← tryStep then
      acceptPoint
      return .inr (greatest, true)
    else if ← cut then return .inr (greatest, false)
    else return .inl (← reportAt .failed steps greatest)

/-- What a pass comes to. -/
inductive Passed (line : Scalar.Line K α) (lo hi : K) (P : PureDevice δ α) (coherent : Prop)
    (options : MarchOptions α) (steps : Nat) (r : Rig δ α n) :
    MarchReport α ⊕ α × Bool → Rig δ α n → Prop
  /-- There is nothing to try, or no need for it. -/
  | surveyed {r' : Rig δ α n} {report : MarchReport α}
    (surveyed : Surveyed line lo hi P coherent options steps r (.inl report) r') :
    Passed line lo hi P coherent options steps r (.inl report) r'
  /-- A step has been accepted. -/
  | accepted {r₁ r₂ : Rig δ α n} {greatest : α}
    (surveyed : Surveyed line lo hi P coherent options steps r (.inr greatest) r₁)
    (took : Took line lo hi P r₁ r₂) {p : PseudoTime α} (attached : r₂.Term p) :
    Passed line lo hi P coherent options steps r (.inr (greatest, true))
      (r₂.withTerm (p.accept r₂.norm))
  /-- A step has been rejected, and its size has been halved. -/
  | rejected {r₁ r₂ : Rig δ α n} {greatest : α}
    (surveyed : Surveyed line lo hi P coherent options steps r (.inr greatest) r₁)
    (tookBack : TookBack line lo hi P r₁ r₂) {p p' : PseudoTime α} (attached : r₂.Term p)
    (halved : p.halve = some p') :
    Passed line lo hi P coherent options steps r (.inr (greatest, false)) (r₂.withTerm p')
  /-- A step has been rejected, and its size cannot be halved any more. -/
  | givenUp {r₁ r₂ : Rig δ α n} {greatest : α} {report : MarchReport α}
    (surveyed : Surveyed line lo hi P coherent options steps r (.inr greatest) r₁)
    (tookBack : TookBack line lo hi P r₁ r₂) {p : PseudoTime α} (attached : r₂.Term p)
    (counted : report.steps = steps) (failed : report.status = .failed) :
    Passed line lo hi P coherent options steps r (.inl report) (r₂.withTerm p)

theorem Noted.ground {r₁ : Rig δ α n} (noted : Noted steps r₁ r') : r₁.Grounds P r' := by
  cases noted with
  | first => exact r₁.grounds_withTerm _
  | later => exact .refl _

omit [Device δ α] in
theorem Noted.x {r₁ : Rig δ α n} (noted : Noted steps r₁ r') : r'.track.x = r₁.track.x := by
  cases noted with
  | first => rfl
  | later => rfl

theorem Noted.marching {r₁ : Rig δ α n} (noted : Noted steps r₁ r')
    (m : r₁.Marching line lo hi P coherent) (measures : r₁.store.communicator.Measures)
    (finite : r₁.Finite) : r'.Marching line lo hi P coherent := by
  cases noted with
  | first _ attached => exact m.accept measures finite attached
  | later => exact m

/-- What a survey leaves is a rig on the same ground and at the same point. -/
theorem Surveyed.spec {surveyed : MarchReport α ⊕ α}
    (h : Surveyed line lo hi P coherent options steps r surveyed r')
    (measures : r.store.communicator.Measures) :
    r'.Marching line lo hi P coherent ∧ r.Grounds P r' ∧ r'.track.x = r.track.x := by
  cases h with
  | bad computed => exact ⟨computed.toMarching, computed.ground, computed.x⟩
  | arrived computed finite noted | onward computed finite noted =>
    exact ⟨noted.marching computed.toMarching (computed.ground.measures measures) finite,
      computed.ground.trans noted.ground, noted.x.trans computed.x⟩

theorem pass_passed (m : r.Marching line lo hi P coherent)
    (measures : r.store.communicator.Measures) :
    Ends (pass options steps) r
      (fun passed r' ↦ Passed line lo hi P coherent options steps r passed r')
      (fun _ _ ↦ True) := by
  unfold pass
  rw [ends_bind]
  refine (survey_surveyed m measures).mono ?_ fun _ _ h ↦ h
  rintro (report | greatest) r₁ surveyed
  · exact .surveyed surveyed
  · have ⟨m₁, ground, _⟩ := surveyed.spec measures
    dsimp only
    unfold reportAt
    simp only [ends_bind, ends_ite, ends_pure, ends_get]
    refine (tryStep_tried m₁).mono ?_ fun _ _ h ↦ h
    rintro taken r₂ tried
    cases tried with
    | took took =>
      refine ⟨fun _ ↦ ?_, fun never ↦ absurd rfl never⟩
      obtain ⟨p, h, attached, within⟩ := took.paced
      obtain ⟨measured, -⟩ :=
        took.toMarching.finite_norm ((ground.trans took.ground).measures measures) took.finite
      rw [ends_of_ok (acceptPoint_eq attached measured)]
      exact .accepted surveyed took attached
    | tookBack tookBack =>
      refine ⟨fun never ↦ (Bool.false_ne_true never).elim, fun _ ↦ ?_⟩
      obtain ⟨p, h, attached, within⟩ := tookBack.paced
      rw [ends_of_ok (cut_eq attached)]
      cases halved : p.halve with
      | some p' =>
        exact ⟨fun _ ↦ .rejected surveyed tookBack attached halved, fun never ↦ absurd rfl never⟩
      | none =>
        exact ⟨fun never ↦ (Bool.false_ne_true never).elim,
          fun _ ↦ .givenUp surveyed tookBack attached rfl rfl⟩

end March

end OperatingPoint
