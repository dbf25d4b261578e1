import OperatingPoint.Proofs.MarchSafety

/-!
# What a march reports

A march reports a residual norm and its step in pseudo-time when it ends.  The step is that of the
attached term.  The norm is that of the residual where the march ends, with one exception: a march
whose steps are used up has moved on after it has taken the norm, and reports the one where its last
step was accepted from.

Nothing is asked of the numbers here.  The term may be any, so that what a march goes through is told
by its ground alone: on the same ground the residual at a point has the same norm, and whether it can
be loaded there does not change.
-/

set_option autoImplicit false

namespace OperatingPoint

open Step

variable {δ α : Type} [Scalar α] [DirectSolver α] [Device δ α] {n : Nat}

namespace Rig

/-- Forwarding, where it is on, changes nothing that a residual goes by: everything has been received
already. -/
structure Resolved (P : PureDevice δ α) (r : Rig δ α n) : Prop where
  view : r.track.overlay.forwarding = true → ∀ entry ∈ r.track.overlay.parameters.entries,
    ∀ d, Device.Reaches r.store.device d → P.view d = P.view r.store.device →
      P.view (Device.setParameter d entry.1 entry.2).2 = P.view d
  blend : r.track.overlay.forwarding = true → ∀ entry ∈ r.track.overlay.parameters.entries,
    entry.1 = Parameters.blendName → ∀ b, r.track.overlay.blend = some b →
      b.setLambda entry.2 = b

/-- What is valid has been loaded here: it is the residual at the point, with its norms. -/
structure Evaluated (P : PureDevice δ α) (r : Rig δ α n) : Prop where
  measured : r.track.iterate.measured =
    .norms (r.store.communicator.normsOf r.store.residual.toArray)
  residual : r.store.residual = r.posed P
  loads : r.Loadable

/-- A rig with a term in pseudo-time, in which what is valid has been loaded where it is. -/
structure Honest (P : PureDevice δ α) (r : Rig δ α n) : Prop where
  term : ∃ p, r.Term p
  decides : P.Decides r.store.device
  evaluated : r.isValid .residual = true → r.Evaluated P

/-- From one rig of a march to a later one. -/
structure Leads (P : PureDevice δ α) (r r' : Rig δ α n) : Prop extends r'.Honest P where
  ground : r.Resolved P → r.Grounds P r'

/-- The norm of the residual at the point. -/
def height (P : PureDevice δ α) (r : Rig δ α n) : α :=
  r.store.communicator.normInf (r.posed P).toArray

variable {P : PureDevice δ α} {r r' r'' : Rig δ α n}

theorem resolved_of_silent (silent : r.track.overlay.forwarding = false) : r.Resolved P := by
  refine ⟨fun on ↦ ?_, fun on ↦ ?_⟩
  all_goals
    rw [silent] at on
    cases on

theorem Grounds.resolved (ground : r.Grounds P r') (h : r.Resolved P) : r'.Resolved P := by
  refine ⟨?_, ?_⟩
  · rw [ground.forwarding, ground.parameters, ground.view]
    exact fun on entry mem d reaches same ↦ h.view on entry mem d (ground.reaches.trans reaches) same
  · rw [ground.forwarding, ground.parameters, ground.blend]
    exact h.blend

theorem Grounds.height (ground : r.Grounds P r') (x : r'.track.x = r.track.x) :
    r'.height P = r.height P := by
  rw [Rig.height, ground.communicator, ground.posed x]
  rfl

theorem Evaluated.of_ground (h : r.Evaluated P) (ground : r.Grounds P r')
    (decides : P.Decides r.store.device) (x : r'.track.x = r.track.x)
    (measured : r'.track.iterate.measured = r.track.iterate.measured)
    (residual : r'.store.residual = r.store.residual) : r'.Evaluated P where
  measured := by rw [measured, residual, ground.communicator, h.measured]
  residual := by rw [residual, ground.posed x, h.residual]
  loads := ground.loads decides x h.loads

theorem Evaluated.norms (h : r.Evaluated P) :
    r.track.iterate.measured = .norms (r.store.communicator.normsOf (r.posed P).toArray) := by
  rw [h.measured, h.residual]

theorem Leads.refl (h : r.Honest P) : r.Leads P r := ⟨h, fun _ ↦ .refl r⟩

theorem Leads.trans (h : r.Leads P r') (h' : r'.Leads P r'') : r.Leads P r'' :=
  ⟨h'.toHonest, fun resolved ↦
    (h.ground resolved).trans (h'.ground ((h.ground resolved).resolved resolved))⟩

/-- Where nothing is valid, nothing has to be known. -/
theorem Honest.of_invalid (term : ∃ p, r.Term p) (decides : P.Decides r.store.device)
    (invalid : r.isValid .residual = false) : r.Honest P where
  term := term
  decides := decides
  evaluated valid := by
    rw [invalid] at valid
    cases valid

theorem Honest.movedTo (h : r.Honest P) (x : Vector α n) : r.Leads P (r.movedTo x) :=
  ⟨.of_invalid h.term h.decides (r.not_isValid_movedTo x), fun _ ↦ r.grounds_movedTo x⟩

/-- Where the residual stays and the ground too, what is known of it stays. -/
theorem Honest.of_ground (h : r.Honest P) (ground : r.Grounds P r') (term : ∃ p, r'.Term p)
    (x : r'.track.x = r.track.x)
    (valid : r'.isValid .residual = true → r.isValid .residual = true)
    (measured : r'.track.iterate.measured = r.track.iterate.measured)
    (residual : r'.store.residual = r.store.residual) : r.Leads P r' :=
  ⟨⟨term, ground.decides h.decides, fun valid' ↦
    (h.evaluated (valid valid')).of_ground ground h.decides x measured residual⟩, fun _ ↦ ground⟩

theorem Honest.withTerm (h : r.Honest P) (p : PseudoTime α) : r.Leads P (r.withTerm p) :=
  h.of_ground (r.grounds_withTerm p) ⟨p, rfl⟩ rfl id rfl rfl

/-! ## Computations -/

/-- What has been received already keeps the ground when it is forwarded once more. -/
theorem forwardOne_grounds_resolved (resolved : r.Resolved P)
    (on : r.track.overlay.forwarding = true) {entry : String × α}
    (mem : entry ∈ r.track.overlay.parameters.entries) :
    Ends (forwardOne entry.1 entry.2) r (fun _ r' ↦ r.Grounds P r') (fun _ _ ↦ True) := by
  rw [forwardOne]
  simp only [ends_bind, ends_get, ends_set, ends_ite, ends_orFault, giveToDevice, ends_pure,
    ends_fault]
  refine ⟨fun reserved ↦ ⟨fun overlay changed ↦ ?_, fun _ _ ↦ trivial⟩,
    fun _ ↦ ⟨fun _ ↦ ?_, fun _ ↦ trivial⟩⟩
  · split at changed
    · rw [Overlay.setProgress] at changed
      split at changed
      · obtain ⟨a, _, same⟩ := bind_eq_ok.1 changed
        cases same
        exact ⟨rfl, rfl, rfl, rfl, rfl, rfl, .refl⟩
      · cases changed
    · rename_i other
      rw [Overlay.setBlend] at changed
      split at changed
      · rename_i b there
        cases changed
        have same := resolved.blend on entry mem (reserved.resolve_left other) b there
        exact ⟨rfl, rfl, (congrArg some same).trans there.symm, rfl, rfl, rfl, .refl⟩
      · cases changed
  · exact ⟨rfl, rfl, rfl, rfl, rfl, resolved.view on entry mem _ .refl rfl,
      .parameter .refl entry.1 entry.2⟩

theorem forwardAll_grounds_resolved (resolved : r.Resolved P)
    (on : r.track.overlay.forwarding = true) {entries : List (String × α)}
    (among : ∀ entry ∈ entries, entry ∈ r.track.overlay.parameters.entries) :
    Ends (forwardAll entries) r (fun _ r' ↦ r.Grounds P r') (fun _ _ ↦ True) := by
  induction entries generalizing r with
  | nil => exact .refl r
  | cons entry rest ih =>
    obtain ⟨mem, among⟩ := List.forall_mem_cons.1 among
    rw [forwardAll, ends_bind]
    refine (forwardOne_grounds_resolved resolved on mem).mono (fun _ r' ground ↦ ?_) fun _ _ h ↦ h
    refine (ih (ground.resolved resolved) (ground.forwarding.trans on) ?_).mono
      (fun _ _ ground' ↦ ground.trans ground') fun _ _ h ↦ h
    rwa [ground.parameters]

/-- Forwarding to a rig that is resolved keeps the ground. -/
theorem forward_grounds_resolved (resolved : r.Resolved P) :
    Ends forward r (fun _ r' ↦ r.Grounds P r') (fun _ _ ↦ True) := by
  rw [forward]
  simp only [ends_bind, ends_get, ends_ite, ends_pure]
  exact ⟨fun on ↦ forwardAll_grounds_resolved resolved on fun _ mem ↦ mem, fun _ ↦ .refl r⟩

/-- Forwarding keeps that a term is attached. -/
theorem forward_term (h : ∃ p, r.Term p) :
    Ends forward r (fun _ r' ↦ ∃ p, r'.Term p) (fun _ _ ↦ True) := by
  refine (forward_overlay
    (K := fun o ↦ ∃ p : PseudoTime α, o.strategy = some (.pseudoTransient p)) ?_ ?_ h).mono
    (fun _ _ kept ↦ kept) fun _ _ _ ↦ trivial
  · rintro o o' value ⟨p, attached⟩ changed
    rw [Overlay.setProgress, attached] at changed
    cases changed
    exact ⟨_, rfl⟩
  · rintro o o' value ⟨p, attached⟩ changed
    exact ⟨p, (Overlay.setBlend_lambda changed).2.trans attached⟩

theorem computeResidual_leads (h : r.Honest P) :
    Ends computeResidual r
      (fun ok r' ↦ r.Leads P r' ∧ r'.track.x = r.track.x ∧ r'.isValid .residual = ok ∧
        (r.Resolved P → r.Loadable → ok = true))
      (fun _ _ ↦ True) := by
  have ground₀ : r.Grounds P r.computing := ⟨rfl, rfl, rfl, rfl, rfl, rfl, .refl⟩
  have termed := forward_term (r := r.computing) h.term
  have reached := preserves_forward (K := Device.Reaches r.store.device) (n := n)
    (fun reaches ↦ .parameter reaches) r.computing .refl
  have grounded : r.Resolved P →
      Ends forward r.computing (fun _ r' ↦ r.Grounds P r') (fun _ _ ↦ True) := fun resolved ↦
    (forward_grounds_resolved (ground₀.resolved resolved)).mono
      (fun _ _ ground ↦ ground₀.trans ground) fun _ _ h ↦ h
  refine .of_result (computeResidual_run r) ?_ fun _ _ _ ↦ trivial
  intro ok r' run
  have valid := run.valid
  cases run with
  | known => exact ⟨.refl h, rfl, valid, fun _ _ ↦ rfl⟩
  | @unloaded invalid device overlay run load call failed =>
    subst call
    have term := termed.ok run
    have reaches : Device.Reaches r.store.device device := reached.ok run
    refine ⟨⟨.of_invalid term (h.decides.later (.residual reaches ..)) valid, fun resolved ↦ ?_⟩,
      rfl, valid, fun resolved loads ↦ ?_⟩
    · exact ((grounded resolved).ok run).load rfl rfl rfl rfl rfl rfl
    · -- Whether the residual can be loaded goes by the view, which forwarding has not changed.
      have view := ((grounded resolved).ok run).view
      rw [h.decides reaches .refl view _ _ _ r.store.residual, loads] at failed
      cases failed
  | @loaded invalid device overlay overlay' run load call good f augmented =>
    obtain ⟨p, attached⟩ := termed.ok run
    have attached : overlay.strategy = some (.pseudoTransient p) := attached
    have plain := Overlay.augmentResidual_some attached r.track.x load.buffer
    rw [augmented] at plain
    obtain ⟨rfl, rfl⟩ := Prod.mk.inj (Except.ok.inj plain)
    subst call
    have reaches : Device.Reaches r.store.device device := reached.ok run
    let load := Device.loadResidual device r.track.x r.store.previous r.store.residual
    let f := overlay.blendResidual r.track.x load.buffer
    let r' := r.put { r.store.afterResidual r.track.iterate.id load with residual := f }
      { r.track.iterate with
        flags := { residual := .valid }
        measured := .norms (r.store.communicator.normsOf f.toArray) }
      { overlay with strategy := some (.pseudoTransient p) }
    have residual : f = r'.posed P := blendResidual_load good overlay
    have loads : r'.Loadable := fun buffer ↦
      (h.decides (.residual reaches ..) reaches (P.residual_view ..) ..).trans good
    refine ⟨⟨⟨⟨p, rfl⟩, h.decides.later (.residual reaches ..), fun _ ↦ ⟨rfl, residual, loads⟩⟩,
      fun resolved ↦ ?_⟩, rfl, valid, fun _ _ ↦ rfl⟩
    apply ((grounded resolved).ok run).load <;> rfl

/-- A load of the Jacobian at a rig that a computation has led to. -/
theorem Leads.loadJacobian {load : Load δ (Mat α n n)} {it : Iterate α n} {o : Overlay α}
    {A : Mat α n n} (h : r.Leads P r') (call : load = r'.store.jacobianLoad r'.track.x)
    (parameters : o.parameters = r'.track.overlay.parameters)
    (forwarding : o.forwarding = r'.track.overlay.forwarding)
    (blend : o.blend = r'.track.overlay.blend)
    (term : ∃ p : PseudoTime α, o.strategy = some (.pseudoTransient p))
    (x : it.x = r'.track.iterate.x)
    (flag : it.flags.residual = r'.track.iterate.flags.residual) (id : it.id = r'.track.iterate.id)
    (measured : it.measured = r'.track.iterate.measured) :
    r.Leads P
      (r'.put { r'.store.afterJacobian r'.track.iterate.id load with jacobian := A } it o) := by
  subst call
  refine h.trans (h.toHonest.of_ground ⟨parameters, forwarding, blend, rfl, rfl,
    P.jacobian_view .., .jacobian .refl ..⟩ term x ?_ measured rfl)
  rw [isValid_iff, isValid_iff]
  simp [Flags.of, flag, id]

theorem computeJacobian_leads (h : r.Honest P) :
    Ends computeJacobian r (fun _ r' ↦ r.Leads P r' ∧ r'.track.x = r.track.x)
      (fun _ _ ↦ True) := by
  have outdated : r.Leads P r.outdated :=
    ⟨.of_invalid h.term h.decides
      (Bool.eq_false_iff.2 (Iterate.not_isValid_of_stale (q := .residual) rfl)),
      fun _ ↦ ⟨rfl, rfl, rfl, rfl, rfl, rfl, .refl⟩⟩
  have renewed : Ends computeResidual r.outdated
      (fun _ r' ↦ r.Leads P r' ∧ r'.track.x = r.track.x) fun _ _ ↦ True :=
    (computeResidual_leads outdated.toHonest).mono
      (fun _ _ kept ↦ ⟨outdated.trans kept.1, kept.2.1⟩) fun _ _ h ↦ h
  have refreshed : ∀ {r' : Rig δ α n}, Refreshed r r' →
      r.Leads P r' ∧ r'.track.x = r.track.x := fun base ↦
    base.keeps (K := fun r' ↦ r.Leads P r' ∧ r'.track.x = r.track.x) ⟨.refl h, rfl⟩ fun _ ↦ renewed
  refine .of_result (computeJacobian_run r) ?_ fun _ _ _ ↦ trivial
  intro ok r' run
  cases run with
  | known => exact ⟨.refl h, rfl⟩
  | unrefreshed invalid needed run => exact renewed.ok run
  | unloaded invalid base call failed =>
    obtain ⟨leads, x⟩ := refreshed base
    exact ⟨leads.loadJacobian call rfl rfl rfl leads.term rfl rfl rfl rfl, x⟩
  | loaded invalid base call good augmented =>
    obtain ⟨leads, x⟩ := refreshed base
    obtain ⟨p, attached⟩ := leads.term
    obtain ⟨q, -, rfl⟩ := Overlay.term_augmentJacobian attached augmented
    exact ⟨leads.loadJacobian call rfl rfl rfl ⟨q, rfl⟩ rfl rfl rfl rfl, x⟩

theorem computeNewton_leads (h : r.Honest P) (mayReuse : Bool) :
    Ends (computeNewton mayReuse) r (fun _ r' ↦ r.Leads P r' ∧ r'.track.x = r.track.x)
      (fun _ _ ↦ True) := by
  have solved : ∀ {s : Store δ α n} {flag : Validity}, s.device = r.store.device →
      s.previous = r.store.previous → s.residual = r.store.residual →
      s.communicator = r.store.communicator →
      s.owners.of .residual = r.store.owners.of .residual →
      r.Leads P (r.put s (withNewton r.track.iterate flag) r.track.overlay) := by
    intro s flag device previous residual communicator owner
    refine h.of_ground (grounds_withNewton device previous communicator) h.term rfl ?_ rfl residual
    rw [isValid_iff, isValid_iff, put_store, owner]
    exact id
  refine .of_result (computeNewton_run r mayReuse) ?_ fun _ _ _ ↦ trivial
  intro ok r' run
  cases run with
  | known => exact ⟨.refl h, rfl⟩
  | solved => exact ⟨solved rfl rfl rfl rfl (by simp), rfl⟩
  | refused => exact ⟨solved rfl rfl rfl rfl (by simp), rfl⟩

/-! ## Where the residual is finite -/

theorem Evaluated.isFinite (h : r.Evaluated P) :
    r.track.iterate.measured.isFinite = r.store.communicator.allFinite (r.posed P).toArray := by
  rw [h.norms]
  rfl

theorem Evaluated.height (h : r.Evaluated P) :
    (r.track.iterate.measured.norms?.map ResidualNorms.max).getD Scalar.undefined = r.height P := by
  rw [h.norms]
  rfl

theorem Honest.sane (h : r.Honest P) (finite : r.Finite) : r.Sane := by
  have evaluated := h.evaluated finite.1
  exact evaluated.loads.sane (evaluated.isFinite.symm.trans finite.2)

theorem Sane.allFinite (sane : r.Sane) (P : PureDevice δ α) :
    r.store.communicator.allFinite (r.posed P).toArray = true := by
  rw [← sane.1.loaded (r.store.residual)]
  exact sane.2 _

/-- A rig of a march that nothing is forwarded to any more, at a point where the residual can be
loaded and is finite. -/
structure Firm (P : PureDevice δ α) (r : Rig δ α n) : Prop extends r.Honest P where
  resolved : r.Resolved P
  sane : r.Sane

theorem Firm.stays (h : r.Firm P) (leads : r.Leads P r') (x : r'.track.x = r.track.x) :
    r'.Firm P where
  toHonest := leads.toHonest
  resolved := (leads.ground h.resolved).resolved h.resolved
  sane := (leads.ground h.resolved).sane h.decides x h.sane

theorem Firm.moves (h : r.Firm P) (leads : r.Leads P r') (finite : r'.Finite) : r'.Firm P where
  toHonest := leads.toHonest
  resolved := (leads.ground h.resolved).resolved h.resolved
  sane := leads.toHonest.sane finite

end Rig

namespace March

variable {P : PureDevice δ α} {r r' : Rig δ α n} {options : MarchOptions α} {steps : Nat}

/-! ## One pass -/

theorem evaluates_leads (h : r.Honest P) :
    Ends evaluates r
      (fun good r' ↦ r.Leads P r' ∧ r'.track.x = r.track.x ∧ (good = true → r'.Finite) ∧
        (r.Resolved P → r.Sane → good = true))
      (fun _ _ ↦ True) := by
  rw [evaluates]
  simp only [ends_bind, ends_ite, ends_get, ends_pure]
  refine (Rig.computeResidual_leads h).mono ?_ fun _ _ h ↦ h
  rintro ok r' ⟨leads, x, valid, able⟩
  refine ⟨fun loaded ↦ ⟨leads, x, fun finite ↦ ⟨valid.trans loaded, finite⟩, fun resolved sane ↦ ?_⟩,
    fun unloaded ↦ ⟨leads, x, fun never ↦ (Bool.false_ne_true never).elim,
      fun resolved sane ↦ ?_⟩⟩
  · have ground := leads.ground resolved
    rw [(leads.evaluated (valid.trans loaded)).isFinite, ground.communicator, ground.posed x]
    exact sane.allFinite P
  · exact absurd (able resolved sane.1) unloaded

theorem tryStep_leads (h : r.Honest P) :
    Ends tryStep r
      (fun taken r' ↦ r.Leads P r' ∧ (taken = true → r'.Finite) ∧
        (taken = false → r'.track.x = r.track.x))
      (fun _ _ ↦ True) := by
  have back : ∀ {r₁ : Rig δ α n}, r.Leads P r₁ → r.Leads P (r₁.movedTo r.track.x) :=
    fun leads ↦ leads.trans (leads.toHonest.movedTo _)
  have stays : ∀ {r₁ : Rig δ α n} {untaken : Prop}, r.Leads P r₁ →
      r.Leads P (r₁.movedTo r.track.x) ∧ (false = true → (r₁.movedTo r.track.x).Finite) ∧
        (untaken → (r₁.movedTo r.track.x).track.x = r.track.x) := fun leads ↦
    ⟨back leads, fun never ↦ (Bool.false_ne_true never).elim, fun _ ↦ rfl⟩
  rw [tryStep]
  simp only [ends_bind, ends_get, ends_ite, ends_orFault, ends_pure, Rig.ends_modifyIterate,
    Rig.ends_modifyTrack]
  refine (Rig.computeJacobian_leads h).mono (fun loaded r₁ led ↦ ⟨fun _ ↦ ?_, fun _ ↦
    ⟨fun never ↦ (Bool.false_ne_true never).elim, fun _ ↦ ⟨fun _ ↦ stays led.1,
      fun never ↦ absurd rfl never⟩⟩⟩) fun _ _ h ↦ h
  refine (Rig.computeNewton_leads led.1.toHonest false).mono (fun solved r₂ led' ↦
    ⟨fun _ ↦ ⟨fun d found ↦ ?_, fun _ _ ↦ trivial⟩, fun _ ↦ ⟨fun _ ↦ stays (led.1.trans led'.1),
      fun never ↦ absurd rfl never⟩⟩) fun _ _ h ↦ h
  have moved := led'.1.toHonest.movedTo (addScaled r.track.x 1 d)
  refine (evaluates_leads moved.toHonest).mono (fun taken r₃ led'' ↦ ?_) fun _ _ h ↦ h
  have leads : r.Leads P r₃ := (led.1.trans led'.1).trans (moved.trans led''.1)
  cases taken with
  | true =>
    exact ⟨fun never ↦ (Bool.false_ne_true never).elim, fun _ ↦ ⟨leads, led''.2.2.1,
      fun never ↦ by cases never⟩⟩
  | false => exact ⟨fun _ ↦ stays leads, fun never ↦ absurd rfl never⟩

/-- A report that describes the rig where it was made. -/
structure Describes (P : PureDevice δ α) (r : Rig δ α n) (report : MarchReport α) : Prop where
  finalStep : r.track.progress = some report.finalStep
  maxResidual : report.maxResidual = r.height P

theorem reportAt_eq (h : r.Honest P) (status : MarchStatus) (steps : Nat) (maxResidual : α) :
    ∃ step, r.track.progress = some step ∧
      reportAt status steps maxResidual r = .ok ⟨status, steps, step, maxResidual⟩ r := by
  obtain ⟨p, attached⟩ := h.term
  have progress : r.track.progress = some p.step := by
    rw [Track.progress, show r.track.overlay.strategy = _ from attached]
    rfl
  refine ⟨p.step, progress, ?_⟩
  rw [reportAt, get_bind, progress]
  rfl

theorem reportAt_describes (h : r.Honest P) (status : MarchStatus) (steps : Nat) :
    Ends (reportAt status steps (r.height P)) r
      (fun report r' ↦ r' = r ∧ report.status = status ∧ Describes P r report)
      (fun _ _ ↦ False) := by
  obtain ⟨step, progress, eq⟩ := reportAt_eq h status steps (r.height P)
  rw [ends_of_ok eq]
  exact ⟨rfl, rfl, progress, rfl⟩

/-- Noting the residual norm with the term leaves the point and the ground as they are. -/
theorem acceptPoint_leads (h : r.Honest P) (valid : r.isValid .residual = true) :
    Ends acceptPoint r (fun _ r' ↦ r.Leads P r' ∧ r'.track.x = r.track.x) (fun _ _ ↦ False) := by
  obtain ⟨p, attached⟩ := h.term
  rw [ends_of_ok (acceptPoint_eq attached (h.evaluated valid).norms)]
  exact ⟨h.withTerm _, rfl⟩

theorem cut_leads (h : r.Honest P) :
    Ends cut r (fun _ r' ↦ r.Leads P r' ∧ r'.track.x = r.track.x) (fun _ _ ↦ False) := by
  obtain ⟨p, attached⟩ := h.term
  rw [ends_of_ok (cut_eq attached)]
  exact ⟨h.withTerm _, rfl⟩

/-- What a survey tells of a firm rig: the residual norm at its point. -/
structure Tells (P : PureDevice δ α) (r : Rig δ α n) (surveyed : MarchReport α ⊕ α)
    (r' : Rig δ α n) : Prop extends r'.Firm P where
  ground : r.Grounds P r'
  x : r'.track.x = r.track.x
  told : surveyed.elim (fun report ↦ report.status ≠ .maxSteps ∧ Describes P r' report)
    fun greatest ↦ greatest = r.height P

theorem survey_tells (h : r.Firm P) :
    Ends (survey options steps) r (fun surveyed r' ↦ Tells P r surveyed r')
      (fun _ _ ↦ True) := by
  have rest : ∀ {r₁ : Rig δ α n}, r.Leads P r₁ → r₁.track.x = r.track.x →
      Ends (do
        if r₁.height P < options.switchTol then
          return .inl (← reportAt .switched steps (r₁.height P))
        if (← get).track.progress.any fun step ↦ decide (options.maxStep ≤ step) then
          return .inl (← reportAt .maxPseudoStep steps (r₁.height P))
        return .inr (r₁.height P)) r₁ (fun surveyed r' ↦ Tells P r surveyed r')
        (fun _ _ ↦ True) := by
    intro r₁ leads x
    have ground := leads.ground h.resolved
    have ended : ∀ status, status ≠ .maxSteps →
        Ends (reportAt status steps (r₁.height P)) r₁ (fun report r' ↦ Tells P r (.inl report) r')
          (fun _ _ ↦ True) := by
      intro status onward
      refine (reportAt_describes leads.toHonest status steps).mono ?_ fun _ _ _ ↦ trivial
      rintro report _ ⟨rfl, rfl, describes⟩
      exact ⟨h.stays leads x, ground, x, onward, describes⟩
    simp only [ends_bind, ends_get, ends_ite, ends_pure]
    exact ⟨fun _ ↦ ended .switched (by decide), fun _ ↦
      ⟨fun _ ↦ ended .maxPseudoStep (by decide), fun _ ↦
        ⟨h.stays leads x, ground, x, ground.height x⟩⟩⟩
  rw [survey, ends_bind]
  refine (evaluates_leads h.toHonest).mono ?_ fun _ _ h ↦ h
  rintro good r₁ ⟨leads, x, finite, able⟩
  obtain rfl := able h.resolved h.sane
  have evaluated := leads.evaluated (finite rfl).1
  rw [if_neg (by decide), ends_bind, ends_get]
  dsimp only
  rw [evaluated.height]
  by_cases start : steps = 0
  · rw [if_pos start, ends_bind]
    refine (acceptPoint_leads leads.toHonest (finite rfl).1).mono (fun _ r₂ noted ↦ ?_)
      fun _ _ never ↦ never.elim
    have ground := (leads.ground h.resolved).resolved h.resolved
    rw [← (noted.1.ground ground).height noted.2]
    exact rest (leads.trans noted.1) (noted.2.trans x)
  · rw [if_neg start]
    exact rest leads x

/-- What a pass tells of a firm rig: the residual norm at its point, from which an accepted step has
moved on. -/
inductive Told (P : PureDevice δ α) (r : Rig δ α n) :
    MarchReport α ⊕ α × Bool → Rig δ α n → Prop
  | ended {report : MarchReport α} {r' : Rig δ α n} (stays : r'.track.x = r.track.x)
    (onward : report.status ≠ .maxSteps) (describes : Describes P r' report) :
    Told P r (.inl report) r'
  | accepted {r' : Rig δ α n} : Told P r (.inr (r.height P, true)) r'
  | rejected {r' : Rig δ α n} (stays : r'.track.x = r.track.x) :
    Told P r (.inr (r.height P, false)) r'

theorem pass_told (h : r.Firm P) :
    Ends (pass options steps) r
      (fun passed r' ↦ Told P r passed r' ∧ r'.Firm P ∧ r.Grounds P r') (fun _ _ ↦ True) := by
  rw [pass, ends_bind]
  refine (survey_tells h).mono ?_ fun _ _ h ↦ h
  rintro (report | greatest) r₁ tells
  · exact ⟨.ended tells.x tells.told.1 tells.told.2, tells.toFirm, tells.ground⟩
  · obtain rfl : greatest = r.height P := tells.told
    simp only [ends_bind, ends_ite, ends_pure]
    refine (tryStep_leads tells.toHonest).mono ?_ fun _ _ h ↦ h
    rintro taken r₂ ⟨leads, finite, stays⟩
    have ground := tells.ground.trans (leads.ground tells.resolved)
    refine ⟨fun taken ↦ ?_, fun untaken ↦ ?_⟩
    · have firm := tells.toFirm.moves leads (finite taken)
      refine (acceptPoint_leads leads.toHonest (finite taken).1).mono ?_ fun _ _ _ ↦ trivial
      exact fun _ r₃ noted ↦ ⟨.accepted, firm.stays noted.1 noted.2,
        ground.trans (noted.1.ground firm.resolved)⟩
    · have x := stays (Bool.eq_false_iff.2 untaken)
      have firm := tells.toFirm.stays leads x
      refine (cut_leads leads.toHonest).mono ?_ fun _ _ _ ↦ trivial
      rintro halved r₃ ⟨cut, same⟩
      have ground₃ := ground.trans (cut.ground firm.resolved)
      have stays : r₃.track.x = r.track.x := same.trans (x.trans tells.x)
      refine ⟨fun _ ↦ ⟨.rejected stays, firm.stays cut same, ground₃⟩, fun _ ↦ ?_⟩
      rw [← ground₃.height stays]
      refine (reportAt_describes cut.toHonest .failed steps).mono ?_ fun _ _ _ ↦ trivial
      rintro report _ ⟨rfl, failed, describes⟩
      exact ⟨.ended stays (by simp [failed]) describes, firm.stays cut same, ground₃⟩

/-! ## All passes -/

/-- What a march tells that has started from a firm rig, where the loop has come with the residual
norm `greatest`. -/
structure Reports (P : PureDevice δ α) (options : MarchOptions α) (steps : Nat) (greatest : α)
    (r : Rig δ α n) (trace : List (Turn δ α n)) (report : MarchReport α) (r' : Rig δ α n) : Prop
    extends r'.Firm P where
  ground : r.Grounds P r'
  x : r'.track.x = (acceptedTurns trace).getLast?.elim r.track.x fun turn ↦ turn.after.track.x
  finalStep : r'.track.progress = some report.finalStep
  /-- Unless its steps are used up, a march ends where it has taken the norm. -/
  here : report.status ≠ .maxSteps → report.maxResidual = r'.height P
  /-- A march whose steps are used up ends where its last step has moved on to. -/
  before : report.status = .maxSteps → (acceptedTurns trace).getLast?.elim
    (options.maxSteps ≤ steps ∧ report.maxResidual = greatest)
    fun turn ↦ (r'.movedTo turn.before.track.x).Sane ∧
      report.maxResidual = (r'.movedTo turn.before.track.x).height P

/-- The loop may start from a rig that is not firm yet, if its first pass makes it so. -/
theorem Marches.reports {g : Rig δ α n} {greatest : α} {trace : List (Turn δ α n)}
    {report : MarchReport α} {result : EStateM.Result Stop (Rig δ α n) (MarchReport α)}
    (marches : Marches options steps greatest r trace result) (firm : g.Firm P)
    (x : r.track.x = g.track.x)
    (enters : steps < options.maxSteps → pass options steps r = pass options steps g)
    (idles : options.maxSteps ≤ steps → r = g) (ended : result = .ok report r') :
    Reports P options steps greatest g trace report r' := by
  have told : ∀ {r₁ : Rig δ α n} {passed : MarchReport α ⊕ α × Bool},
      pass options steps g = .ok passed r₁ → Told P g passed r₁ ∧ r₁.Firm P ∧ g.Grounds P r₁ :=
    fun run ↦ (pass_told firm).ok run
  induction marches generalizing g with
  | @usedUp steps greatest r spent =>
    obtain rfl := idles spent
    obtain ⟨step, progress, eq⟩ := reportAt_eq firm.toHonest .maxSteps steps greatest
    rw [eq] at ended
    cases ended
    exact ⟨firm, .refl _, rfl, progress, fun never ↦ absurd rfl never, fun _ ↦ ⟨spent, rfl⟩⟩
  | stopped => cases ended
  | ended more run =>
    cases ended
    obtain ⟨told, firm', ground⟩ := told ((enters more).symm.trans run)
    cases told with
    | ended stays onward describes =>
      exact ⟨firm', ground, stays, describes.finalStep, fun _ ↦ describes.maxResidual,
        fun never ↦ absurd never onward⟩
  | @accepted steps _ r₀ _ r₁ trace _ more run rest ih =>
    obtain ⟨told, firm', ground⟩ := told ((enters more).symm.trans run)
    cases told
    have reports := ih firm' rfl (fun _ ↦ rfl) (fun _ ↦ rfl) ended fun run ↦ (pass_told firm').ok run
    have last : acceptedTurns (⟨.accepted, steps, r₀, r₁⟩ :: trace) =
        ⟨.accepted, steps, r₀, r₁⟩ :: acceptedTurns trace := rfl
    refine ⟨reports.toFirm, ground.trans reports.ground, ?_, reports.finalStep, reports.here,
      fun used ↦ ?_⟩
    · rw [reports.x, last, List.getLast?_cons]
      cases (acceptedTurns trace).getLast? <;> rfl
    · have before := reports.before used
      rw [last, List.getLast?_cons]
      cases turns : (acceptedTurns trace).getLast? with
      | some turn =>
        rw [turns] at before
        exact before
      | none =>
        rw [turns] at before
        have back : g.Grounds P (r'.movedTo r₀.track.x) :=
          (ground.trans reports.ground).trans (r'.grounds_movedTo _)
        exact ⟨back.sane firm.decides x firm.sane, before.2.trans (back.height x).symm⟩
  | @rejected steps _ r₀ _ r₁ trace _ more run rest ih =>
    obtain ⟨told, firm', ground⟩ := told ((enters more).symm.trans run)
    cases told with
    | rejected stays =>
      have reports := ih firm' rfl (fun _ ↦ rfl) (fun _ ↦ rfl) ended fun run ↦
        (pass_told firm').ok run
      have last : acceptedTurns (⟨.rejected, steps, r₀, r₁⟩ :: trace) = acceptedTurns trace := rfl
      refine ⟨reports.toFirm, ground.trans reports.ground, ?_, reports.finalStep, reports.here,
        fun used ↦ ?_⟩
      · rw [reports.x, last, stays]
      · -- The steps are not used up where one is rejected, so that another one was accepted.
        have before := reports.before used
        rw [last]
        cases turns : (acceptedTurns trace).getLast? with
        | some turn =>
          rw [turns] at before
          exact before
        | none =>
          rw [turns] at before
          exact absurd before.1 (not_le.2 more)

/-! ## A march with a report -/

/-- A march from a point whose residual is there surveys that residual. -/
theorem pass_of_evaluates {r₁ : Rig δ α n} (start : evaluates r = .ok true r₁)
    (finite : r₁.Finite) : pass options steps r = pass options steps r₁ := by
  have again : evaluates r₁ = .ok true r₁ := by
    rw [evaluates, bind_of_ok (Rig.computeResidual_of_valid finite.1), if_pos rfl, get_bind,
      finite.2]
    rfl
  have surveys : survey options steps r = survey options steps r₁ := by
    rw [survey, bind_of_ok start, bind_of_ok again]
  show (survey options steps >>= _) r = (survey options steps >>= _) r₁
  cases run : survey options steps r₁ with
  | ok surveyed r₂ => rw [bind_of_ok (surveys.trans run), bind_of_ok run]
  | error stop r₂ => rw [bind_of_error (surveys.trans run), bind_of_error run]

/-- A march from a point where the residual is finite reports the step of the term as it is in the
end, and a residual norm.  Unless its steps are used up, that is the norm of the residual where it
ends, as the device layer loads it there.  Where they are used up it is the norm at the point that
its last accepted step has left, and the march ends at the point that this step has led to. -/
theorem report_of_run {p : PseudoTime α} {r₁ : Rig δ α n} {report : MarchReport α}
    (attached : r.Term p) (decides : P.Decides r.store.device)
    (coherent : r.isValid .residual = true → r.Evaluated P)
    (start : evaluates r = .ok true r₁) (resolved : r₁.Resolved P) (allowed : 0 < options.maxSteps)
    (ran : run options r = .ok report r') :
    r'.track.progress = some report.finalStep ∧ r'.Sane ∧
      (report.status ≠ .maxSteps → ∀ buffer,
        report.maxResidual = r'.store.communicator.normInf (r'.loaded buffer).toArray) ∧
      (report.status = .maxSteps → ∃ trace turn,
        Marches options 0 Scalar.infinity r trace (.ok report r') ∧
        (acceptedTurns trace).getLast? = some turn ∧ r'.track.x = turn.after.track.x ∧
        (r'.movedTo turn.before.track.x).Sane ∧ ∀ buffer, report.maxResidual =
          r'.store.communicator.normInf
            ((r'.movedTo turn.before.track.x).loaded buffer).toArray) := by
  have honest : r.Honest P := ⟨⟨p, attached⟩, decides, coherent⟩
  obtain ⟨leads, x, finite, -⟩ := (evaluates_leads honest).ok start
  have firm : r₁.Firm P := ⟨leads.toHonest, resolved, leads.toHonest.sane (finite rfl)⟩
  obtain ⟨trace, marches⟩ := marches_of_ok ran
  have reports := marches.reports firm x.symm (fun _ ↦ pass_of_evaluates start (finite rfl))
    (fun spent ↦ absurd allowed (not_lt.2 spent)) rfl
  refine ⟨reports.finalStep, reports.sane, fun status buffer ↦ ?_, fun status ↦ ?_⟩
  · rw [reports.here status, Rig.height, reports.sane.1.loaded (P := P)]
  · have before := reports.before status
    have last := reports.x
    cases turns : (acceptedTurns trace).getLast? with
    | none =>
      rw [turns] at before
      exact absurd allowed (not_lt.2 before.1)
    | some turn =>
      rw [turns] at before last
      refine ⟨trace, turn, marches, turns, last, before.1, fun buffer ↦ ?_⟩
      rw [before.2, Rig.height, before.1.1.loaded (P := P)]
      rfl

/-- A march whose one step leads from a residual of four to one of eight thirds, and that reports
four. -/
theorem report_of_run_spent : ∃ report r' turn trace,
    run { Fuse.options 2 with maxSteps := 1 } Fuse.rig = .ok report r' ∧
      report.status = .maxSteps ∧ report.maxResidual = 4 ∧
      (∀ buffer, r'.store.communicator.normInf (r'.loaded buffer).toArray =
        .number (8 / 3)) ∧
      Marches { Fuse.options 2 with maxSteps := 1 } 0 Scalar.infinity Fuse.rig trace
        (.ok report r') ∧
      (acceptedTurns trace).getLast? = some turn ∧ r'.track.x = turn.after.track.x ∧
      ∀ buffer, report.maxResidual = r'.store.communicator.normInf
        ((r'.movedTo turn.before.track.x).loaded buffer).toArray := by
  have known : Ends (run { Fuse.options 2 with maxSteps := 1 }) Fuse.rig
      (fun report r' ↦ report.status = .maxSteps ∧ report.maxResidual = 4 ∧
        r'.store.communicator.normInf (r'.loaded (zeros _ 1)).toArray = .number (8 / 3))
      fun _ _ ↦ False := by
    decide +kernel
  have start : Ends evaluates Fuse.rig
      (fun good r₁ ↦ good = true ∧ r₁.track.overlay.forwarding = false) fun _ _ ↦ False := by
    decide +kernel
  cases began : evaluates Fuse.rig with
  | error stop r₁ => exact (start.error began).elim
  | ok good r₁ =>
    obtain ⟨rfl, silent⟩ := start.ok began
    cases ran : run { Fuse.options 2 with maxSteps := 1 } Fuse.rig with
    | error stop r' => exact (known.error ran).elim
    | ok report r' =>
      obtain ⟨spent, four, least⟩ := known.ok ran
      obtain ⟨-, -, -, before⟩ := report_of_run (P := Fuse.pure) (r := Fuse.rig) (p := Fuse.term)
        rfl (Fuse.pure_decides _) (fun never ↦ by cases never) began
        (Rig.resolved_of_silent silent) Nat.zero_lt_one ran
      obtain ⟨trace, turn, marches, last, x, -, there⟩ := before spent
      exact ⟨report, r', turn, trace, rfl, spent, four, fun _ ↦ least, marches, last, x, there⟩

end March

end OperatingPoint
