import OperatingPoint.Proofs.Equations
import OperatingPoint.Proofs.MarchRun
import OperatingPoint.Proofs.PseudoSteps

/-!
# The ground of a march

A march moves its point and changes its step in pseudo-time.  Everything else that its residuals go
by stays: the parameters, the blend, the solution of the previous point, the communicator and the
view of the device layer.  That is the *ground* of the march.  On the same ground the residual at a
point is the same, whenever it is loaded.

Every computation of a march keeps the ground and the point, and what is valid afterwards is known
of it: `Rig.Computes`.
-/

set_option autoImplicit false

namespace OperatingPoint

open Step

theorem Device.Reaches.trans {δ α : Type} [Device δ α] {d d' d'' : δ} (h : Device.Reaches d d')
    (h' : Device.Reaches d' d'') : Device.Reaches d d'' := by
  induction h' with
  | refl => exact h
  | residual _ x previous buffer ih => exact .residual ih x previous buffer
  | jacobian _ x previous buffer ih => exact .jacobian ih x previous buffer
  | parameter _ name value ih => exact .parameter ih name value
  | accept _ x ih => exact .accept ih x
  | abandon _ ih => exact .abandon ih

/-- Whether the residual can be loaded goes by the view too, in all states that a device layer can
come to. -/
def PureDevice.Decides {δ α : Type} [Scalar α] [Device δ α] (P : PureDevice δ α) (layer : δ) :
    Prop :=
  ∀ ⦃d d' : δ⦄, Device.Reaches layer d → Device.Reaches layer d' → P.view d = P.view d' →
    ∀ {n : Nat} (x previous buffer buffer' : Vector α n),
      (Device.loadResidual d x previous buffer).ok =
        (Device.loadResidual d' x previous buffer').ok

/-- It does so in later states too. -/
theorem PureDevice.Decides.later {δ α : Type} [Scalar α] [Device δ α] {P : PureDevice δ α}
    {d d' : δ} (h : P.Decides d) (reaches : Device.Reaches d d') : P.Decides d' :=
  fun _ _ reach reach' ↦ h (reaches.trans reach) (reaches.trans reach')

/-- Where a Jacobian is changed, the term notes what it has put on the diagonal. -/
theorem Overlay.term_augmentJacobian {α : Type} [Scalar α] {n : Nat} {o o' : Overlay α}
    {p : PseudoTime α} {A A' : Mat α n n} {load : Nat}
    (attached : o.strategy = some (.pseudoTransient p))
    (h : o.augmentJacobian load A = .ok (o', A')) :
    ∃ q, p.SameStep q ∧ o' = { o with strategy := some (.pseudoTransient q) } := by
  rw [augmentJacobian_some attached] at h
  obtain ⟨⟨a, _⟩, run, same⟩ := bind_eq_ok.1 h
  obtain ⟨⟨p', _⟩, run, same'⟩ := bind_eq_ok.1 run
  obtain ⟨⟨_, shift⟩, _, same''⟩ := bind_eq_ok.1 run
  cases same''
  cases same'
  cases same
  exact ⟨{ p with shift := shift }, ⟨rfl, rfl, rfl, rfl⟩, rfl⟩

variable {δ α K : Type} [Scalar α] [DirectSolver α] [Device δ α] {n : Nat}
  [Field K] [LinearOrder K] [IsStrictOrderedRing K]

namespace Rig

/-! ## The ground -/

/-- Two rigs on the same ground. -/
structure Grounds (P : PureDevice δ α) (r r' : Rig δ α n) : Prop where
  parameters : r'.track.overlay.parameters = r.track.overlay.parameters
  forwarding : r'.track.overlay.forwarding = r.track.overlay.forwarding
  blend : r'.track.overlay.blend = r.track.overlay.blend
  communicator : r'.store.communicator = r.store.communicator
  previous : r'.store.previous = r.store.previous
  view : P.view r'.store.device = P.view r.store.device
  reaches : Device.Reaches r.store.device r'.store.device

/-- The residual at the point of a rig, as it is with the blend. -/
def posed (P : PureDevice δ α) (r : Rig δ α n) : Vector α n :=
  r.track.overlay.blendResidual r.track.x (r.equations P)

/-- The device layer can load the residual at the point of a rig. -/
def Loadable (r : Rig δ α n) : Prop :=
  ∀ buffer, (Device.loadResidual r.store.device r.track.x r.store.previous buffer).ok = true

/-- What forwarding does, where it is on, does not reach what a residual goes by. -/
structure Unmoved (P : PureDevice δ α) (r : Rig δ α n) : Prop where
  view : r.track.overlay.forwarding = true →
    ∀ d name value, P.view (Device.setParameter d name value).2 = P.view d
  blend : r.track.overlay.forwarding = true → r.track.overlay.blend = none
  progress : r.track.overlay.forwarding = true → ∀ entry ∈ r.track.overlay.parameters.entries,
    entry.1 = Parameters.progressName → Scalar.isFinite entry.2 = true

variable {P : PureDevice δ α} {r r' r'' : Rig δ α n}

theorem unmoved_of_silent (silent : r.track.overlay.forwarding = false) : r.Unmoved P := by
  refine ⟨fun on ↦ ?_, fun on ↦ ?_, fun on ↦ ?_⟩
  all_goals
    rw [silent] at on
    cases on

namespace Grounds

theorem refl (r : Rig δ α n) : r.Grounds P r := ⟨rfl, rfl, rfl, rfl, rfl, rfl, .refl⟩

theorem trans (h : r.Grounds P r') (h' : r'.Grounds P r'') : r.Grounds P r'' where
  parameters := h'.parameters.trans h.parameters
  forwarding := h'.forwarding.trans h.forwarding
  blend := h'.blend.trans h.blend
  communicator := h'.communicator.trans h.communicator
  previous := h'.previous.trans h.previous
  view := h'.view.trans h.view
  reaches := h.reaches.trans h'.reaches

theorem unmoved (h : r.Grounds P r') (unmoved : r.Unmoved P) : r'.Unmoved P := by
  refine ⟨?_, ?_, ?_⟩
  · rw [h.forwarding]
    exact unmoved.view
  · rw [h.forwarding, h.blend]
    exact unmoved.blend
  · rw [h.forwarding, h.parameters]
    exact unmoved.progress

theorem posed (h : r.Grounds P r') (x : r'.track.x = r.track.x) : r'.posed P = r.posed P := by
  unfold Rig.posed Rig.equations Overlay.blendResidual
  rw [h.view, h.previous, h.blend, show r'.track.iterate.x = r.track.iterate.x from x, x]

theorem loads (h : r.Grounds P r') (decides : P.Decides r.store.device)
    (x : r'.track.x = r.track.x) (loads : r.Loadable) : r'.Loadable := by
  intro buffer
  rw [x, h.previous, decides h.reaches .refl h.view _ _ _ buffer]
  exact loads buffer

theorem decides (h : r.Grounds P r') (decides : P.Decides r.store.device) :
    P.Decides r'.store.device :=
  decides.later h.reaches

end Grounds

/-! ## The term -/

/-- The term in pseudo-time is attached. -/
def Term (p : PseudoTime α) (r : Rig δ α n) : Prop :=
  r.track.overlay.strategy = some (.pseudoTransient p)

/-- A term is attached with its step between the bounds. -/
def Paced (line : Scalar.Line K α) (lo hi : K) (r : Rig δ α n) : Prop :=
  ∃ p h, r.Term p ∧ p.Within line lo hi h

/-- The term is the same, but for what it has put on the diagonal. -/
def SameTerm (r r' : Rig δ α n) : Prop :=
  ∀ p, r.Term p → ∃ q, r'.Term q ∧ p.SameStep q

omit [Device δ α] in
theorem SameTerm.refl (r : Rig δ α n) : r.SameTerm r :=
  fun p attached ↦ ⟨p, attached, .refl p⟩

omit [Device δ α] in
theorem SameTerm.trans (h : r.SameTerm r') (h' : r'.SameTerm r'') : r.SameTerm r'' := by
  intro p attached
  obtain ⟨q, attached, same⟩ := h p attached
  obtain ⟨q', attached', same'⟩ := h' q attached
  exact ⟨q', attached', same.trans same'⟩

omit [Device δ α] in
theorem SameTerm.paced {line : Scalar.Line K α} {lo hi : K} (h : r.SameTerm r')
    (paced : r.Paced line lo hi) : r'.Paced line lo hi := by
  obtain ⟨p, step, attached, within⟩ := paced
  obtain ⟨q, attached, same⟩ := h p attached
  exact ⟨q, step, attached, within.same same⟩

/-! ## Forwarding -/

section

variable {line : Scalar.Line K α} {lo hi : K}

theorem forwardOne_grounds (strict : ∀ d name value, P.view (Device.setParameter d name value).2 =
      P.view d) (bare : r.track.overlay.blend = none) (paced : r.Paced line lo hi) {name : String}
    {value : α} (finite : name = Parameters.progressName → Scalar.isFinite value = true) :
    Ends (forwardOne name value) r (fun _ r' ↦ r.Grounds P r' ∧ r'.Paced line lo hi)
      (fun _ _ ↦ True) := by
  obtain ⟨p, h, attached, within⟩ := paced
  unfold forwardOne giveToDevice
  simp only [ends_bind, ends_get, ends_set, ends_ite, ends_orFault, ends_pure, ends_fault]
  refine ⟨fun reserved ↦ ⟨fun overlay changed ↦ ?_, fun _ _ ↦ trivial⟩,
    fun _ ↦ ⟨fun _ ↦ ?_, fun _ ↦ trivial⟩⟩
  · split at changed
    · rename_i own
      obtain ⟨a, rfl⟩ := line.finite_iff.1 (finite own)
      unfold Overlay.setProgress at changed
      rw [show r.track.overlay.strategy = _ from attached] at changed
      cases changed
      exact ⟨⟨rfl, rfl, rfl, rfl, rfl, rfl, .refl⟩, _, _, rfl, within.setStep a⟩
    · unfold Overlay.setBlend at changed
      rw [bare] at changed
      cases changed
  · exact ⟨⟨rfl, rfl, rfl, rfl, rfl, strict .., .parameter .refl name value⟩, p, h, attached,
      within⟩

theorem forwardAll_grounds (strict : ∀ d name value, P.view (Device.setParameter d name value).2 =
      P.view d) (bare : r.track.overlay.blend = none) (paced : r.Paced line lo hi)
    {entries : List (String × α)}
    (finite : ∀ entry ∈ entries, entry.1 = Parameters.progressName →
      Scalar.isFinite entry.2 = true) :
    Ends (forwardAll entries) r (fun _ r' ↦ r.Grounds P r' ∧ r'.Paced line lo hi)
      (fun _ _ ↦ True) := by
  induction entries generalizing r with
  | nil => exact ⟨.refl r, paced⟩
  | cons entry rest ih =>
    rw [List.forall_mem_cons] at finite
    rw [forwardAll, ends_bind]
    refine (forwardOne_grounds strict bare paced finite.1).mono ?_ fun _ _ h ↦ h
    rintro _ r' ⟨ground, paced⟩
    exact (ih (ground.blend.trans bare) paced finite.2).mono
      (fun _ _ kept ↦ ⟨ground.trans kept.1, kept.2⟩) fun _ _ h ↦ h

/-- Forwarding keeps the ground, and the term too if it does nothing. -/
theorem forward_grounds (unmoved : r.Unmoved P) (paced : r.Paced line lo hi) :
    Ends forward r (fun _ r' ↦ r.Grounds P r' ∧ r'.Paced line lo hi ∧
      (r.track.overlay.forwarding = false → r.SameTerm r')) (fun _ _ ↦ True) := by
  unfold forward
  simp only [ends_bind, ends_get, ends_ite, ends_pure]
  refine ⟨fun on ↦ ?_, fun _ ↦ ⟨.refl r, paced, fun _ ↦ .refl r⟩⟩
  refine (forwardAll_grounds (unmoved.view on) (unmoved.blend on) paced (unmoved.progress on)).mono
    (fun _ _ kept ↦ ⟨kept.1, kept.2, fun off ↦ ?_⟩) fun _ _ h ↦ h
  rw [off] at on
  cases on

end

/-! ## Computations -/

/-- What is valid is known: its norms are those of what is stored, and if `coherent`, that is the
residual at the point. -/
def Known (P : PureDevice δ α) (coherent : Prop) (r : Rig δ α n) : Prop :=
  r.isValid .residual = true →
    r.track.iterate.measured =
        .norms (r.store.communicator.normsOf r.store.residual.toArray) ∧
      (coherent → r.store.residual = r.posed P)

/-- A rig in a march. -/
structure Marching (line : Scalar.Line K α) (lo hi : K) (P : PureDevice δ α) (coherent : Prop)
    (r : Rig δ α n) : Prop where
  paced : r.Paced line lo hi
  unmoved : r.Unmoved P
  known : r.Known P coherent

/-- What a computation of a march leaves. -/
structure Computes (line : Scalar.Line K α) (lo hi : K) (P : PureDevice δ α) (coherent : Prop)
    (r r' : Rig δ α n) : Prop extends r'.Marching line lo hi P coherent where
  ground : r.Grounds P r'
  x : r'.track.x = r.track.x
  term : r.track.overlay.forwarding = false → r.SameTerm r'
  loads : P.Decides r.store.device → (r.isValid .residual = true → r.Loadable) →
    r'.isValid .residual = true → r'.Loadable

section

variable {line : Scalar.Line K α} {lo hi : K} {coherent : Prop}

theorem Computes.refl (h : r.Marching line lo hi P coherent) : r.Computes line lo hi P coherent r :=
  ⟨h, .refl r, rfl, fun _ ↦ .refl r, fun _ loads ↦ loads⟩

theorem Computes.trans (h : r.Computes line lo hi P coherent r')
    (h' : r'.Computes line lo hi P coherent r'') : r.Computes line lo hi P coherent r'' where
  toMarching := h'.toMarching
  ground := h.ground.trans h'.ground
  x := h'.x.trans h.x
  term off := (h.term off).trans (h'.term (h.ground.forwarding.trans off))
  loads decides loads := h'.loads (h.ground.decides decides) (h.loads decides loads)

/-- A computation that does not come to a residual. -/
theorem Computes.of_invalid (unmoved : r.Unmoved P) (paced : r'.Paced line lo hi)
    (ground : r.Grounds P r') (x : r'.track.x = r.track.x)
    (term : r.track.overlay.forwarding = false → r.SameTerm r')
    (invalid : r'.isValid .residual = false) : r.Computes line lo hi P coherent r' where
  paced := paced
  unmoved := ground.unmoved unmoved
  known valid := by
    rw [invalid] at valid
    cases valid
  ground := ground
  x := x
  term := term
  loads _ _ valid := by
    rw [invalid] at valid
    cases valid

/-- A computation that leaves the residual alone. -/
theorem Computes.of_same (h : r.Marching line lo hi P coherent) (paced : r'.Paced line lo hi)
    (ground : r.Grounds P r') (x : r'.track.x = r.track.x)
    (term : r.track.overlay.forwarding = false → r.SameTerm r')
    (valid : r'.isValid .residual = true → r.isValid .residual = true)
    (measured : r'.track.iterate.measured = r.track.iterate.measured)
    (residual : r'.store.residual = r.store.residual) :
    r.Computes line lo hi P coherent r' where
  paced := paced
  unmoved := ground.unmoved h.unmoved
  known valid' := by
    obtain ⟨norms, stored⟩ := h.known (valid valid')
    rw [measured, residual, ground.communicator, ground.posed x]
    exact ⟨norms, stored⟩
  ground := ground
  x := x
  term := term
  loads decides loads valid' := ground.loads decides x (loads (valid valid'))

/-- What was forwarded to has been loaded from. -/
theorem Grounds.load {device : δ} {o o' : Overlay α} (h : r.Grounds P (r.computing.relay device o))
    (blend : o'.blend = o.blend) (parameters : o'.parameters = o.parameters)
    (forwarding : o'.forwarding = o.forwarding) {s : Store δ α n} {it : Iterate α n}
    (loaded : s.device =
      (Device.loadResidual device r.track.x r.store.previous r.store.residual).device)
    (communicator : s.communicator = r.store.communicator)
    (previous : s.previous = r.store.previous) : r.Grounds P (r.put s it o') := by
  refine h.trans ⟨parameters, forwarding, blend, communicator, previous, ?_, ?_⟩
  · rw [put_store, loaded]
    exact P.residual_view ..
  · rw [put_store, loaded]
    exact .residual .refl ..

omit [DirectSolver α] in
/-- What has been loaded, and blended, is what the view says. -/
theorem blendResidual_load {d : δ} {x previous buffer : Vector α n}
    (good : (Device.loadResidual d x previous buffer).ok = true) (o : Overlay α) :
    o.blendResidual x (Device.loadResidual d x previous buffer).buffer = o.blendResidual x
      (P.residual (P.view (Device.loadResidual d x previous buffer).device) x previous) := by
  rw [P.residual_view, P.residual_buffer _ _ _ _ good]

/-- A linear solve changes the workspace, the direction and its flag. -/
theorem grounds_withNewton {s : Store δ α n} {flag : Validity}
    (device : s.device = r.store.device) (previous : s.previous = r.store.previous)
    (communicator : s.communicator = r.store.communicator) :
    r.Grounds P (r.put s (withNewton r.track.iterate flag) r.track.overlay) := by
  refine ⟨rfl, rfl, rfl, communicator, previous, congrArg P.view device, ?_⟩
  rw [put_store, device]
  exact .refl

theorem computeResidual_computes (h : r.Marching line lo hi P coherent) :
    Ends computeResidual r
      (fun ok r' ↦ r.Computes line lo hi P coherent r' ∧ r'.isValid .residual = ok)
      (fun _ _ ↦ True) := by
  have forwarded : Ends forward r.computing
      (fun _ r' ↦ r.Grounds P r' ∧ r'.Paced line lo hi ∧
        (r.track.overlay.forwarding = false → r.SameTerm r')) fun _ _ ↦ True := by
    have ground : r.Grounds P r.computing := ⟨rfl, rfl, rfl, rfl, rfl, rfl, .refl⟩
    exact (forward_grounds (ground.unmoved h.unmoved) h.paced).mono
      (fun _ _ kept ↦ ⟨ground.trans kept.1, kept.2⟩) fun _ _ h ↦ h
  refine .of_result (computeResidual_run r) ?_ fun _ _ _ ↦ trivial
  intro ok r' run
  have valid := run.valid
  cases run with
  | known => exact ⟨.refl h, valid⟩
  | @unloaded invalid device overlay run load call failed =>
    obtain ⟨ground, paced, term⟩ := forwarded.ok run
    subst call
    exact ⟨.of_invalid h.unmoved paced (ground.load rfl rfl rfl rfl rfl rfl) rfl term valid, valid⟩
  | @loaded invalid device overlay overlay' run load call good f augmented =>
    obtain ⟨ground, paced, term⟩ := forwarded.ok run
    obtain ⟨p, step, attached, within⟩ := paced
    have attached : overlay.strategy = some (.pseudoTransient p) := attached
    have plain := Overlay.augmentResidual_some attached r.track.x load.buffer
    rw [augmented] at plain
    obtain ⟨rfl, rfl⟩ := Prod.mk.inj (Except.ok.inj plain)
    subst call
    let load := Device.loadResidual device r.track.x r.store.previous r.store.residual
    let f := overlay.blendResidual r.track.x load.buffer
    let overlay' : Overlay α := { overlay with strategy := some (.pseudoTransient p) }
    let r' := r.put { r.store.afterResidual r.track.iterate.id load with residual := f }
      { r.track.iterate with
        flags := { residual := .valid }
        measured := .norms (r.store.communicator.normsOf f.toArray) } overlay'
    have ground' : r.Grounds P r' := by apply ground.load <;> rfl
    have coherent' : f = r'.posed P := blendResidual_load good overlay
    refine ⟨⟨⟨⟨p, step, rfl, within⟩, ground'.unmoved h.unmoved, fun _ ↦ ⟨rfl, fun _ ↦ coherent'⟩⟩,
      ground', rfl, fun off q was ↦ ?_, fun decides _ _ buffer ↦ ?_⟩, valid⟩
    · obtain ⟨q', now, same⟩ := term off q was
      exact ⟨q', attached.symm.trans now, same⟩
    · exact (decides ground'.reaches ground.reaches (P.residual_view ..) ..).trans good

/-- A load of the Jacobian at a rig that has been computed. -/
theorem Computes.loadJacobian {load : Load δ (Mat α n n)} {it : Iterate α n}
    {o : Overlay α} {A : Mat α n n} (h : r.Computes line lo hi P coherent r')
    (call : load = r'.store.jacobianLoad r'.track.x)
    (parameters : o.parameters = r'.track.overlay.parameters)
    (forwarding : o.forwarding = r'.track.overlay.forwarding)
    (blend : o.blend = r'.track.overlay.blend) (x : it.x = r'.track.iterate.x)
    (flag : it.flags.residual = r'.track.iterate.flags.residual)
    (id : it.id = r'.track.iterate.id)
    (measured : it.measured = r'.track.iterate.measured)
    (term : r'.SameTerm
      (r'.put { r'.store.afterJacobian r'.track.iterate.id load with jacobian := A } it o)) :
    r.Computes line lo hi P coherent
      (r'.put { r'.store.afterJacobian r'.track.iterate.id load with jacobian := A } it o) := by
  subst call
  refine h.trans (.of_same h.toMarching (term.paced h.paced) ⟨parameters, forwarding, blend, rfl,
    rfl, P.jacobian_view .., .jacobian .refl ..⟩ x (fun _ ↦ term) ?_ measured rfl)
  rw [isValid_iff, isValid_iff]
  simp [Flags.of, flag, id]

theorem computeJacobian_computes (h : r.Marching line lo hi P coherent) :
    Ends computeJacobian r (fun _ r' ↦ r.Computes line lo hi P coherent r') (fun _ _ ↦ True) := by
  have outdated : r.Computes line lo hi P coherent r.outdated :=
    .of_invalid h.unmoved h.paced ⟨rfl, rfl, rfl, rfl, rfl, rfl, .refl⟩ rfl (fun _ ↦ .refl r)
      (Bool.eq_false_iff.2 (Iterate.not_isValid_of_stale (q := .residual) rfl))
  have renewed : Ends computeResidual r.outdated (fun _ r' ↦ r.Computes line lo hi P coherent r')
      fun _ _ ↦ True :=
    (computeResidual_computes outdated.toMarching).mono (fun _ _ kept ↦ outdated.trans kept.1)
      fun _ _ h ↦ h
  refine .of_result (computeJacobian_run r) ?_ fun _ _ _ ↦ trivial
  intro ok r' run
  cases run with
  | known => exact .refl h
  | unrefreshed invalid needed run => exact renewed.ok run
  | unloaded invalid base call failed =>
    exact (base.keeps (K := fun r' ↦ r.Computes line lo hi P coherent r') (.refl h)
      fun _ ↦ renewed).loadJacobian call rfl rfl rfl rfl rfl rfl rfl (.refl _)
  | @loaded invalid r' base load call good overlay A augmented =>
    have computed : r.Computes line lo hi P coherent r' :=
      base.keeps (.refl h) fun _ ↦ renewed
    obtain ⟨p, step, attached, within⟩ := computed.paced
    obtain ⟨q', same, rfl⟩ := Overlay.term_augmentJacobian attached augmented
    refine computed.loadJacobian call rfl rfl rfl rfl rfl rfl rfl fun q was ↦ ?_
    cases attached.symm.trans was
    exact ⟨q', rfl, same⟩

theorem computeNewton_computes (h : r.Marching line lo hi P coherent) (mayReuse : Bool) :
    Ends (computeNewton mayReuse) r (fun _ r' ↦ r.Computes line lo hi P coherent r')
      (fun _ _ ↦ True) := by
  have solved : ∀ {s : Store δ α n} {flag : Validity}, s.device = r.store.device →
      s.previous = r.store.previous → s.residual = r.store.residual →
      s.communicator = r.store.communicator →
      s.owners.of .residual = r.store.owners.of .residual →
      r.Computes line lo hi P coherent
        (r.put s (withNewton r.track.iterate flag) r.track.overlay) := by
    intro s flag device previous residual communicator owner
    refine .of_same h h.paced (grounds_withNewton device previous communicator) rfl
      (fun _ ↦ .refl r) ?_ rfl residual
    rw [isValid_iff, isValid_iff, put_store, owner]
    exact id
  refine .of_result (computeNewton_run r mayReuse) ?_ fun _ _ _ ↦ trivial
  intro ok r' run
  cases run with
  | known => exact .refl h
  | solved => exact solved rfl rfl rfl rfl (by simp)
  | refused => exact solved rfl rfl rfl rfl (by simp)

end

end Rig

end OperatingPoint
