import OperatingPoint.Linear.FullPivot
import OperatingPoint.Proofs.Histories
import OperatingPoint.Proofs.Overlaying
import OperatingPoint.Proofs.ParameterValues

/-!
# Changes of parameters

The value of a parameter is in as many as three places: in the list of the track, in the device
layer, and as the progress of the blend.  They are brought together only where a residual is loaded,
and only while parameters are forwarded.  What is computed nevertheless stays what it would be if it
were computed again, for each change of the list makes everything stale.

There is one way around this.  A push goes by the list to tell whether anything changes, but it is
the device layer that it changes, which may have had another value: it *slips in* if the list has the
value already, while the residual is valid.  Nothing is wrong as long as no push has slipped in since
the residual was loaded.
-/

set_option autoImplicit false

namespace OperatingPoint

open Step

/-! ## What is computed shows the equations -/

namespace Rig

variable {δ α : Type} [Scalar α] [DirectSolver α] [Device δ α] {n : Nat} {P : PureDevice δ α}
  {D : P.Valued n} {heard : Prop} {r r' : Rig δ α n}

/-- Two rigs at which the same equations are posed. -/
structure Repeats (P : PureDevice δ α) (r r' : Rig δ α n) : Prop where
  overlay : r'.track.overlay = r.track.overlay
  x : r'.track.iterate.x = r.track.iterate.x
  previous : r'.store.previous = r.store.previous
  view : P.view r'.store.device = P.view r.store.device

/-- The stored residual is that of the equations, with the parameters where they are forwarded to. -/
structure ShowsResidual (D : P.Valued n) (r : Rig δ α n) : Prop where
  informed : r.track.overlay.forwarding = true → r.Informed D
  evaluates : D.evaluates (P.view r.store.device) r.track.iterate.x r.store.previous = true
  stored : r.store.residual = r.track.overlay.blendResidual r.track.iterate.x (r.equations P)

/-- The stored matrix is the Jacobian of the equations. -/
structure ShowsJacobian (D : P.Valued n) (r : Rig δ α n) : Prop where
  differentiates :
    D.differentiates (P.view r.store.device) r.track.iterate.x r.store.previous = true
  stored : r.store.jacobian = r.track.overlay.blendJacobian
    (P.jacobian (P.view r.store.device) r.track.iterate.x r.store.previous)

theorem Poses.repeats (h : r.Poses D r') : r.Repeats P r' := by
  have view := h.view
  obtain ⟨_, rfl⟩ := h.relayed
  exact ⟨rfl, rfl, rfl, view⟩

theorem Repeats.equations (h : r.Repeats P r') : r'.equations P = r.equations P := by
  unfold Rig.equations
  rw [h.view, h.x, h.previous]

theorem Repeats.informed (h : r.Repeats P r') (informed : r.Informed D) : r'.Informed D := by
  unfold Informed
  rw [h.overlay]
  exact fun entry mem ↦ (informed entry mem).of_same (by rw [h.overlay]) h.view

theorem ShowsResidual.of_repeats (h : r.ShowsResidual D) (same : r.Repeats P r')
    (residual : r'.store.residual = r.store.residual) : r'.ShowsResidual D where
  informed on := same.informed (h.informed (by rw [← same.overlay]; exact on))
  evaluates := by
    rw [same.view, same.x, same.previous]
    exact h.evaluates
  stored := by
    rw [residual, same.overlay, same.x, same.equations]
    exact h.stored

theorem ShowsJacobian.of_repeats (h : r.ShowsJacobian D) (same : r.Repeats P r')
    (jacobian : r'.store.jacobian = r.store.jacobian) : r'.ShowsJacobian D where
  differentiates := by
    rw [same.view, same.x, same.previous]
    exact h.differentiates
  stored := by
    rw [jacobian, same.overlay, same.view, same.x, same.previous]
    exact h.stored

/-- A rig without a strategy whose parameters have been changed.  If every push has been `heard`,
then what is valid shows the equations. -/
structure Follows (D : P.Valued n) (heard : Prop) (r : Rig δ α n) : Prop extends r.Open D where
  names : (r.track.overlay.parameters.entries.map Prod.fst).Nodup
  rooted : r.Rooted
  residual : heard → r.isValid .residual = true → r.ShowsResidual D
  jacobian : heard → r.isValid .jacobian = true → r.ShowsJacobian D

/-- Where there is no residual, nothing is shown. -/
theorem Follows.of_invalid (opened : r.Open D)
    (names : (r.track.overlay.parameters.entries.map Prod.fst).Nodup) (rooted : r.Rooted)
    (invalid : r.isValid .residual = false) : r.Follows D heard where
  toOpen := opened
  names := names
  rooted := rooted
  residual _ valid := by
    rw [invalid] at valid
    cases valid
  jacobian _ valid := by
    have valid' := rooted valid
    rw [invalid] at valid'
    cases valid'

/-! ## Computations -/

theorem computeResidual_follows (h : r.Follows D heard) :
    Ends computeResidual r (fun _ r' ↦ r'.Follows D heard) (fun _ r' ↦ r'.Follows D heard) := by
  have forwarded := (forward_receives (r := r.computing) ⟨h.fit, h.strategy⟩ h.names).and
    (forward_alike r.computing)
  have rooted := computeResidual_rooted h.rooted
  have stale : ∀ {s : Store δ α n} {it : Iterate α n} {o : Overlay α},
      it.flags.residual = .stale → (r.put s it o).isValid .residual = false := fun flag ↦
    Bool.eq_false_iff.2 (Iterate.not_isValid_of_stale (q := .residual) flag)
  -- What was forwarded to has been loaded from.
  have loaded : ∀ {device : δ} {o : Overlay α} {load : Load δ (Vector α n)},
      (r.computing.relay device o).Open D →
      load = Device.loadResidual device r.track.x r.store.previous r.store.residual →
      ∀ {s : Store δ α n} {it : Iterate α n}, s.device = load.device → (r.put s it o).Open D := by
    rintro device o load opened rfl s it same
    refine ⟨?_, opened.strategy⟩
    rw [put_store, same]
    exact D.residual_fit opened.fit _ _ _
  refine .of_result (R := fun result ↦ ResidualRun r result ∧ computeResidual r = result)
    ⟨computeResidual_run r, rfl⟩ ?_ ?_
  · rintro ok r' ⟨run, same⟩
    have rooted := rooted.ok same
    cases run with
    | known => exact h
    | unloaded invalid run call =>
      obtain ⟨⟨opened, -⟩, alike⟩ := forwarded.ok run
      exact .of_invalid (loaded opened call rfl) (alike.parameters ▸ h.names) rooted (stale rfl)
    | @loaded _ device overlay overlay' run load call good f augmented =>
      obtain ⟨⟨opened, informed⟩, alike⟩ := forwarded.ok run
      have plain : overlay.strategy = none := opened.strategy
      rw [Overlay.augmentResidual_none plain] at augmented
      cases augmented
      have view : P.view load.device = P.view device := by
        rw [call, P.residual_view]
      refine ⟨loaded opened call rfl, alike.parameters ▸ h.names, rooted, fun _ _ ↦ ?_,
        fun _ valid ↦ ?_⟩
      · refine ⟨fun on ↦ ?_, ?_, ?_⟩
        · exact fun entry mem ↦ (informed on entry mem).of_same rfl view
        · have evaluates := D.residual_ok opened.fit r.track.x r.store.previous r.store.residual
          show D.evaluates (P.view load.device) r.track.x r.store.previous = true
          rw [view]
          exact evaluates.symm.trans (call ▸ good)
        · subst call
          show overlay.blendResidual r.track.x _ = overlay.blendResidual r.track.x _
          rw [P.residual_buffer _ _ _ _ good, ← view]
          rfl
      · exact absurd valid (Iterate.not_isValid_of_stale (q := .jacobian) rfl)
  · rintro e r' ⟨run, same⟩
    have rooted := rooted.error same
    cases run with
    | reentered => exact h
    | refused invalid run =>
      obtain ⟨opened, alike⟩ := forwarded.error run
      exact .of_invalid ⟨opened.fit, opened.strategy⟩ (alike.parameters ▸ h.names) rooted
        (stale rfl)
    | stuck invalid run call good augmented =>
      obtain ⟨⟨opened, -⟩, alike⟩ := forwarded.ok run
      exact .of_invalid (loaded opened call rfl) (alike.parameters ▸ h.names) rooted (stale rfl)

theorem Follows.outdated (h : r.Follows D heard) (invalid : r.isValid .jacobian = false) :
    r.outdated.Follows D heard :=
  .of_invalid ⟨h.fit, h.strategy⟩ h.names (.of_invalid invalid)
    (Bool.eq_false_iff.2 (Iterate.not_isValid_of_stale (q := .residual) rfl))

theorem computeJacobian_follows (h : r.Follows D heard) :
    Ends computeJacobian r (fun _ r' ↦ r'.Follows D heard) (fun _ r' ↦ r'.Follows D heard) := by
  have renewed := fun invalid ↦ computeResidual_follows (h.outdated invalid)
  have rooted := computeJacobian_rooted h.rooted
  -- A load of the Jacobian leaves the equations, the residual and its flag.
  have kept : ∀ {r' : Rig δ α n} {load : Load δ (Mat α n n)} {A : Mat α n n} {v : Validity},
      r'.Follows D heard → load = r'.store.jacobianLoad r'.track.x →
      let r'' := r'.put { r'.store.afterJacobian r'.track.iterate.id load with jacobian := A }
        { r'.track.iterate with
          flags := { residual := r'.track.iterate.flags.residual, jacobian := v } }
        r'.track.overlay
      r''.Rooted → (heard → r''.isValid .jacobian = true → r''.ShowsJacobian D) →
        r''.Follows D heard := by
    rintro r' load A v follows rfl r'' rooted shows
    have repeats : r'.Repeats P r'' := ⟨rfl, rfl, rfl, P.jacobian_view ..⟩
    refine ⟨⟨D.jacobian_fit follows.fit _ _ _, follows.strategy⟩, follows.names, rooted,
      fun all valid ↦ ?_, shows⟩
    have valid' : r'.isValid .residual = true := by
      rw [isValid_iff] at valid ⊢
      simpa [Flags.of, r''] using valid
    exact (follows.residual all valid').of_repeats repeats rfl
  refine .of_result (R := fun result ↦ JacobianRun r result ∧ computeJacobian r = result)
    ⟨computeJacobian_run r, rfl⟩ ?_ ?_
  · rintro ok r' ⟨run, same⟩
    have rooted := rooted.ok same
    cases run with
    | known => exact h
    | unrefreshed invalid needed run => exact (renewed invalid).ok run
    | unloaded invalid base call failed =>
      exact kept (base.keeps h fun _ ↦ renewed invalid) call rooted fun _ valid ↦
        absurd valid (Iterate.not_isValid_of_stale (q := .jacobian) rfl)
    | @loaded invalid r' base load call good overlay A augmented =>
      have follows : r'.Follows D heard := base.keeps h fun _ ↦ renewed invalid
      rw [Overlay.augmentJacobian_none follows.strategy] at augmented
      cases augmented
      refine kept follows call rooted fun _ _ ↦ ?_
      subst call
      have view := P.jacobian_view r'.store.device r'.track.x r'.store.previous (Mat.zero α n n)
      refine ⟨?_, ?_⟩
      · have differentiates :=
          D.jacobian_ok follows.fit r'.track.x r'.store.previous (Mat.zero α n n)
        show D.differentiates (P.view (Device.loadJacobian ..).device) r'.track.x _ = true
        rw [view]
        exact differentiates.symm.trans good
      · show Overlay.blendJacobian _ (Device.loadJacobian ..).buffer =
          Overlay.blendJacobian _ (P.jacobian (P.view (Device.loadJacobian ..).device) r'.track.x _)
        rw [view, P.jacobian_buffer _ _ _ good]
        rfl
  · rintro e r' ⟨run, same⟩
    have rooted := rooted.error same
    cases run with
    | reentered => exact h
    | refused invalid needed run => exact (renewed invalid).error run
    | stuck invalid base call good augmented =>
      exact kept (base.keeps h fun _ ↦ renewed invalid) call rooted fun _ valid ↦
        absurd valid (Iterate.not_isValid_of_stale (q := .jacobian) rfl)

/-! ## Computing again -/

/-- The rig with everything made stale. -/
def invalidated (r : Rig δ α n) : Rig δ α n := r.withTrack r.track.invalidate

omit [Device δ α] in
theorem not_isValid_invalidated (r : Rig δ α n) (q : Quantity) : r.invalidated.isValid q ≠ true := by
  rw [not_isValid_of_fresh (r := r.invalidated) rfl]
  exact Bool.false_ne_true

/-- Where everything that is forwarded has been received, computing the residual anew does not
change the equations, and stores their residual. -/
theorem computeResidual_anew (opened : r.Open D)
    (informed : r.track.overlay.forwarding = true → r.Informed D)
    (evaluates : D.evaluates (P.view r.store.device) r.track.iterate.x r.store.previous = true) :
    Ends computeResidual r.invalidated
      (fun ok r' ↦ ok = true ∧ r.Repeats P r' ∧ r'.Open D ∧
        r'.store.residual = r.track.overlay.blendResidual r.track.iterate.x (r.equations P))
      (fun _ _ ↦ False) := by
  have forwarded := forward_informed (r := r.invalidated.computing) (D := D) opened.fit fun on ↦
    fun entry mem ↦ (informed on entry mem).of_same rfl rfl
  -- The overlay has not changed, and a load from the device layer evaluates.
  have relayed : ∀ {device : δ} {o : Overlay α}, forward r.invalidated.computing =
      .ok () (r.invalidated.computing.relay device o) →
      o = r.track.overlay ∧ P.view device = P.view r.store.device ∧ D.Fit device ∧
        (Device.loadResidual device r.track.x r.store.previous r.store.residual).ok = true := by
    intro device o run
    have posed := forwarded.ok run
    obtain ⟨_, same⟩ := posed.relayed
    have view : P.view device = P.view r.store.device := posed.view
    have fit : D.Fit device := posed.fit
    refine ⟨congrArg (fun r : Rig δ α n ↦ r.track.overlay) same, view, fit, ?_⟩
    rw [D.residual_ok fit, view]
    exact evaluates
  refine .of_result (computeResidual_run r.invalidated) ?_ ?_
  · intro ok r' run
    cases run with
    | known valid => exact absurd valid (r.not_isValid_invalidated _)
    | unloaded invalid run call failed =>
      obtain ⟨-, -, -, good⟩ := relayed run
      rw [call] at failed
      exact absurd (good.symm.trans failed) (by decide)
    | @loaded _ device _ overlay run load call _ f augmented =>
      obtain ⟨rfl, view, fit, good⟩ := relayed run
      rw [Overlay.augmentResidual_none opened.strategy] at augmented
      cases augmented
      subst call
      refine ⟨rfl, ⟨rfl, rfl, rfl, (P.residual_view ..).trans view⟩,
        ⟨D.residual_fit fit _ _ _, opened.strategy⟩, ?_⟩
      show Overlay.blendResidual _ _ (Device.loadResidual device r.track.x r.store.previous
        r.store.residual).buffer = _
      rw [P.residual_buffer _ _ _ _ good, view]
      rfl
  · intro e r' run
    cases run with
    | reentered invalid busy => cases busy
    | refused invalid run => exact forwarded.error run
    | stuck invalid run call good augmented =>
      obtain ⟨rfl, -⟩ := relayed run
      rw [Overlay.augmentResidual_none opened.strategy] at augmented
      cases augmented

/-- A residual that is valid is the one that is stored when everything is made stale and it is
computed again. -/
theorem Follows.residual_again (h : r.Follows D heard) (all : heard)
    (valid : r.isValid .residual = true) :
    Ends computeResidual r.invalidated
      (fun ok r' ↦ ok = true ∧ r'.store.residual = r.store.residual) (fun _ _ ↦ False) := by
  have shows := h.residual all valid
  exact (computeResidual_anew h.toOpen shows.informed shows.evaluates).mono
    (fun _ _ anew ↦ ⟨anew.1, anew.2.2.2.trans shows.stored.symm⟩) fun _ _ stopped ↦ stopped

/-- And so is a Jacobian that is valid. -/
theorem Follows.jacobian_again (h : r.Follows D heard) (all : heard)
    (valid : r.isValid .jacobian = true) :
    Ends computeJacobian r.invalidated
      (fun ok r' ↦ ok = true ∧ r'.store.jacobian = r.store.jacobian) (fun _ _ ↦ False) := by
  have shows := h.residual all (h.rooted valid)
  have shows' := h.jacobian all valid
  have anew := computeResidual_anew h.toOpen shows.informed shows.evaluates
  -- The Jacobian is loaded where the residual has been computed anew.
  have refreshed : ∀ {r' : Rig δ α n}, Refreshed r.invalidated r' → r.Repeats P r' ∧ r'.Open D := by
    intro r' base
    cases base with
    | already valid => exact absurd valid (r.not_isValid_invalidated _)
    | renewed needed run =>
      have run : computeResidual r.invalidated = .ok true r' := run
      exact ⟨(anew.ok run).2.1, (anew.ok run).2.2.1⟩
  have good : ∀ {r' : Rig δ α n}, Refreshed r.invalidated r' →
      (r'.store.jacobianLoad r'.track.x).ok = true := by
    intro r' base
    obtain ⟨repeats, opened⟩ := refreshed base
    unfold Store.jacobianLoad
    rw [D.jacobian_ok opened.fit, repeats.view, repeats.previous, Track.x, repeats.x]
    exact shows'.differentiates
  refine .of_result (computeJacobian_run r.invalidated) ?_ ?_
  · intro ok r' run
    cases run with
    | known valid => exact absurd valid (r.not_isValid_invalidated _)
    | unrefreshed invalid needed run =>
      have run : computeResidual r.invalidated = .ok false r' := run
      exact absurd (anew.ok run).1 (by decide)
    | unloaded invalid base call failed =>
      rw [call] at failed
      exact absurd ((good base).symm.trans failed) (by decide)
    | @loaded _ r₁ base load call loads overlay A augmented =>
      obtain ⟨repeats, opened⟩ := refreshed base
      rw [Overlay.augmentJacobian_none opened.strategy] at augmented
      cases augmented
      subst call
      refine ⟨rfl, ?_⟩
      show Overlay.blendJacobian _ (Device.loadJacobian ..).buffer = _
      rw [P.jacobian_buffer _ _ _ loads, repeats.overlay, repeats.view, repeats.previous, Track.x,
        repeats.x]
      exact shows'.stored.symm
  · intro e r' run
    cases run with
    | reentered invalid busy => cases busy
    | refused invalid needed run =>
      have run : computeResidual r.invalidated = .error e r' := run
      exact anew.error run
    | stuck invalid base call loads augmented =>
      obtain ⟨-, opened⟩ := refreshed base
      rw [Overlay.augmentJacobian_none opened.strategy] at augmented
      cases augmented

/-! ## Changes -/

/-- A change of the list, of the blend or of the forwarding. -/
theorem Follows.shift (h : r.Follows D heard) {t : Track α n} (shifts : r.track.Shifts t)
    (strategy : t.overlay.strategy = r.track.overlay.strategy)
    (names : (t.overlay.parameters.entries.map Prod.fst).Nodup) :
    (r.withTrack t).Follows D heard := by
  rcases shifts.stale with rfl | fresh
  · exact h
  · exact .of_invalid ⟨h.fit, strategy.trans h.strategy⟩ names
      (.of_invalid (not_isValid_of_fresh fresh _)) (not_isValid_of_fresh fresh _)

theorem Follows.setParameter (h : r.Follows D heard) (name : String) (value : α) :
    (r.withTrack (r.track.setParameter name value)).Follows D heard := by
  refine h.shift (r.track.setParameter_shifts name value) ?_ ?_
  all_goals rcases r.track.setParameter_overlay name value with set | ⟨unchanged, -⟩
  · rw [set]
  · rw [unchanged]
  · rw [set]
    exact Parameters.names_insertInto h.names
  · rw [unchanged]
    exact h.names

theorem Follows.removeParameter (h : r.Follows D heard) (name : String) :
    (r.withTrack (r.track.removeParameter name)).Follows D heard := by
  refine h.shift (r.track.removeParameter_shifts name) ?_ ?_
  all_goals
    unfold Track.removeParameter
    split
  · rfl
  · rfl
  · exact (List.eraseP_sublist.map Prod.fst).nodup h.names
  · exact h.names

theorem Follows.setForwarding (h : r.Follows D heard) (forwarding : Bool) :
    (r.withTrack (r.track.setForwarding forwarding)).Follows D heard := by
  refine h.shift (r.track.setForwarding_shifts forwarding) ?_ ?_
  all_goals rw [Track.setForwarding_overlay]
  exact h.names

theorem Follows.detachBlend (h : r.Follows D heard) :
    (r.withTrack r.track.detachBlend).Follows D heard := by
  refine h.shift r.track.detachBlend_shifts ?_ ?_
  all_goals rw [Track.detachBlend_overlay]
  exact h.names

/-- A value that the list has already is pushed and tells the device layer something new, while the
residual is valid. -/
structure SlipsIn (P : PureDevice δ α) (r : Rig δ α n) (name : String) (value : α) : Prop where
  valid : r.isValid .residual = true
  listed : (r.track.overlay.parameters.get? name).any (· == value) = true
  new : P.view (Device.setParameter r.store.device name value).2 ≠ P.view r.store.device

/-- The device layer is offered a value.  If something is valid, then nothing new is told. -/
theorem Follows.give (h : r.Follows D heard) (name : String) (value : α)
    (old : heard → r.isValid .residual = true →
      P.view (Device.setParameter r.store.device name value).2 = P.view r.store.device) :
    Follows D heard { r with
      store := { r.store with device := (Device.setParameter r.store.device name value).2 } } where
  fit := D.parameter_fit h.fit name value
  strategy := h.strategy
  names := h.names
  rooted := h.rooted
  residual all valid := (h.residual all valid).of_repeats ⟨rfl, rfl, rfl, old all valid⟩ rfl
  jacobian all valid :=
    (h.jacobian all valid).of_repeats ⟨rfl, rfl, rfl, old all (h.rooted valid)⟩ rfl

theorem pushParameter_follows (h : r.Follows D heard) (name : String) (value : α)
    (noticed : heard → ¬ r.SlipsIn P name value) :
    Ends (pushParameter name value) r (fun _ r' ↦ r'.Follows D heard)
      (fun _ r' ↦ r'.Follows D heard) := by
  have given := (h.setParameter name value).give name value fun all valid ↦ by
    -- What is still valid has not been invalidated, so that the value was listed.
    refine Classical.byContradiction fun new ↦ ?_
    by_cases listed : (r.track.overlay.parameters.get? name).any (· == value) = true
    · have same : r.track.setParameter name value = r.track := if_pos listed
      rw [same] at valid
      exact noticed all ⟨valid, listed, new⟩
    · have same : (r.track.setParameter name value).iterate.flags = {} := by
        rw [Track.setParameter, if_neg listed]
        rfl
      rw [not_isValid_of_fresh (r := r.withTrack (r.track.setParameter name value)) same] at valid
      cases valid
  unfold pushParameter giveToDevice
  simp only [ends_bind, ends_get, ends_set, ends_ite, ends_pure, ends_fault, ends_modifyTrack]
  exact ⟨fun _ ↦ given, fun _ ↦ given⟩

/-- What a push leaves that slips in where nothing is forwarded: the residual stays valid, as it is,
and it is another one that would be computed, namely that of the equations as they are now. -/
theorem Follows.pushParameter_slips (h : r.Follows D heard) {name : String} {value : α}
    (slips : r.SlipsIn P name value) (off : r.track.overlay.forwarding = false) :
    Ends (pushParameter name value) r
      (fun _ r' ↦ r'.isValid .residual = true ∧ r'.store.residual = r.store.residual ∧
        (D.evaluates (P.view r'.store.device) r'.track.iterate.x r'.store.previous = true →
          Ends computeResidual r'.invalidated
            (fun ok r'' ↦ ok = true ∧ r''.store.residual =
              r'.track.overlay.blendResidual r'.track.iterate.x (r'.equations P))
            (fun _ _ ↦ False)))
      (fun _ _ ↦ False) := by
  have same : r.track.setParameter name value = r.track := if_pos slips.listed
  have opened : Open D { r with
      store := { r.store with device := (Device.setParameter r.store.device name value).2 } } :=
    ⟨D.parameter_fit h.fit name value, h.strategy⟩
  have anew := computeResidual_anew opened fun on ↦ by
    have on : r.track.overlay.forwarding = true := on
    rw [off] at on
    cases on
  unfold pushParameter giveToDevice
  simp only [ends_bind, ends_get, ends_set, ends_ite, ends_pure, ends_fault, ends_modifyTrack, same]
  refine ⟨fun _ ↦ ⟨slips.valid, trivial, fun evaluates ↦ ?_⟩, fun refused ↦ ?_⟩
  · exact (anew evaluates).mono (fun _ _ stored ↦ ⟨stored.1, stored.2.2.2⟩)
      fun _ _ stopped ↦ stopped
  · exact slips.new (D.view_of_refused h.fit (Bool.eq_false_iff.2 refused))

end Rig

/-! ## Histories -/

namespace Bench

variable {δ α : Type} [Scalar α] [DirectSolver α] [Device δ α] {n : Nat} {P : PureDevice δ α}
  {D : P.Valued n} {heard : Prop} {b : Bench δ α n}

/-- Whether a command is one to a track without a strategy: it changes the parameters or the blend,
moves the iterate, or loads. -/
def Command.isTuning {β : Type} : Command α n β → Bool
  | .setParameter _ _ _ | .pushParameter _ _ _ | .removeParameter _ _ | .setForwarding _ _
  | .attachBlend _ _ | .detachBlend _ | .setX _ _ | .moveAlong _ _ _ _ | .computeResidual _
  | .computeJacobian _ => true
  | _ => false

/-- There is one track at most, and it follows its parameters. -/
def Follows (D : P.Valued n) (heard : Prop) (b : Bench δ α n) : Prop :=
  ∀ k t, b.Live k t → k = 0 ∧ Rig.Follows D heard ⟨b.store, t⟩

/-- A command is a push that slips in. -/
def SlipsIn (P : PureDevice δ α) (b : Bench δ α n) {β : Type} : Command α n β → Prop
  | .pushParameter k name value => ∃ t, b.Live k t ∧ Rig.SlipsIn P ⟨b.store, t⟩ name value
  | _ => False

/-- No push of a history slips in. -/
def Hears (P : PureDevice δ α) : Bench δ α n → List (Request α n) → Prop
  | _, [] => True
  | b, request :: rest => ¬ b.SlipsIn P request.2 ∧ Hears P (Step.after (perform request.2) b) rest

theorem Follows.onRig (h : b.Follows D heard) {β : Type} {k : Nat} {act : Step (Rig δ α n) β}
    (step : ∀ t, b.Live k t → Rig.Follows D heard ⟨b.store, t⟩ →
      Ends act ⟨b.store, t⟩ (fun _ r ↦ r.Follows D heard) (fun _ r ↦ r.Follows D heard)) :
    Ends (Bench.onRig k act) b (fun _ b' ↦ b'.Follows D heard) (fun _ b' ↦ b'.Follows D heard) := by
  have back : ∀ {t : Track α n} {r : Rig δ α n}, b.Live k t → r.Follows D heard →
      (b.withEngine k ⟨r, b.newton⟩).Follows D heard := by
    intro t r live follows k' t' live'
    rcases live_replace live' with ⟨rfl, same⟩ | ⟨other, old⟩
    · cases same
      exact ⟨(h k' t live).1, follows⟩
    · exact absurd ((h k' t' old).1.trans (h k t live).1.symm) other
  exact ends_onRig (fun t live ↦ (step t live (h k t live).2).mono
    (fun _ _ follows ↦ back live follows) fun _ _ follows ↦ back live follows) fun _ ↦ h

theorem perform_follows (h : b.Follows D heard) {β : Type} {c : Command α n β}
    (tuning : c.isTuning = true) (noticed : heard → ¬ b.SlipsIn P c) :
    Ends (perform c) b (fun _ b' ↦ b'.Follows D heard) (fun _ b' ↦ b'.Follows D heard) := by
  -- A track that has been moved has nothing that could be wrong.
  have moved : ∀ {r : Rig δ α n} {it : Iterate α n}, r.Follows D heard → it.flags = {} →
      (r.put r.store it r.track.overlay).Follows D heard := fun follows fresh ↦
    .of_invalid ⟨follows.fit, follows.strategy⟩ follows.names
      (.of_invalid (Rig.not_isValid_of_fresh fresh _)) (Rig.not_isValid_of_fresh fresh _)
  cases c with
  | setParameter k name value => exact h.onRig fun _ _ follows ↦ follows.setParameter name value
  | pushParameter k name value =>
    exact h.onRig fun t live follows ↦ Rig.pushParameter_follows follows name value
      fun all slips ↦ noticed all ⟨t, live, slips⟩
  | removeParameter k name =>
    refine h.onRig fun t _ follows ↦ ?_
    simp only [ends_bind, ends_get, ends_orFault_ok, ends_set, ends_pure]
    exact follows.removeParameter name
  | setForwarding k forwarding =>
    exact h.onRig fun _ _ follows ↦ follows.setForwarding forwarding
  | attachBlend k start =>
    exact h.onRig fun _ _ follows ↦ follows.shift (.of_invalidate rfl rfl) rfl follows.names
  | detachBlend k =>
    refine h.onRig fun t _ follows ↦ ?_
    simp only [ends_bind, ends_get, ends_orFault_ok, ends_set, ends_pure]
    exact follows.detachBlend
  | setX k x =>
    refine h.onRig fun t _ follows ↦ ?_
    simp only [ends_bind, ends_orFault, Rig.ends_modifyTrack]
    exact ⟨fun x _ ↦ moved follows rfl, fun _ _ ↦ follows⟩
  | moveAlong k base direction step =>
    refine h.onRig fun t _ follows ↦ ?_
    simp only [ends_dite, ends_fault, Rig.ends_modifyIterate]
    exact ⟨fun _ ↦ moved follows rfl, fun _ ↦ follows⟩
  | computeResidual k => exact h.onRig fun _ _ follows ↦ Rig.computeResidual_follows follows
  | computeJacobian k => exact h.onRig fun _ _ follows ↦ Rig.computeJacobian_follows follows
  | _ => cases tuning

theorem run_follows (h : b.Follows D heard) {history : List (Request α n)}
    (tuning : ∀ request ∈ history, request.2.isTuning = true) (hears : heard → Hears P b history) :
    (b.run history).Follows D heard := by
  induction history generalizing b with
  | nil => exact h
  | cons request rest ih =>
    rw [List.forall_mem_cons] at tuning
    exact ih (perform_follows h tuning.1 fun all ↦ (hears all).1).after tuning.2
      fun all ↦ (hears all).2

/-- A track that has come up at a device layer with nothing else on the bench. -/
theorem follows_added {device : δ} (fit : D.Fit device) (communicator : Communicator α)
    (linear : LinearOptions α) (newton : Newton α) (x : Array α) :
    ((empty device communicator linear newton n).run [⟨_, .add x⟩]).Follows D heard := by
  have nobody : (empty device communicator linear newton n).Follows D heard := fun k t live ↦ by
    cases live
  have added : Ends (perform (.add x)) (empty device communicator linear newton n)
      (fun _ b ↦ b.Follows D heard) (fun _ b ↦ b.Follows D heard) := by
    simp only [perform, put, ends_bind, ends_get, ends_set, ends_pure, ends_orFault]
    refine ⟨fun x _ k t live ↦ ?_, fun _ _ ↦ nobody⟩
    rcases live_push live with ⟨rfl, rfl⟩ | old
    · refine ⟨rfl, .of_invalid ⟨fit, rfl⟩ List.nodup_nil (.of_invalid ?_) ?_⟩
      all_goals exact Rig.not_isValid_of_fresh rfl _
    · cases old
  exact added.after

/-- **Changes of parameters.**  Whatever is done to the parameters of a track without a strategy, to
its blend and to its iterate: if no push has slipped in since there was no residual, then a residual
that is valid is the one that would be stored if everything were made stale and it were computed
again, and the same goes for the Jacobian. -/
theorem again_of_history (D : P.Valued n) {device : δ} (fit : D.Fit device)
    (communicator : Communicator α) (linear : LinearOptions α) (newton : Newton α) (x : Array α)
    {before after : List (Request α n)}
    (tuning : ∀ request ∈ before ++ after, request.2.isTuning = true) :
    let b := (empty device communicator linear newton n).run (⟨_, .add x⟩ :: before)
    (∀ t, b.Live 0 t → Rig.isValid ⟨b.store, t⟩ .residual = false) → Hears P b after →
      ∀ t, (b.run after).Live 0 t →
        (Rig.isValid ⟨(b.run after).store, t⟩ .residual = true →
          Ends Rig.computeResidual (Rig.invalidated ⟨(b.run after).store, t⟩)
            (fun ok r ↦ ok = true ∧ r.store.residual = (b.run after).store.residual)
            (fun _ _ ↦ False)) ∧
        (Rig.isValid ⟨(b.run after).store, t⟩ .jacobian = true →
          Ends Rig.computeJacobian (Rig.invalidated ⟨(b.run after).store, t⟩)
            (fun ok r ↦ ok = true ∧ r.store.jacobian = (b.run after).store.jacobian)
            (fun _ _ ↦ False)) := by
  intro b invalid hears t live
  rw [List.forall_mem_append] at tuning
  -- What has slipped in before does no harm, since nothing is valid then.
  have earlier : b.Follows D False :=
    run_follows (follows_added fit communicator linear newton x) tuning.1 False.elim
  have start : b.Follows D True := by
    intro k t live
    obtain ⟨rfl, follows⟩ := earlier k t live
    exact ⟨rfl, .of_invalid follows.toOpen follows.names follows.rooted (invalid t live)⟩
  have follows := (run_follows start tuning.2 (fun _ ↦ hears) 0 t live).2
  exact ⟨fun valid ↦ follows.residual_again trivial valid,
    fun valid ↦ follows.jacobian_again trivial valid⟩

/-- A circuit of one unknown with the equation `x = 3 p`. -/
def scaled : Circuit :=
  { Circuit.bare with
    terms := [{ row := 0, kind := .lin },
      { row := 0, kind := .const, scale := -3.0, parameter := some "p" }]
    parameters := [("p", 1.0)] }

-- What is said of the bench is not to be compared by carrying out the history.
seal run in
/-- A push slips in, and the iterate is moved; then a push of the same value tells nothing new. -/
theorem again_scaled :
    let newton : Newton Float := { battery := .new .serial .standard {} false }
    let before : List (Request Float 1) := [⟨_, .setParameter 0 "p" 2.0⟩, ⟨_, .computeResidual 0⟩,
      ⟨_, .pushParameter 0 "p" 2.0⟩, ⟨_, .setX 0 #[1.0]⟩]
    let b := (empty scaled .serial .standard newton 1).run (⟨_, .add #[0.0]⟩ :: before)
    let b' := b.run [⟨_, .computeJacobian 0⟩, ⟨_, .pushParameter 0 "p" 2.0⟩]
    ∃ t, b'.Live 0 t ∧ Rig.isValid ⟨b'.store, t⟩ .residual = true ∧
      b'.store.residual = #v[-5.0] ∧
      Ends Rig.computeResidual (Rig.invalidated ⟨b'.store, t⟩)
        (fun ok r ↦ ok = true ∧ r.store.residual = b'.store.residual) fun _ _ ↦ False := by
  intro newton before b b'
  have fits : scaled.Fits 1 := by decide
  have tuning : ∀ request ∈ before ++ [⟨_, .computeJacobian 0⟩, ⟨_, .pushParameter 0 "p" 2.0⟩],
      request.2.isTuning = true := by decide
  have moved : (b.tracks[0]?.join.all fun t ↦ !Rig.isValid ⟨b.store, t⟩ .residual) = true := by
    decide +kernel
  have told : ∀ p ∈ (Step.after (perform (.computeJacobian 0)) b).store.device.parameters,
      p.1 = "p" → p.2 = 2.0 := by decide +kernel
  have loaded : (b'.tracks[0]?.join.any fun t ↦ Rig.isValid ⟨b'.store, t⟩ .residual &&
      decide (b'.store.residual = #v[-5.0])) = true := by decide +kernel
  have invalid : ∀ t, b.Live 0 t → Rig.isValid ⟨b.store, t⟩ .residual = false := by
    intro t live
    rw [Option.join_eq_some_iff.2 live, Option.all_some, Bool.not_eq_true'] at moved
    exact moved
  have hears : ∀ b : Bench Circuit Float 1,
      (∀ p ∈ (Step.after (perform (.computeJacobian 0)) b).store.device.parameters,
        p.1 = "p" → p.2 = 2.0) →
        Hears Circuit.pure b [⟨_, .computeJacobian 0⟩, ⟨_, .pushParameter 0 "p" 2.0⟩] :=
    fun b told ↦ ⟨id, fun ⟨t, live, slips⟩ ↦ slips.new (Circuit.equations_setParameter told),
      trivial⟩
  obtain ⟨t, live, seen⟩ := (Option.any_eq_true _ _).1 loaded
  rw [Bool.and_eq_true, decide_eq_true_eq] at seen
  have live : b'.Live 0 t := Option.join_eq_some_iff.1 live
  have fit : (Circuit.valued scaled fits).Fit scaled := ⟨rfl, rfl, rfl, rfl, rfl⟩
  have again := again_of_history (Circuit.valued scaled fits) fit .serial .standard newton #[0.0]
    tuning invalid (hears b told) t live
  exact ⟨t, live, seen.1, seen.2, again.1 seen.1⟩

end Bench

end OperatingPoint
